import Eglibc.Checked
import Eglibc.BigEndian

/-!
# Random numbers

The functions of `stdlib/random_r.c` over any number of state arrays. An array is a list
of 32-bit words; the first one is `state[-1]` of a state that lies in it.
-/
namespace Eglibc.Random
open Checked BigEndian

def maxTypes : ℕ := 5

/-- The fields of `random_poly_info`, for the types 0 to 4. -/
def seps : List ℕ := [0, 3, 1, 3, 1]

def degrees : List ℕ := [0, 7, 15, 31, 63]

structure Ptr where
  array : ℕ
  index : ℕ
  deriving DecidableEq

def Ptr.add (p : Ptr) (k : ℕ) : Ptr := ⟨p.array, p.index + k⟩

/-- `struct random_data`; `state` may be a null pointer. -/
structure RandomData where
  fptr : Ptr
  rptr : Ptr
  state : Option Ptr
  randType : ℕ
  randDeg : ℕ
  randSep : ℕ
  endPtr : Ptr

abbrev Memory := ℕ → List ℤ

structure Machine where
  memory : Memory
  buf : RandomData

def loadWord (m : Memory) (p : Ptr) : Run ℤ := load (m p.array) p.index

def storeWord (m : Memory) (p : Ptr) (v : ℤ) : Run Memory := do
  let words ← store (m p.array) p.index v
  .ok (Function.update m p.array words)

def Ptr.info (state : Ptr) : Ptr := ⟨state.array, state.index - 1⟩

/-- The pointers after a step, both advanced cyclically. They cannot both wrap. -/
def advance (buf : RandomData) (state : Ptr) : RandomData :=
  if buf.endPtr.index ≤ (buf.fptr.add 1).index then
    { buf with fptr := state, rptr := buf.rptr.add 1 }
  else if buf.endPtr.index ≤ (buf.rptr.add 1).index then
    { buf with fptr := buf.fptr.add 1, rptr := state }
  else { buf with fptr := buf.fptr.add 1, rptr := buf.rptr.add 1 }

def congruential (x : ℤ) : ℤ := (x * 1103515245 + 12345) % 2 ^ 31

def randomR (s : Machine) : Run (Machine × ℤ) :=
  match s.buf.state with
  | none => .error (.read 0)
  | some state =>
    if s.buf.randType = 0 then do
      let x ← loadWord s.memory state
      let m ← storeWord s.memory state (congruential x)
      .ok ({ s with memory := m }, congruential x)
    else do
      let x ← loadWord s.memory s.buf.fptr
      let y ← loadWord s.memory s.buf.rptr
      let val := signed 32 (x + y)
      let m ← storeWord s.memory s.buf.fptr val
      -- pointers are compared inside one array only
      ensure (s.buf.fptr.array = s.buf.endPtr.array ∧ s.buf.rptr.array = s.buf.endPtr.array)
      .ok (⟨m, advance s.buf state⟩, val / 2 % 2 ^ 31)

/-- `16807 * word % 2147483647`, without overflow. -/
def lehmer (word : ℤ) : ℤ :=
  let hi := word.tdiv 127773
  let lo := word.tmod 127773
  let next := signed 32 (16807 * lo - 2836 * hi)
  if next < 0 then next + 2147483647 else next

def fillTable : ℕ → Memory → Ptr → ℤ → Run Memory
  | 0, m, _, _ => .ok m
  | n + 1, m, dst, word => do
    let m' ← storeWord m (dst.add 1) (lehmer word)
    fillTable n m' (dst.add 1) (lehmer word)

def discard : ℕ → Machine → Run Machine
  | 0, s => .ok s
  | n + 1, s => do
    let r ← randomR s
    discard n r.1

def seedWord (seed : UInt32) : ℤ := signed 32 (if seed = 0 then 1 else (seed.toNat : ℤ))

def srandomR (seed : UInt32) (s : Machine) : Run (Machine × ℤ) :=
  if maxTypes ≤ s.buf.randType then .ok (s, -1)
  else
    match s.buf.state with
    | none => .error (.write 0)
    | some state => do
      let m ← storeWord s.memory state (seedWord seed)
      if s.buf.randType = 0 then .ok ({ s with memory := m }, 0)
      else do
        let m' ← fillTable (s.buf.randDeg - 1) m state (seedWord seed)
        let s' ← discard (s.buf.randDeg * 10)
          ⟨m', { s.buf with fptr := state.add s.buf.randSep, rptr := state }⟩
        .ok (s', 0)

def infoWord (type : ℕ) (rptr state : Ptr) : Run ℤ :=
  if type = 0 then .ok 0
  else if rptr.array = state.array then
    .ok (maxTypes * ((rptr.index : ℤ) - state.index) + type)
  else .error .assertion

def saveState (s : Machine) (state : Ptr) : Run Machine := do
  let info ← infoWord s.buf.randType s.buf.rptr state
  let m ← storeWord s.memory state.info info
  .ok { s with memory := m }

def typeFor (n : ℕ) : Option ℕ :=
  if 128 ≤ n then some (if n < 256 then 3 else 4)
  else if n < 32 then if n < 8 then none else some 0
  else some (if n < 64 then 1 else 2)

def saveCurrent (s : Machine) : Run Machine :=
  match s.buf.state with
  | none => .ok s
  | some state => saveState s state

def setUp (seed : UInt32) (array type : ℕ) (s : Machine) : Run Machine := do
  let degree := degrees.getD type 0
  let state : Ptr := ⟨array, 1⟩
  let r ← srandomR seed { s with buf := { s.buf with
    randType := type
    randSep := seps.getD type 0
    randDeg := degree
    endPtr := state.add degree
    state := some state } }
  let info ← infoWord type r.1.buf.rptr state
  let m ← storeWord r.1.memory state.info info
  .ok { r.1 with memory := m }

def initstateR (seed : UInt32) (array n : ℕ) (s : Machine) : Run (Machine × ℤ) := do
  let saved ← saveCurrent s
  match typeFor n with
  | none => .ok (saved, -1)
  | some type => do
    let s' ← setUp seed array type saved
    .ok (s', 0)

def restore (buf : RandomData) (array : ℕ) (info : ℤ) : RandomData :=
  let state : Ptr := ⟨array, 1⟩
  let type := (info.tmod maxTypes).toNat
  let degree := degrees.getD type 0
  let separation := seps.getD type 0
  let rear := (info.tdiv maxTypes).toNat
  let buf' := { buf with
    randDeg := degree
    randSep := separation
    randType := type
    state := some state
    endPtr := state.add degree }
  if type = 0 then buf'
  else { buf' with rptr := state.add rear, fptr := state.add ((rear + separation) % degree) }

def setstateR (array : ℕ) (s : Machine) : Run (Machine × ℤ) :=
  match s.buf.state with
  | none => .error (.write 0)
  | some old => do
    let saved ← saveState s old
    let info ← loadWord saved.memory ⟨array, 0⟩
    if info.tmod maxTypes < 0 then .ok (saved, -1)
    else .ok ({ saved with buf := restore saved.buf array info }, 0)

inductive Call
  | init (seed : UInt32) (array n : ℕ)
  | set (array : ℕ)
  | random

def Call.run (s : Machine) : Call → Run (Machine × Option ℤ)
  | .init seed array n => do
    let r ← initstateR seed array n s
    .ok (r.1, none)
  | .set array => do
    let r ← setstateR array s
    .ok (r.1, none)
  | .random => do
    let r ← randomR s
    .ok (r.1, some r.2)

def runCalls : List Call → Machine → Run (Machine × List ℤ)
  | [], s => .ok (s, [])
  | c :: cs, s => do
    let r ← c.run s
    let r' ← runCalls cs r.1
    .ok (r'.1, r.2.toList ++ r'.2)

end Eglibc.Random
