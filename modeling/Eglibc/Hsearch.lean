import Eglibc.Bytes
import Eglibc.DoubleHash

/-!
# hcreate_r and hsearch_r of misc/hsearch_r.c

`unsigned int` is 32 bits wide and `size_t` 64. The prime search is written over the
arithmetic it uses, so that it can be run with results that wrap, as the code does, and
with results that are required to fit.
-/
namespace Eglibc.Hsearch
open Checked Bytes
variable {δ : Type}

structure Arithmetic where
  mul : ℕ → ℕ → Run ℕ
  convert : ℕ → Run ℕ

def wrapping : Arithmetic := ⟨fun a b => .ok (a * b % 2 ^ 32), fun a => .ok (a % 2 ^ 32)⟩

def fitting : Arithmetic :=
  ⟨fun a b => if a * b < 2 ^ 32 then .ok (a * b) else .error .wrap,
    fun a => if a < 2 ^ 32 then .ok a else .error .wrap⟩

def isprimeBody (ar : Arithmetic) (number div : ℕ) : Run (ℕ ⊕ Bool) := do
  let square ← ar.mul div div
  if square < number ∧ number % div ≠ 0 then .ok (.inl (div + 2))
  else .ok (.inr (decide (number % div ≠ 0)))

def isprime (ar : Arithmetic) (number : ℕ) : Run Bool :=
  iterate (isprimeBody ar number) (number + 1) 3

def primeBody (ar : Arithmetic) (nel : ℕ) : Run (ℕ ⊕ ℕ) := do
  if ← isprime ar (← ar.convert nel) then .ok (.inr nel) else .ok (.inl ((nel + 2) % 2 ^ 64))

/-- `nel` changed to the first prime number not smaller. -/
def primeSearch (ar : Arithmetic) (nel : ℕ) : Run ℕ :=
  iterate (primeBody ar) (2 ^ 32) ((if nel < 3 then 3 else nel) ||| 1)

structure Entry (δ : Type) where
  key : CString
  data : δ

structure Slot (δ : Type) where
  used : ℕ
  entry : Option (Entry δ)

structure Table (δ : Type) where
  table : List (Slot δ)
  size : ℕ
  filled : ℕ

/-- `none` is the answer 0, when another table is active or `calloc` fails. -/
def hcreateR (ar : Arithmetic) (δ : Type) (nel : ℕ) (active callocWorks : Bool) :
    Run (Option (Table δ)) := do
  if active then .ok none
  else
    let nel ← primeSearch ar nel
    let size := nel % 2 ^ 32
    if callocWorks then .ok (some ⟨List.replicate ((size + 1) % 2 ^ 32) ⟨0, none⟩, size, 0⟩)
    else .ok none

/-- The value of a `char`, which may be signed, as an `unsigned int`. -/
def charValue (signed : Bool) (c : UInt8) : ℕ :=
  if signed ∧ 128 ≤ c.toNat then 2 ^ 32 - 256 + c.toNat else c.toNat

/-- `while (count-- > 0) hval <<= 4, hval += item.key[count]` -/
def hashBytes (signed : Bool) (key : List UInt8) (hval : ℕ) : ℕ → Run ℕ
  | 0 => .ok hval
  | count + 1 => do
      let c ← load key count
      hashBytes signed key ((hval * 16 % 2 ^ 32 + charValue signed c) % 2 ^ 32) count

def hash (signed : Bool) (key : CString) : Run ℕ := do
  let len := key.bytes.length % 2 ^ 32
  let hval ← hashBytes signed key.object len len
  if hval = 0 then .ok 1 else .ok hval

/-- `used == hval && strcmp (item.key, entry.key) == 0` -/
def matchesKey (key : CString) (hval : ℕ) (slot : Slot δ) : Run Bool :=
  if slot.used = hval then
    match slot.entry with
    | some e => .ok (decide (key.bytes = e.key.bytes))
    | none => .error (.read 0)
  else .ok false

inductive Probed
  | found (idx : ℕ)
  | empty (idx : ℕ)

def probeBody (h : Table δ) (key : CString) (hval hval2 first_idx idx : ℕ) :
    Run (ℕ ⊕ Probed) := do
  let idx := if idx ≤ hval2 then (h.size + idx - hval2) % 2 ^ 32 else idx - hval2
  if idx = first_idx then .ok (.inr (.empty idx))
  else
    let slot ← load h.table idx
    if ← matchesKey key hval slot then .ok (.inr (.found idx))
    else if slot.used ≠ 0 then .ok (.inl idx)
    else .ok (.inr (.empty idx))

def search (h : Table δ) (key : CString) (hval : ℕ) : Run Probed := do
  let idx := hval % h.size + 1
  let slot ← load h.table idx
  if slot.used ≠ 0 then
    if ← matchesKey key hval slot then .ok (.found idx)
    else
      let hval2 := 1 + hval % (h.size - 2)
      iterate (probeBody h key hval hval2 idx) (h.size + 1) idx
  else .ok (.empty idx)

inductive Action
  | find
  | enter
  deriving DecidableEq

/-- The answer: `*retval` points to the entry of a slot, or the error is in `errno`. -/
inductive Status
  | entry (idx : ℕ)
  | enomem
  | esrch
  deriving DecidableEq

def hsearchR (signed : Bool) (item : Entry δ) (action : Action) (h : Table δ) :
    Run (Table δ × Status) := do
  let hval ← hash signed item.key
  match ← search h item.key hval with
  | .found idx => .ok (h, .entry idx)
  | .empty idx =>
    if action = .enter then
      if h.filled = h.size then .ok (h, .enomem)
      else
        let table ← store h.table idx ⟨hval, some item⟩
        .ok (⟨table, h.size, (h.filled + 1) % 2 ^ 32⟩, .entry idx)
    else .ok (h, .esrch)

end Eglibc.Hsearch
