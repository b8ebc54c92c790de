import Eglibc.Endian
import Eglibc.Flat
import Eglibc.Signed

/-!
# Reading a time zone file

Model of `__tzfile_read` of `time/tzfile.c` from the header on, for a little-endian host
with 64-bit `time_t` and `size_t`. All tables lie in one block; an address is an offset
into it, and a store outside of it is a fault. `fstat` and the reads see the same file.
-/
namespace Eglibc.TzfileRead
open Checked Signed Endian

/-! ### The block -/

/-- `malloc`: the sizes it can serve, and what fresh memory holds. -/
structure Heap where
  available : ℕ → Bool
  fresh : ℕ → UInt8

structure Block where
  size : ℕ
  mem : ℕ → UInt8

def Block.store (b : Block) (a : ℕ) (xs : List UInt8) : Run Block :=
  if a + xs.length ≤ b.size then .ok { b with mem := Flat.write b.mem a xs } else .error (.write a)

def Block.load (b : Block) (a n : ℕ) : Run (List UInt8) :=
  if a + n ≤ b.size then .ok (Flat.read b.mem a n) else .error (.read a)

structure Reader where
  block : Block
  rest : List UInt8

/-- The next step, unless the file has been rejected by `goto lose`. -/
def unlessLost {α β : Type} (x : Run (Option α)) (f : α → Run (Option β)) : Run (Option β) := do
  match ← x with
  | none => .ok none
  | some a => f a

/-- `fread` into the block. What is there is stored even if it is too short. -/
def fread (n a : ℕ) (r : Reader) : Run (Option Reader) := do
  let block ← r.block.store a (r.rest.take n)
  if r.rest.length < n then .ok none else .ok (some ⟨block, r.rest.drop n⟩)

/-- `getc`, with -1 for the end of the file -/
def getc : List UInt8 → ℤ × List UInt8
  | [] => (-1, [])
  | b :: rest => (b.toNat, rest)

def size (x : ℤ) : ℕ := (x % 2 ^ 64).toNat

def decode (bs : List UInt8) : ℤ := wrap 32 (beNumber bs)

def decode64 (bs : List UInt8) : ℤ := wrap 64 (beNumber bs)

def bytes64 (x : ℤ) : List UInt8 := leBytes 8 (size x)

/-! ### The header -/

structure Counts where
  transitions : ℕ
  types : ℕ
  chars : ℕ
  leaps : ℕ
  isstd : ℕ
  isgmt : ℕ
  deriving DecidableEq, Repr

/-- `struct tzhead`: the version, and the counts as `size_t` -/
structure Tzhead where
  version : UInt8
  counts : Counts

def tzMagic : List UInt8 := [0x54, 0x5a, 0x69, 0x66]

def count (bs : List UInt8) (pos : ℕ) : ℕ := size (decode ((bs.drop pos).take 4))

def readHead (bs : List UInt8) : Option Tzhead :=
  if bs.length < 44 ∨ bs.take 4 ≠ tzMagic then none
  else some ⟨bs.getD 4 0,
    { transitions := count bs 32, types := count bs 36, chars := count bs 40
      leaps := count bs 28, isstd := count bs 24, isgmt := count bs 20 }⟩

/-- The distance to the second header, as an offset of `fseek`. -/
def toSkip (c : Counts) : ℤ :=
  wrap 64 (c.transitions * 5 + c.types * 6 + c.chars + c.leaps * 8 + c.isstd + c.isgmt)

def findTables (file : List UInt8) : Option (ℕ × Counts × List UInt8) := do
  let head ← readHead file
  if head.version ≠ 0 then
    let pos := 44 + toSkip head.counts
    if pos < 0 then none
    else
      let rest := file.drop pos.toNat
      let head ← readHead rest
      some (8, head.counts, rest.drop 44)
  else some (4, head.counts, file.drop 44)

/-! ### The layout of the block -/

structure Layout extends Counts where
  width : ℕ
  typesIdx : ℕ
  leapsIdx : ℕ
  totalSize : ℕ
  tzspecLen : ℕ
  extra : ℕ
  deriving DecidableEq, Repr

namespace Layout
variable (l : Layout)

def typeIdxsAt : ℕ := l.transitions * 8
def zoneNames : ℕ := l.typesIdx + l.types * 16
def tzspecAt : ℕ := l.leapsIdx + l.leaps * 16 + l.extra
def blockSize : ℕ := l.totalSize + l.tzspecLen + l.extra

end Layout

def align (x : ℕ) : ℕ := (x + 7) / 8 * 8

/-- `tzspec_len`, from what is left of the file -/
def tzspecLength (width : ℕ) (c : Counts) (rem totalSize : ℕ) : Option ℕ :=
  if width = 8 then
    let tables := (c.transitions * 9 + c.types * 6 + c.chars) % 2 ^ 64
    if rem < tables then none
    else if sizeMax / 12 < c.leaps ∨ rem - tables < c.leaps * 12 then none
    else
      let len := rem - tables - c.leaps * 12
      if len < c.isstd then none
      else if len - c.isstd = 0 ∨ len - c.isstd - 1 < c.isgmt then none
      else
        let len := len - c.isstd - (c.isgmt + 1)
        if sizeMax - totalSize < len then none else some len
  else some 0

/-- The sizes and indices. Each check keeps the sum that follows it from wrapping. -/
def layout (width : ℕ) (c : Counts) (rem extra : ℕ) : Option Layout :=
  if (sizeMax - 7) / 9 < c.transitions then none
  else
    let typesIdx := align (c.transitions * 9)
    if (sizeMax - typesIdx) / 16 < c.types then none
    else if sizeMax - (typesIdx + c.types * 16) < c.chars then none
    else if sizeMax - (typesIdx + c.types * 16 + c.chars) < 7 then none
    else
      let leapsIdx := align (typesIdx + c.types * 16 + c.chars)
      if (sizeMax - leapsIdx) / 16 < c.leaps then none
      else
        let totalSize := leapsIdx + c.leaps * 16
        match tzspecLength width c rem totalSize with
        | none => none
        | some tzspecLen =>
          if sizeMax - totalSize - tzspecLen < extra then none
          else some ⟨c, width, typesIdx, leapsIdx, totalSize, tzspecLen, extra⟩

/-! ### The tables -/

section
variable (l : Layout)

def readTransitions (r : Reader) : Run (Option Reader) :=
  if l.width = 8 then fread (l.transitions * 9) 0 r
  else unlessLost (fread (l.transitions * 4) 0 r) (fread l.transitions l.typeIdxsAt)

/-- The first so many entries of `type_idxs` are indices of types. -/
def indicesOk (b : Block) : ℕ → Run Bool
  | 0 => .ok true
  | i + 1 => do
    if ← indicesOk b i then do
      let x ← b.load (l.typeIdxsAt + i) 1
      .ok ((x.headD 0).toNat < l.types)
    else .ok false

def decodeDown : ℕ → Block → Run Block
  | 0, b => .ok b
  | i + 1, b => do
    let x ← b.load (i * 4) 4
    decodeDown i (← b.store (i * 8) (bytes64 (decode x)))

def decodeUp : ℕ → Block → Run Block
  | 0, b => .ok b
  | i + 1, b => do
    let b ← decodeUp i b
    let x ← b.load (i * 8) 8
    b.store (i * 8) (bytes64 (decode64 x))

def decodeTransitions (b : Block) : Run Block :=
  if l.width = 4 then decodeDown l.transitions b else decodeUp l.transitions b

def readType (i : ℕ) (r : Reader) : Run (Option Reader) :=
  if r.rest.length < 4 then .ok none
  else
    let x := r.rest.take 4
    let isdst := getc (r.rest.drop 4)
    if isdst.1 % 2 ^ 32 > 1 then .ok none
    else do
      let b ← r.block.store (l.typesIdx + i * 16 + 8) [UInt8.ofNat isdst.1.toNat]
      let idx := getc isdst.2
      if l.chars < size idx.1 then .ok none
      else do
        let b ← b.store (l.typesIdx + i * 16 + 9) [UInt8.ofNat idx.1.toNat]
        let b ← b.store (l.typesIdx + i * 16) (bytes64 (decode x))
        .ok (some ⟨b, idx.2⟩)

def readTypes : ℕ → ℕ → Reader → Run (Option Reader)
  | 0, _, r => .ok (some r)
  | more + 1, i, r => unlessLost (readType l i r) (readTypes more (i + 1))

def readLeap (i : ℕ) (r : Reader) : Run (Option Reader) :=
  if r.rest.length < l.width then .ok none
  else do
    let x := r.rest.take l.width
    let b ← r.block.store (l.leapsIdx + i * 16)
      (bytes64 (if l.width = 4 then decode x else decode64 x))
    let rest := r.rest.drop l.width
    if rest.length < 4 then .ok none
    else do
      let b ← b.store (l.leapsIdx + i * 16 + 8) (bytes64 (decode (rest.take 4)))
      .ok (some ⟨b, rest.drop 4⟩)

def readLeaps : ℕ → ℕ → Reader → Run (Option Reader)
  | 0, _, r => .ok (some r)
  | more + 1, i, r => unlessLost (readLeap l i r) (readLeaps more (i + 1))

def readTables (r : Reader) : Run (Option Reader) :=
  unlessLost (readTransitions l r) fun r => do
    if ← indicesOk l r.block l.transitions then do
      let b ← decodeTransitions l r.block
      unlessLost (readTypes l l.types 0 ⟨b, r.rest⟩) fun r =>
        unlessLost (fread l.chars l.zoneNames r) (readLeaps l l.leaps 0)
    else .ok none

def flagLoop (offset : ℕ) : ℕ → ℕ → Reader → Run (Option Reader)
  | 0, _, r => .ok (some r)
  | more + 1, i, r =>
    match r.rest with
    | [] => .ok none
    | c :: rest => do
      let b ← r.block.store (l.typesIdx + i * 16 + offset) [if c ≠ 0 then 1 else 0]
      flagLoop offset more (i + 1) ⟨b, rest⟩

/-- `while (i < num_types) types[i++].flag = 0` -/
def clearLoop (offset : ℕ) : ℕ → ℕ → Block → Run Block
  | 0, _, b => .ok b
  | more + 1, i, b => do
    clearLoop offset more (i + 1) (← b.store (l.typesIdx + i * 16 + offset) [0])

def readFlags (offset given : ℕ) (r : Reader) : Run (Option Reader) :=
  unlessLost (flagLoop l offset given 0 r) fun r => do
    let b ← clearLoop l offset (l.types - given) given r.block
    .ok (some { r with block := b })

/-- The string behind the tables, if there is one: where it stands, and the block. -/
def readTzspec (r : Reader) : Run (Option ℕ × Block) :=
  if l.width = 8 then
    let c := getc r.rest
    if c.1 ≠ 10 then .ok (none, r.block)
    else do
      let b ← r.block.store l.tzspecAt (c.2.take (sizeSub l.tzspecLen 1))
      if c.2.length < sizeSub l.tzspecLen 1 then .ok (none, b)
      else do
        let b ← b.store (l.tzspecAt + sizeSub l.tzspecLen 1) [0]
        let first ← b.load l.tzspecAt 1
        if first = [0] then .ok (none, b) else .ok (some l.tzspecAt, b)
  else .ok (none, r.block)

end

/-! ### The names and the offsets -/

section
variable (l : Layout) (b : Block)

def typeByte (i offset : ℕ) : Run UInt8 :=
  if i < l.types then do
    let x ← b.load (l.typesIdx + i * 16 + offset) 1
    .ok (x.headD 0)
  else .error (.read i)

def typeOffset (i : ℕ) : Run ℤ :=
  if i < l.types then do
    let x ← b.load (l.typesIdx + i * 16) 8
    .ok (wrap 64 (leNumber x))
  else .error (.read i)

def typeIdx (i : ℕ) : Run ℕ := do
  let x ← b.load (l.typeIdxsAt + i) 1
  .ok (x.headD 0).toNat

/-- `&zone_names[idx]` -/
def zoneName (idx : ℕ) : Run Unit := if idx < l.chars then .ok () else .error (.read idx)

/-- The names of the types from `i` on are registered. -/
def registerNames : ℕ → ℕ → Run Unit
  | 0, _ => .ok ()
  | more + 1, i => do
    let idx ← typeByte l b i 9
    zoneName l idx.toNat
    registerNames more (i + 1)

def chooseNames : ℕ → Bool → Bool → Run (Bool × Bool)
  | 0, std, dst => .ok (std, dst)
  | i + 1, std, dst => do
    let type ← typeIdx l b i
    let isdst ← typeByte l b type 8
    if (if isdst ≠ 0 then dst else std) then chooseNames i std dst
    else do
      let idx ← typeByte l b type 9
      zoneName l idx.toNat
      if isdst ≠ 0 then if std then .ok (true, true) else chooseNames i std true
      else if dst then .ok (true, true) else chooseNames i true dst

def checkNames (std : Bool) : Run Unit :=
  if std then .ok ()
  else do
    ensure (l.types = 1)
    zoneName l 0

/-- The loop over the transitions that sets the offsets of the rules, from the last one on. -/
def ruleLoop : ℕ → Option ℤ → Option ℤ → Run (Option ℤ × Option ℤ)
  | 0, std, dst => .ok (std, dst)
  | i + 1, std, dst => do
    let type ← typeIdx l b i
    let isdst ← typeByte l b type 8
    let offset ← typeOffset l b type
    let std' := if std = none ∧ isdst = 0 then some offset else std
    let dst' := if dst = none ∧ isdst ≠ 0 then some offset else dst
    if std' ≠ none ∧ dst' ≠ none then .ok (std', dst') else ruleLoop i std' dst'

/-- `rule_stdoff` and `rule_dstoff` -/
def ruleOffsets : Run (ℤ × ℤ) :=
  if l.transitions = 0 then do
    let offset ← typeOffset l b 0
    .ok (offset, offset)
  else do
    let (std, dst) ← ruleLoop l b l.transitions none none
    .ok (std.getD 0, dst.getD (std.getD 0))

end

structure Zone where
  layout : Layout
  block : Block
  tzspec : Option ℕ
  ruleStdoff : ℤ
  ruleDstoff : ℤ

def finish (l : Layout) (r : Reader) : Run (Option Zone) := do
  let (tzspec, b) ← readTzspec l r
  registerNames l b l.types 0
  let (std, _) ← chooseNames l b l.transitions false false
  checkNames l std
  let (stdoff, dstoff) ← ruleOffsets l b
  .ok (some ⟨l, b, tzspec, stdoff, dstoff⟩)

def readZone (l : Layout) (r : Reader) : Run (Option Zone) :=
  unlessLost (readTables l r) fun r =>
    unlessLost (readFlags l 10 l.isstd r) fun r =>
      unlessLost (readFlags l 11 l.isgmt r) (finish l)

def prepare (heap : Heap) (file : List UInt8) (extra : ℕ) : Option (Layout × Reader) := do
  let (width, c, rest) ← findTables file
  let l ← layout width c rest.length extra
  if heap.available l.blockSize then some (l, ⟨⟨l.blockSize, heap.fresh⟩, rest⟩) else none

/-- `__tzfile_read`: nothing for a file that is rejected -/
def tzfileRead (heap : Heap) (file : List UInt8) (extra : ℕ) : Run (Option Zone) :=
  match prepare heap file extra with
  | none => .ok none
  | some (l, r) => readZone l r

end Eglibc.TzfileRead
