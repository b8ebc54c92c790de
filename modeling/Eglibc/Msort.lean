import Eglibc.Checked

/-!
# qsort_r of stdlib/msort.c

`msort_with_tmp` is run on bytes, or on pointers when sorting is indirect, so it is
written over any type of cells. Pointers into the array are offsets. A comparison function
is given the cells of two elements and a state, so that it can answer differently each time.
-/
namespace Eglibc.Msort
open Checked
variable {γ σ : Type}

inductive Var
  | uint32
  | uint64
  | longs
  | pointers
  | bytes
  deriving DecidableEq, Repr

structure Param (γ σ : Type) where
  s : ℕ
  var : Var
  cmp : σ → List γ → List γ → Run (ℤ × σ)

def Param.width (p : Param γ σ) : ℕ :=
  match p.var with
  | .uint32 => 4
  | .uint64 => 8
  | .pointers => 1
  | .longs => p.s
  | .bytes => p.s

/-- `while (tmpl < (unsigned long *) tmp) *tmpl++ = *bl++` -/
def longsBody (src : List γ) (stop : ℕ) (c : List γ × ℕ × ℕ) :
    Run ((List γ × ℕ × ℕ) ⊕ List γ) := do
  if c.2.1 < stop then
    let word ← loadRange src c.2.2 8
    let dst ← storeRange c.1 c.2.1 word
    .ok (.inl (dst, c.2.1 + 8, c.2.2 + 8))
  else .ok (.inr c.1)

def copyElement (p : Param γ σ) (src : List γ) (start : ℕ) (dst : List γ) (dest : ℕ) :
    Run (List γ) :=
  match p.var with
  | .longs => iterate (longsBody src (dest + p.s)) (p.s + 1) (dst, dest, start)
  | _ => do storeRange dst dest (← loadRange src start p.width)

structure Cursor (γ σ : Type) where
  b1 : ℕ
  n1 : ℕ
  b2 : ℕ
  n2 : ℕ
  dest : ℕ
  tmp : List γ
  state : σ

def mergeBody (p : Param γ σ) (arr : List γ) (c : Cursor γ σ) :
    Run (Cursor γ σ ⊕ Cursor γ σ) := do
  if 0 < c.n1 ∧ 0 < c.n2 then
    let x ← loadRange arr c.b1 p.s
    let y ← loadRange arr c.b2 p.s
    let r ← p.cmp c.state x y
    if r.1 ≤ 0 then
      let tmp ← copyElement p arr c.b1 c.tmp c.dest
      .ok (.inl ⟨c.b1 + p.width, c.n1 - 1, c.b2, c.n2, c.dest + p.width, tmp, r.2⟩)
    else
      let tmp ← copyElement p arr c.b2 c.tmp c.dest
      .ok (.inl ⟨c.b1, c.n1, c.b2 + p.width, c.n2 - 1, c.dest + p.width, tmp, r.2⟩)
  else .ok (.inr c)

/-- `if (n1 > 0) memcpy (tmp, b1, n1 * s)` -/
def flushLeft (p : Param γ σ) (arr : List γ) (c : Cursor γ σ) : Run (List γ) :=
  if 0 < c.n1 then do storeRange c.tmp c.dest (← loadRange arr c.b1 (c.n1 * p.s)) else .ok c.tmp

structure Memory (γ σ : Type) where
  arr : List γ
  tmp : List γ
  state : σ

def mergeHalves (p : Param γ σ) (b n : ℕ) (m : Memory γ σ) : Run (Memory γ σ) := do
  let n1 := n / 2
  let c ← iterate (mergeBody p m.arr) (n + 1) ⟨b, n1, b + n1 * p.s, n - n1, 0, m.tmp, m.state⟩
  let tmp ← flushLeft p m.arr c
  let arr ← storeRange m.arr b (← loadRange tmp 0 ((n - c.n2) * p.s))
  .ok ⟨arr, tmp, c.state⟩

def msortWithTmp (p : Param γ σ) (b n : ℕ) (m : Memory γ σ) : Run (Memory γ σ) := do
  if h : n ≤ 1 then .ok m
  else
    let m ← msortWithTmp p b (n / 2) m
    let m ← msortWithTmp p (b + n / 2 * p.s) (n - n / 2) m
    mergeHalves p b n m
termination_by n
decreasing_by all_goals omega

/-- What a call finds. `address` is that of the array and `junk` the contents of new
memory; `physPages` and `pagesize` are the answers of `sysconf`. -/
structure Environment where
  address : ℕ
  physPages : ℤ
  pagesize : ℕ
  mallocWorks : Bool
  junk : ℕ → ℕ

def tempSize (n s : ℕ) : ℕ := if 32 < s then (2 * n * 8 + s) % 2 ^ 64 else n * s % 2 ^ 64

def Environment.pageLimit (env : Environment) : ℤ :=
  (if env.physPages = -1 then 2 ^ 63 - 1 else env.physPages).tdiv 4

/-- The temporary array is on the stack or `malloc` provides it. -/
def Environment.obtains (env : Environment) (size : ℕ) : Prop :=
  size < 1024 ∨ ((size / env.pagesize : ℕ) : ℤ) ≤ env.pageLimit % 2 ^ 64 ∧ env.mallocWorks = true

instance (env : Environment) (size : ℕ) : Decidable (env.obtains size) :=
  inferInstanceAs (Decidable (_ ∨ _))

def selectVar (address s : ℕ) : Var :=
  if s &&& 3 = 0 ∧ address % 4 = 0 then
    if s = 4 then .uint32
    else if s = 8 ∧ address % 8 = 0 then .uint64
    else if s &&& 7 = 0 ∧ address % 8 = 0 then .longs
    else .bytes
  else .bytes

/-- `while ((void *) t < tmp_storage) *t++ = ip, ip += s` -/
def fillBody (n s : ℕ) (c : List ℕ × ℕ × ℕ) : Run ((List ℕ × ℕ × ℕ) ⊕ List ℕ) := do
  if c.2.1 < n then
    let tp ← store c.1 c.2.1 c.2.2
    .ok (.inl (tp, c.2.1 + 1, c.2.2 + s))
  else .ok (.inr c.1)

structure Cycle where
  tp : List ℕ
  b : List UInt8
  j : ℕ
  jp : ℕ
  kp : ℕ

def cycleBody (s ip : ℕ) (c : Cycle) : Run (Cycle ⊕ Cycle) := do
  let k := c.kp / s
  let tp ← store c.tp c.j c.jp
  let b ← storeRange c.b c.jp (← loadRange c.b c.kp s)
  let kp ← load tp k
  if kp ≠ ip then .ok (.inl ⟨tp, b, k, c.kp, kp⟩) else .ok (.inr ⟨tp, b, k, c.kp, kp⟩)

structure Placing where
  i : ℕ
  ip : ℕ
  tp : List ℕ
  b : List UInt8
  storage : List UInt8

def placeBody (n s : ℕ) (c : Placing) : Run (Placing ⊕ List UInt8) := do
  if c.i < n then
    let kp ← load c.tp c.i
    if kp ≠ c.ip then
      let storage ← storeRange c.storage 0 (← loadRange c.b c.ip s)
      let d ← iterate (cycleBody s c.ip) (n + 1) ⟨c.tp, c.b, c.i, c.ip, kp⟩
      let tp ← store d.tp d.j d.jp
      let b ← storeRange d.b d.jp (← loadRange storage 0 s)
      .ok (.inl ⟨c.i + 1, c.ip + s, tp, b, storage⟩)
    else .ok (.inl { c with i := c.i + 1, ip := c.ip + s })
  else .ok (.inr c.b)

section
variable (cmp : σ → List UInt8 → List UInt8 → ℤ × σ)

def cmpIndirect (b : List UInt8) (s : ℕ) (state : σ) (x y : List ℕ) : Run (ℤ × σ) := do
  let p ← load x 0
  let q ← load y 0
  .ok (cmp state (← loadRange b p s) (← loadRange b q s))

/-- The temporary array is two arrays of pointers and storage for one element. -/
def sortIndirect (env : Environment) (n s : ℕ) (b : List UInt8) (state : σ) :
    Run (List UInt8 × σ) := do
  let size := tempSize n s
  let words := (List.range (min (2 * n) (size / 8))).map env.junk
  let storage := (List.range (size - 2 * n * 8)).map fun i => UInt8.ofNat (env.junk i)
  let tp ← iterate (fillBody n s) (n + 1) (words.drop n, 0, 0)
  let m ← msortWithTmp ⟨1, .pointers, cmpIndirect cmp b s⟩ 0 n ⟨tp, words.take n, state⟩
  let b ← iterate (placeBody n s) (n + 1) ⟨0, 0, m.arr, b, storage⟩
  .ok (b, m.state)

def sortDirect (env : Environment) (n s : ℕ) (b : List UInt8) (state : σ) :
    Run (List UInt8 × σ) := do
  let tmp := (List.range (tempSize n s)).map fun i => UInt8.ofNat (env.junk i)
  let m ← msortWithTmp ⟨s, selectVar env.address s, fun state x y => .ok (cmp state x y)⟩ 0 n
    ⟨b, tmp, state⟩
  .ok (m.arr, m.state)

/-- `none` when the temporary array is not obtained and `_quicksort` is called instead. -/
def qsortR (env : Environment) (n s : ℕ) (b : List UInt8) (state : σ) :
    Run (Option (List UInt8 × σ)) := do
  if env.obtains (tempSize n s) then
    if 32 < s then .ok (some (← sortIndirect cmp env n s b state))
    else .ok (some (← sortDirect cmp env n s b state))
  else .ok none

end

end Eglibc.Msort
