import Eglibc.Flat

/-!
# Obstacks

An obstack is a stack of objects in a chain of chunks, with one object being built at the
end. Addresses are natural numbers, and the words at the front of the chunks are kept as
the list of chunks.
-/
namespace Eglibc.Obstacks
open Flat

structure Chunk where
  base : ℕ
  limit : ℕ
  deriving DecidableEq

/-- What is fixed at the start: the size of ordinary chunks, the mask of the alignment,
and the size of the words at the front of a chunk. -/
structure Setup where
  chunkSize : ℕ
  alignmentMask : ℕ
  header : ℕ
  header_pos : 0 < header
  header_le : header ≤ 100

structure Obstack where
  chunk : Chunk
  prev : List Chunk
  objectBase : ℕ
  nextFree : ℕ
  chunkLimit : ℕ
  maybeEmptyObject : Bool
  mem : ℕ → UInt8

def Obstack.chunks (h : Obstack) : List Chunk := h.chunk :: h.prev

/-- `__PTR_ALIGN`, for a mask one less than the alignment. -/
def ptrAlign (p mask : ℕ) : ℕ := (p + mask) / (mask + 1) * (mask + 1)

def Setup.start (u : Setup) (base : ℕ) : ℕ := ptrAlign (base + u.header) u.alignmentMask

/-- The blocks that `chunkfun` returns: their places and contents. A block is disjoint
from every chunk that has not been released. -/
structure Chunkfun where
  base : Obstack → ℕ → ℕ
  fill : Obstack → ℕ → ℕ → UInt8
  fresh : ∀ h size, ∀ c ∈ h.chunks, c.limit ≤ base h size ∨ base h size + size ≤ c.base

structure First where
  base : ℕ
  mem : ℕ → UInt8

def begin (u : Setup) (first : First) : Obstack :=
  { chunk := ⟨first.base, first.base + u.chunkSize⟩
    prev := []
    objectBase := u.start first.base
    nextFree := u.start first.base
    chunkLimit := first.base + u.chunkSize
    maybeEmptyObject := false
    mem := first.mem }

def defaultAlignment : ℕ := 16

def copyingUnit : ℕ := 4

/-- The copy of the partial object: whole units from the last to the first if
the object is aligned, and the remaining bytes one by one. -/
def copyObject (mask : ℕ) (mem : ℕ → UInt8) (dst src objSize : ℕ) : ℕ → UInt8 :=
  let units := if mask + 1 ≥ defaultAlignment then objSize / copyingUnit else 0
  let already := units * copyingUnit
  let mem := ((List.range units).reverse.map (· * copyingUnit)).foldl
    (fun m k => copy m (dst + k) (src + k) copyingUnit) mem
  (List.range' already (objSize - already)).foldl (fun m k => copy m (dst + k) (src + k) 1) mem

/-- The size that `_obstack_newchunk` asks for. -/
def newSize (u : Setup) (h : Obstack) (length : ℕ) : ℕ :=
  let objSize := h.nextFree - h.objectBase
  let newSize := objSize + length + objSize / 8 + u.alignmentMask + 100
  if newSize < u.chunkSize then u.chunkSize else newSize

/-- The memory with a block that `chunkfun` has returned. -/
def allocate (f : Chunkfun) (h : Obstack) (size : ℕ) : ℕ → UInt8 := fun a =>
  if f.base h size ≤ a ∧ a < f.base h size + size then f.fill h size a else h.mem a

def newchunk (u : Setup) (f : Chunkfun) (h : Obstack) (length : ℕ) : Obstack :=
  let objSize := h.nextFree - h.objectBase
  let size := newSize u h length
  let base := f.base h size
  let objectBase := u.start base
  let mem := copyObject u.alignmentMask (allocate f h size) objectBase h.objectBase objSize
  -- the old chunk is released if the object was the only data in it
  let prev :=
    if ¬ h.maybeEmptyObject ∧ h.objectBase = u.start h.chunk.base then h.prev
    else h.chunk :: h.prev
  { chunk := ⟨base, base + size⟩
    prev := prev
    objectBase := objectBase
    nextFree := objectBase + objSize
    chunkLimit := base + size
    maybeEmptyObject := false
    mem := mem }

def grow (u : Setup) (f : Chunkfun) (h : Obstack) (bytes : List UInt8) : Obstack :=
  let h := if h.nextFree + bytes.length > h.chunkLimit then newchunk u f h bytes.length else h
  { h with mem := write h.mem h.nextFree bytes, nextFree := h.nextFree + bytes.length }

def grow1 (u : Setup) (f : Chunkfun) (h : Obstack) (datum : UInt8) : Obstack :=
  let h := if h.nextFree + 1 > h.chunkLimit then newchunk u f h 1 else h
  { h with mem := write h.mem h.nextFree [datum], nextFree := h.nextFree + 1 }

def blank (u : Setup) (f : Chunkfun) (h : Obstack) (length : ℕ) : Obstack :=
  let h := if (h.chunkLimit : ℤ) - h.nextFree < length then newchunk u f h length else h
  { h with nextFree := h.nextFree + length }

def finish (u : Setup) (h : Obstack) : Obstack × ℕ :=
  let value := h.objectBase
  let maybeEmptyObject := h.maybeEmptyObject || decide (h.nextFree = value)
  let nextFree := ptrAlign h.nextFree u.alignmentMask
  let nextFree :=
    if nextFree - h.chunk.base > h.chunkLimit - h.chunk.base then h.chunkLimit else nextFree
  ({ h with maybeEmptyObject, nextFree, objectBase := nextFree }, value)

/-- The loop of the function `obstack_free`: chunks are released until one may
hold the object. -/
def release (obj : ℕ) : List Chunk → Bool → List Chunk × Bool
  | [], maybeEmptyObject => ([], maybeEmptyObject)
  | lp :: plp, maybeEmptyObject =>
    if lp.base ≥ obj ∨ lp.limit < obj then release obj plp true
    else (lp :: plp, maybeEmptyObject)

/-- The function `obstack_free` of an object that is not null; it aborts if no
chunk is left. -/
def freeFunction (h : Obstack) (obj : ℕ) : Option Obstack :=
  match release obj h.chunks h.maybeEmptyObject with
  | ([], _) => none
  | (lp :: plp, maybeEmptyObject) =>
    some { h with
      chunk := lp
      prev := plp
      objectBase := obj
      nextFree := obj
      chunkLimit := lp.limit
      maybeEmptyObject := maybeEmptyObject }

def free (h : Obstack) (obj : ℕ) : Option Obstack :=
  if obj > h.chunk.base ∧ obj < h.chunkLimit then
    some { h with nextFree := obj, objectBase := obj }
  else freeFunction h obj

/-! ## Runs -/

structure Object where
  addr : ℕ
  bytes : List UInt8

/-- The obstack, the live objects from the newest to the oldest, and the bytes
added to the object being built. -/
structure State where
  obstack : Obstack
  live : List Object
  building : List UInt8

inductive Op
  | grow (bytes : List UInt8)
  | grow1 (datum : UInt8)
  | blank (length : ℕ)
  | finish
  /-- Frees a live object, counted from the newest one. -/
  | free (index : ℕ)

def State.perform (u : Setup) (f : Chunkfun) (s : State) : Op → Option State
  | .grow bytes => some { s with
      obstack := Obstacks.grow u f s.obstack bytes, building := s.building ++ bytes }
  | .grow1 datum => some { s with
      obstack := Obstacks.grow1 u f s.obstack datum, building := s.building ++ [datum] }
  | .blank length =>
    let h := Obstacks.blank u f s.obstack length
    some { s with
      obstack := h, building := s.building ++ read h.mem (h.nextFree - length) length }
  | .finish =>
    let (h, value) := Obstacks.finish u s.obstack
    some ⟨h, ⟨value, s.building⟩ :: s.live, []⟩
  | .free index =>
    match s.live.drop index with
    | [] => some s
    | obj :: older => (Obstacks.free s.obstack obj.addr).map fun h => ⟨h, older, []⟩

def State.start (u : Setup) (first : First) : State := ⟨begin u first, [], []⟩

/-! ## What holds in every state -/

def Object.stop (x : Object) : ℕ := x.addr + x.bytes.length

/-- The objects, from the newest to the oldest, lie between two addresses and one
below the other. -/
def Packed (lo : ℕ) : ℕ → List Object → Prop
  | hi, [] => lo ≤ hi
  | hi, x :: xs => x.stop ≤ hi ∧ Packed lo x.addr xs

structure Held where
  chunk : Chunk
  objects : List Object

def Stacked (u : Setup) (held : List Held) : Prop :=
  ∀ x ∈ held, Packed (u.start x.chunk.base) x.chunk.limit x.objects

def Disjoint (c d : Chunk) : Prop := c.limit ≤ d.base ∨ d.limit ≤ c.base

/-- The live objects lie packed in the chunks, those of the chunk in use below the object
being built; the flag is set if one of them may be empty; every object has its bytes. -/
structure Inv (u : Setup) (s : State) (top : List Object) (below : List Held) : Prop where
  live : s.live = top ++ below.flatMap Held.objects
  prev : s.obstack.prev = below.map Held.chunk
  limit : s.obstack.chunkLimit = s.obstack.chunk.limit
  next : s.obstack.nextFree = s.obstack.objectBase + s.building.length
  room : s.obstack.nextFree ≤ s.obstack.chunk.limit
  packed : Packed (u.start s.obstack.chunk.base) s.obstack.objectBase top
  stacked : Stacked u below
  disjoint : s.obstack.chunks.Pairwise Disjoint
  flagged : s.obstack.maybeEmptyObject = false → ∀ x ∈ top, x.bytes ≠ []
  bytes : ∀ x ∈ s.live, read s.obstack.mem x.addr x.bytes.length = x.bytes
  built : read s.obstack.mem s.obstack.objectBase s.building.length = s.building

/-! ## Alignment and packing -/

lemma le_ptrAlign (p mask : ℕ) : p ≤ ptrAlign p mask := by
  have hdiv := Nat.div_add_mod (p + mask) (mask + 1)
  have hmod : (p + mask) % (mask + 1) < mask + 1 := Nat.mod_lt _ (by omega)
  rw [Nat.mul_comm] at hdiv
  unfold ptrAlign
  omega

lemma ptrAlign_le (p mask : ℕ) : ptrAlign p mask ≤ p + mask := Nat.div_mul_le_self _ _

lemma Setup.lt_start (u : Setup) (base : ℕ) : base < u.start base := by
  have := le_ptrAlign (base + u.header) u.alignmentMask
  have := u.header_pos
  unfold Setup.start
  omega

lemma Setup.start_le (u : Setup) (base : ℕ) : u.start base ≤ base + 100 + u.alignmentMask := by
  have := ptrAlign_le (base + u.header) u.alignmentMask
  have := u.header_le
  unfold Setup.start
  omega

section
variable {lo hi : ℕ} {xs ys : List Object} {x : Object}

lemma Packed.le (h : Packed lo hi xs) : lo ≤ hi := by
  induction xs generalizing hi with
  | nil => exact h
  | cons x xs ih =>
    have hrest := ih h.2
    have hstop := h.1
    unfold Object.stop at hstop
    omega

lemma Packed.mono (h : Packed lo hi xs) (hle : hi ≤ hi') : Packed lo hi' xs := by
  cases xs with
  | nil => exact Nat.le_trans h hle
  | cons x xs => exact ⟨Nat.le_trans h.1 hle, h.2⟩

lemma Packed.mem (h : Packed lo hi xs) (hx : x ∈ xs) : lo ≤ x.addr ∧ x.stop ≤ hi := by
  induction xs generalizing hi with
  | nil => cases hx
  | cons y xs ih =>
    obtain rfl | hx := List.mem_cons.mp hx
    · exact ⟨h.2.le, h.1⟩
    obtain ⟨hlo, hhi⟩ := ih h.2 hx
    have hstop := h.1
    unfold Object.stop at hstop
    exact ⟨hlo, by omega⟩

lemma Packed.older (h : Packed lo hi (xs ++ x :: ys)) : Packed lo x.addr ys := by
  induction xs generalizing hi with
  | nil => exact h.2
  | cons y xs ih => exact ih h.2

lemma Packed.pairwise (h : Packed lo hi xs) : xs.Pairwise fun newer older => older.stop ≤ newer.addr := by
  induction xs generalizing hi with
  | nil => exact .nil
  | cons x xs ih =>
    rw [List.pairwise_cons]
    exact ⟨fun y hy => (h.2.mem hy).2, ih h.2⟩

lemma Packed.eq_nil (h : Packed lo lo xs) (hne : ∀ x ∈ xs, x.bytes ≠ []) : xs = [] := by
  cases xs with
  | nil => rfl
  | cons x xs =>
    have hpos := List.length_pos_of_ne_nil (hne x List.mem_cons_self)
    obtain ⟨hlo, hhi⟩ := h.mem List.mem_cons_self
    unfold Object.stop at hhi
    omega

end

/-! ## Where the live objects are -/

section
variable {u : Setup} {f : Chunkfun} {s : State} {top : List Object} {below : List Held}

lemma Inv.base_lt (h : Inv u s top below) : s.obstack.chunk.base < s.obstack.objectBase :=
  (u.lt_start _).trans_le h.packed.le

lemma Inv.inside (h : Inv u s top below) (hx : x ∈ s.live) :
    ∃ c ∈ s.obstack.chunks, u.start c.base ≤ x.addr ∧ x.stop ≤ c.limit := by
  rw [h.live] at hx
  obtain hx | hx := List.mem_append.mp hx
  · obtain ⟨hlo, hhi⟩ := h.packed.mem hx
    have hroom := h.room
    rw [h.next] at hroom
    exact ⟨s.obstack.chunk, List.mem_cons_self, hlo, by omega⟩
  obtain ⟨held, hheld, hx⟩ := List.mem_flatMap.mp hx
  obtain ⟨hlo, hhi⟩ := (h.stacked held hheld).mem hx
  refine ⟨held.chunk, List.mem_cons_of_mem _ ?_, hlo, hhi⟩
  rw [h.prev]
  exact List.mem_map_of_mem hheld

lemma Inv.outside (h : Inv u s top below) (hx : x ∈ s.live) :
    x.stop ≤ s.obstack.objectBase ∨ s.obstack.chunk.limit ≤ x.addr := by
  rw [h.live] at hx
  obtain hx | hx := List.mem_append.mp hx
  · exact .inl (h.packed.mem hx).2
  obtain ⟨held, hheld, hx⟩ := List.mem_flatMap.mp hx
  obtain ⟨hlo, hhi⟩ := (h.stacked held hheld).mem hx
  have hmem : held.chunk ∈ s.obstack.prev := by
    rw [h.prev]
    exact List.mem_map_of_mem hheld
  have hbase := h.base_lt
  have hstart := u.lt_start held.chunk.base
  obtain hd | hd := (List.pairwise_cons.mp h.disjoint).1 _ hmem
  · right
    omega
  · left
    omega

lemma passed_over (hd : Disjoint c d) (hlo : u.start d.base ≤ addr)
    (hhi : addr ≤ d.limit) : c.base ≥ addr ∨ c.limit < addr := by
  have hstart := u.lt_start d.base
  obtain hd | hd := hd
  · right
    omega
  · left
    omega

/-! ## A new chunk -/

lemma copyObject_eq (mask : ℕ) (mem : ℕ → UInt8) (hdisjoint : src + n ≤ dst ∨ dst + n ≤ src) :
    copyObject mask mem dst src n = copy mem dst src n := by
  unfold copyObject
  generalize hunits : (if mask + 1 ≥ defaultAlignment then n / copyingUnit else 0) = units
  have hle : units * copyingUnit ≤ n := by
    rw [← hunits]
    split_ifs
    · exact Nat.div_mul_le_self _ _
    · omega
  have hunitIn : ∀ k ∈ (List.range units).reverse.map (· * copyingUnit), k + copyingUnit ≤ n := by
    intro k hk
    obtain ⟨i, hi, rfl⟩ := List.mem_map.mp hk
    have := List.mem_range.mp (List.mem_reverse.mp hi)
    unfold copyingUnit at hle ⊢
    omega
  have hbyteIn : ∀ k ∈ List.range' (units * copyingUnit) (n - units * copyingUnit), k + 1 ≤ n := by
    intro k hk
    have := List.mem_range'_1.mp hk
    omega
  rw [foldl_copy hdisjoint _ hbyteIn, foldl_copy hdisjoint _ hunitIn]
  funext i
  by_cases hi : dst ≤ i ∧ i < dst + n
  · obtain ⟨hlo, hhi⟩ := hi
    have hsrc : ¬ (dst ≤ src + (i - dst) ∧ src + (i - dst) < dst + n) := by omega
    have hsame : ∀ P : Prop, ¬ (dst ≤ src + (i - dst) ∧ src + (i - dst) < dst + n ∧ P) :=
      fun P h => hsrc ⟨h.1, h.2.1⟩
    rw [copy_of_mem hlo hhi]
    by_cases hunit : i - dst < units * copyingUnit
    · have hcover : ∃ k ∈ (List.range units).reverse.map (· * copyingUnit),
          k ≤ i - dst ∧ i - dst < k + copyingUnit := by
        refine ⟨(i - dst) / copyingUnit * copyingUnit, ?_, Nat.div_mul_le_self _ _, ?_⟩
        · apply List.mem_map_of_mem
          rw [List.mem_reverse, List.mem_range]
          exact Nat.div_lt_of_lt_mul (by rwa [Nat.mul_comm])
        · unfold copyingUnit
          omega
      simp only [if_pos (⟨hlo, hhi, hcover⟩ : dst ≤ i ∧ i < dst + n ∧ _), if_neg (hsame _)]
      split_ifs <;> rfl
    have hcover : ∃ k ∈ List.range' (units * copyingUnit) (n - units * copyingUnit),
        k ≤ i - dst ∧ i - dst < k + 1 :=
      ⟨i - dst, List.mem_range'_1.mpr (by omega), le_rfl, by omega⟩
    simp only [if_pos (⟨hlo, hhi, hcover⟩ : dst ≤ i ∧ i < dst + n ∧ _), if_neg (hsame _)]
  have hout : ∀ P : Prop, ¬ (dst ≤ i ∧ i < dst + n ∧ P) := fun P h => hi ⟨h.1, h.2.1⟩
  simp only [if_neg (hout _)]
  by_cases hlt : i < dst
  · rw [copy_of_lt hlt]
  · rw [copy_of_ge (by omega)]

end

end Eglibc.Obstacks
