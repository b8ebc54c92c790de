import Eglibc.BlockArray

/-!
# Three-level tables under construction

The working representation of `locale/programs/3level.h`: a wide character is cut into
three parts, the lowest of `p` bits and the middle one of `q` bits.
-/
namespace Eglibc.ThreeLevel
open Checked BlockArray

variable {v x b a : ℕ} {l : Level}

/-- The two instances of the header: widths are bytes, mappings are 32-bit differences. -/
inductive Kind where
  | width
  | mapping
  deriving DecidableEq, Repr

/-- `sizeof (ELEMENT)` -/
def Kind.size : Kind → ℕ
  | .width => 1
  | .mapping => 4

def Kind.default : Kind → ℕ
  | .width => 0xff
  | .mapping => 0

def EMPTY : ℕ := 2 ^ 32 - 1

def u32 (x : ℕ) : ℕ := x % 2 ^ 32

structure Table where
  p : ℕ
  q : ℕ
  level1 : Level
  level2 : Level
  level3 : Level

/-- `TABLE_init`; the arguments `m1`, `m2`, `m3` are what memory holds before it is written. -/
def init (p q : ℕ) (m1 m2 m3 : ℕ → ℕ) : Table :=
  ⟨p, q, ⟨0, 0, m1⟩, ⟨0, 0, m2⟩, ⟨0, 0, m3⟩⟩

namespace Table

def index1 (t : Table) (wc : ℕ) : ℕ := wc >>> (t.q + t.p)

def index2 (t : Table) (wc : ℕ) : ℕ := (wc >>> t.p) &&& ((1 <<< t.q) - 1)

def index3 (t : Table) (wc : ℕ) : ℕ := wc &&& ((1 <<< t.p) - 1)

def get (k : Kind) (t : Table) (wc : ℕ) : Run ℕ :=
  if t.index1 wc < t.level1.size then do
    let lookup1 ← t.level1.fetch 0 (t.index1 wc)
    if lookup1 ≠ EMPTY then do
      let lookup2 ← t.level2.fetch t.q (u32 (t.index2 wc + u32 (lookup1 <<< t.q)))
      if lookup2 ≠ EMPTY then
        t.level3.fetch t.p (u32 (t.index3 wc + u32 (lookup2 <<< t.p)))
      else .ok k.default
    else .ok k.default
  else .ok k.default

/-- The allocation of the first level for an index behind its end. The index is a
`uint32_t`, and so is the sum. -/
def alloc1 (l : Level) (index1 : ℕ) : Level :=
  if index1 ≥ l.alloc then
    { l with alloc := if 2 * l.alloc ≤ index1 then u32 (index1 + 1) else 2 * l.alloc }
  else l

def cover (l : Level) (index1 : ℕ) : Run Level :=
  if index1 ≥ l.size then do
    let l' ← Level.fill 0 EMPTY (index1 + 1 - l.size) l.size (alloc1 l index1)
    .ok { l' with size := index1 + 1 }
  else .ok l

def newBlock (l : Level) (s v : ℕ) : Run Level := do
  let l := if l.size = l.alloc then { l with alloc := 2 * l.alloc + 1 } else l
  let l ← Level.fill s v (((l.size + 1) <<< s) - (l.size <<< s)) (l.size <<< s) l
  .ok { l with size := l.size + 1 }

def require2 (t : Table) (index1 : ℕ) : Run Table := do
  let lookup1 ← t.level1.fetch 0 index1
  if lookup1 = EMPTY then do
    let level2 ← newBlock t.level2 t.q EMPTY
    let level1 ← t.level1.put 0 index1 (u32 t.level2.size)
    .ok { t with level1 := level1, level2 := level2 }
  else .ok t

def require3 (k : Kind) (t : Table) (index2 : ℕ) : Run Table := do
  let lookup2 ← t.level2.fetch t.q index2
  if lookup2 = EMPTY then do
    let level3 ← newBlock t.level3 t.p k.default
    let level2 ← t.level2.put t.q index2 (u32 t.level3.size)
    .ok { t with level2 := level2, level3 := level3 }
  else .ok t

/-- The part of `TABLE_add` behind the comparison with the element that is there. -/
def enter (k : Kind) (t : Table) (wc value : ℕ) : Run Table := do
  let level1 ← cover t.level1 (t.index1 wc)
  let t ← require2 { t with level1 := level1 } (t.index1 wc)
  let lookup1 ← t.level1.fetch 0 (t.index1 wc)
  let index2 := u32 (t.index2 wc + u32 (lookup1 <<< t.q))
  let t ← require3 k t index2
  let lookup2 ← t.level2.fetch t.q index2
  let index3 := u32 (t.index3 wc + u32 (lookup2 <<< t.p))
  let level3 ← t.level3.put t.p index3 value
  .ok { t with level3 := level3 }

def add (k : Kind) (t : Table) (wc value : ℕ) : Run Table := do
  let old ← t.get k wc
  if value = old then .ok t else t.enter k wc value

def addAll (k : Kind) : List (ℕ × ℕ) → Table → Run Table
  | [], t => .ok t
  | (wc, value) :: adds, t => do
    let t ← t.add k wc value
    addAll k adds t

end Table

/-! ## What a table stands for -/

def entry (v : ℕ) : Option ℕ := if v = EMPTY then none else some v

def slot (l : Level) (a : ℕ) : Option ℕ := if a < l.size then entry (l.cells a) else none

namespace Table

def block2 (t : Table) (a : ℕ) : Option ℕ := slot t.level1 a

/-- The block of the third level for all but the lowest `p` bits. -/
def block3 (t : Table) (h : ℕ) : Option ℕ :=
  (t.block2 (h / 2 ^ t.q)).bind fun x => entry (t.level2.cell t.q x (h % 2 ^ t.q))

def value (k : Kind) (t : Table) (wc : ℕ) : ℕ :=
  match t.block3 (wc / 2 ^ t.p) with
  | some y => t.level3.cell t.p y (wc % 2 ^ t.p)
  | none => k.default

structure WellFormed (t : Table) : Prop where
  bits : t.p + t.q ≤ 32
  room1 : t.level1.size ≤ t.level1.alloc
  room2 : t.level2.size ≤ t.level2.alloc
  room3 : t.level3.size ≤ t.level3.alloc
  blocks2 : Numbered t.block2 t.level2.size (2 ^ (32 - t.p - t.q))
  blocks3 : Numbered t.block3 t.level3.size (2 ^ (32 - t.p))

end Table

@[simp] lemma entry_empty : entry EMPTY = none := if_pos rfl

lemma entry_of_ne (h : v ≠ EMPTY) : entry v = some v := if_neg h

lemma index_eq (hx : x < 2 ^ n) (hb : b < 2 ^ s) (hn : n + s ≤ 32) :
    u32 (b + u32 (x <<< s)) = x * 2 ^ s + b := by
  have hlt : x * 2 ^ s + b < 2 ^ 32 :=
    calc x * 2 ^ s + b < 2 ^ n * 2 ^ s := Level.cell_lt hx hb
      _ = 2 ^ (n + s) := (Nat.pow_add 2 n s).symm
      _ ≤ 2 ^ 32 := Nat.pow_le_pow_right (by decide) hn
  have hx32 : x * 2 ^ s < 2 ^ 32 := Nat.lt_of_le_of_lt (Nat.le_add_right _ _) hlt
  rw [Nat.shiftLeft_eq, u32, u32, Nat.mod_eq_of_lt hx32, Nat.add_comm, Nat.mod_eq_of_lt hlt]

namespace Table

variable {k : Kind} {t : Table} {wc v : ℕ}

lemma index1_eq (t : Table) (wc : ℕ) : t.index1 wc = wc / 2 ^ t.p / 2 ^ t.q := by
  rw [index1, Nat.shiftRight_eq_div_pow, Nat.div_div_eq_div_mul, ← Nat.pow_add, Nat.add_comm]

lemma index2_eq (t : Table) (wc : ℕ) : t.index2 wc = wc / 2 ^ t.p % 2 ^ t.q := by
  rw [index2, Nat.one_shiftLeft, Nat.and_two_pow_sub_one_eq_mod, Nat.shiftRight_eq_div_pow]

lemma index3_eq (t : Table) (wc : ℕ) : t.index3 wc = wc % 2 ^ t.p := by
  rw [index3, Nat.one_shiftLeft, Nat.and_two_pow_sub_one_eq_mod]

lemma fetch1 (h : a < l.alloc) : l.fetch 0 a = .ok (l.cells a) := by
  have := Level.fetch_cell (s := 0) h (Nat.one_pos)
  simpa [Level.cell] using this

lemma put1 (h : a < l.alloc) :
    l.put 0 a v = .ok { l with cells := Function.update l.cells a v } := by
  have := Level.put_cell (v := v) (s := 0) h (Nat.one_pos)
  simpa using this

section
variable (ht : t.WellFormed)
include ht

lemma WellFormed.index2 (wc : ℕ) (hx : t.block2 a = some x) :
    x < t.level2.alloc ∧ u32 (t.index2 wc + u32 (x <<< t.q)) = x * 2 ^ t.q + t.index2 wc := by
  have hlt := (ht.blocks2.lt hx).2
  have hbits := ht.bits
  refine ⟨hlt.trans_le ht.room2, index_eq (hlt.trans_le ht.blocks2.size_le) ?_ (by omega)⟩
  rw [index2_eq]
  exact Nat.mod_lt _ (Nat.two_pow_pos _)

lemma WellFormed.index3 (wc : ℕ) (hy : t.block3 h = some y) :
    y < t.level3.alloc ∧ u32 (t.index3 wc + u32 (y <<< t.p)) = y * 2 ^ t.p + t.index3 wc := by
  have hlt := (ht.blocks3.lt hy).2
  have hbits := ht.bits
  refine ⟨hlt.trans_le ht.room3, index_eq (hlt.trans_le ht.blocks3.size_le) ?_ (by omega)⟩
  rw [index3_eq]
  exact Nat.mod_lt _ (Nat.two_pow_pos _)

lemma get_eq (k : Kind) (wc : ℕ) : t.get k wc = .ok (t.value k wc) := by
  have hb : t.index2 wc < 2 ^ t.q := index2_eq t wc ▸ Nat.mod_lt _ (Nat.two_pow_pos _)
  have hc : t.index3 wc < 2 ^ t.p := index3_eq t wc ▸ Nat.mod_lt _ (Nat.two_pow_pos _)
  rw [value, block3, ← index1_eq, ← index2_eq, ← index3_eq, get]
  by_cases h1 : t.index1 wc < t.level1.size
  · rw [if_pos h1, fetch1 (h1.trans_le ht.room1), ok_bind]
    by_cases he : t.level1.cells (t.index1 wc) = EMPTY
    · have hnone : t.block2 (t.index1 wc) = none := by rw [block2, slot, if_pos h1, he, entry_empty]
      rw [if_neg (not_not.mpr he), hnone]
      rfl
    have hx : t.block2 (t.index1 wc) = some (t.level1.cells (t.index1 wc)) := by
      rw [block2, slot, if_pos h1, entry_of_ne he]
    obtain ⟨hroom, hidx⟩ := ht.index2 wc hx
    rw [if_pos he, hidx, Level.fetch_cell hroom hb, ok_bind, hx, Option.bind_some]
    by_cases he2 : t.level2.cell t.q (t.level1.cells (t.index1 wc)) (t.index2 wc) = EMPTY
    · rw [if_neg (not_not.mpr he2), he2, entry_empty]
    have hy : t.block3 (wc / 2 ^ t.p) =
        some (t.level2.cell t.q (t.level1.cells (t.index1 wc)) (t.index2 wc)) := by
      simp [block3, ← index1_eq, ← index2_eq, hx, entry_of_ne he2]
    obtain ⟨hroom3, hidx3⟩ := ht.index3 wc hy
    rw [if_pos he2, hidx3, Level.fetch_cell hroom3 hc, entry_of_ne he2]
  · have hnone : t.block2 (t.index1 wc) = none := by rw [block2, slot, if_neg h1]
    rw [if_neg h1, hnone]
    rfl

/-! ## Adding an element -/

omit ht in
lemma cover_returns (hroom : l.size ≤ l.alloc) (hlast : a + 1 < 2 ^ 32) :
    Returns (cover l a) fun l' => a < l'.size ∧ l'.size ≤ l'.alloc ∧ slot l' = slot l := by
  unfold cover
  split_ifs with ha
  · have halloc : a + 1 ≤ (alloc1 l a).alloc ∧ (alloc1 l a).cells = l.cells := by
      rw [alloc1, u32, Nat.mod_eq_of_lt hlast]
      split_ifs <;> exact ⟨by first | omega | (dsimp only; omega), rfl⟩
    rw [Level.fill_eq (by omega), ok_bind]
    refine returns_ok ⟨Nat.lt_succ_self a, halloc.1, ?_⟩
    funext b
    dsimp only [slot]
    rw [halloc.2]
    by_cases hb : b < l.size
    · rw [if_pos (by omega), if_pos hb, if_neg (by omega)]
    · split_ifs <;> first | rfl | omega
  · exact returns_ok ⟨by omega, hroom, rfl⟩

omit ht in
lemma slot_update (ha : a < l.size) :
    slot { l with cells := Function.update l.cells a v } = Function.update (slot l) a (entry v) := by
  funext b
  dsimp only [slot]
  by_cases hb : b = a
  · subst hb
    simp [ha]
  · rw [Function.update_of_ne hb, Function.update_of_ne hb, slot]

omit ht in
lemma newBlock_returns (hroom : l.size ≤ l.alloc) (s v : ℕ) :
    Returns (newBlock l s v) fun l' => l'.size = l.size + 1 ∧ l'.size ≤ l'.alloc ∧
      ∀ x c, c < 2 ^ s → l'.cell s x c = if x = l.size then v else l.cell s x c := by
  unfold newBlock
  -- the allocation does not touch the cells
  obtain ⟨m, hm, hsize, hcells, halloc⟩ : ∃ m : Level,
      (if l.size = l.alloc then { l with alloc := 2 * l.alloc + 1 } else l) = m ∧
      m.size = l.size ∧ m.cells = l.cells ∧ l.size + 1 ≤ m.alloc := by
    split_ifs with h
    · exact ⟨_, rfl, rfl, rfl, by dsimp only; omega⟩
    · exact ⟨_, rfl, rfl, rfl, by omega⟩
  have hone : (l.size + 1) * 2 ^ s = l.size * 2 ^ s + 2 ^ s := by ring
  have hlen : (l.size + 1) * 2 ^ s - l.size * 2 ^ s = 2 ^ s := by
    simp [hone]
  dsimp only
  rw [hm, hsize, Nat.shiftLeft_eq, Nat.shiftLeft_eq, hlen,
    Level.fill_eq (hone ▸ Nat.mul_le_mul_right (2 ^ s) halloc), ok_bind]
  refine returns_ok ⟨by rw [hsize], by dsimp only; omega, ?_⟩
  intro x c hc
  dsimp only [Level.cell]
  rw [hcells]
  by_cases hx : x = l.size
  · subst hx
    rw [if_pos (by omega), if_pos rfl]
  rw [if_neg hx, if_neg]
  intro h
  have hin : x * 2 ^ s + c = l.size * 2 ^ s + (x * 2 ^ s + c - l.size * 2 ^ s) := by omega
  exact hx (Level.cell_inj hc (by omega) hin).1

/-- A table after one of the three steps of an addition: all elements are as before. -/
structure Keeps (k : Kind) (t t' : Table) : Prop where
  wellFormed : t'.WellFormed
  p : t'.p = t.p
  q : t'.q = t.q
  value : t'.value k = t.value k

omit ht in
lemma value_congr {t' : Table} (hp : t'.p = t.p) (h3 : t'.level3 = t.level3)
    (hb : t'.block3 = t.block3) : t'.value k = t.value k := by
  funext wc
  rw [value, value, hp, h3, hb]

lemma cover_keeps (k : Kind) (ha : a + 1 < 2 ^ 32) :
    Returns (cover t.level1 a) fun l => Keeps k t { t with level1 := l } ∧ a < l.size := by
  refine (cover_returns ht.room1 ha).mono fun l ⟨hlt, hroom, hslot⟩ => ?_
  have hb2 : block2 { t with level1 := l } = t.block2 := hslot
  have hb3 : block3 { t with level1 := l } = t.block3 := by
    funext h
    rw [block3, block3, hb2]
  refine ⟨⟨?_, rfl, rfl, value_congr rfl rfl hb3⟩, hlt⟩
  exact ⟨ht.bits, hroom, ht.room2, ht.room3, hb2 ▸ ht.blocks2, hb3 ▸ ht.blocks3⟩

omit ht in
lemma u32_of_lt (h : x < EMPTY) : u32 x = x :=
  Nat.mod_eq_of_lt (h.trans (by decide))

lemma require2_keeps (k : Kind) (ha : a < t.level1.size)
    (hbound : a < 2 ^ (32 - t.p - t.q)) (hsize : t.level2.size < EMPTY) :
    Returns (require2 t a) fun t' => Keeps k t t' ∧ a < t'.level1.size ∧
      t'.level2.size ≤ t.level2.size + 1 ∧ t'.level3.size = t.level3.size ∧
      ∃ x, t'.level1.cells a = x ∧ t'.block2 a = some x := by
  rw [require2, fetch1 (ha.trans_le ht.room1), ok_bind]
  split_ifs with hempty
  · obtain ⟨m, hm, hms, hroom, hcell⟩ := newBlock_returns ht.room2 t.q EMPTY
    rw [hm, ok_bind, put1 (ha.trans_le ht.room1), ok_bind, u32_of_lt hsize]
    have hnone : t.block2 a = none := by rw [block2, slot, if_pos ha, hempty, entry_empty]
    set t' : Table := { t with
      level1 := { t.level1 with cells := Function.update t.level1.cells a t.level2.size },
      level2 := m }
    have hb2 : t'.block2 = Function.update t.block2 a (some t.level2.size) := by
      rw [← entry_of_ne (Nat.ne_of_lt hsize)]
      exact slot_update ha
    have hb3 : t'.block3 = t.block3 := by
      funext h
      have hc : h % 2 ^ t.q < 2 ^ t.q := Nat.mod_lt _ (Nat.two_pow_pos _)
      rw [block3, block3, hb2, Function.update_apply]
      split_ifs with hh
      · rw [hh, hnone, Option.bind_some, hcell _ _ hc, if_pos rfl, entry_empty]
        rfl
      cases hx : t.block2 (h / 2 ^ t.q) with
      | none => rfl
      | some x =>
        have hne : x ≠ t.level2.size := Nat.ne_of_lt (ht.blocks2.lt hx).2
        rw [Option.bind_some, Option.bind_some, hcell _ _ hc, if_neg hne]
    refine returns_ok ⟨⟨?_, rfl, rfl, value_congr rfl rfl hb3⟩, ha, hms.le, rfl,
      t.level2.size, Function.update_self _ _ _, ?_⟩
    · refine ⟨ht.bits, ht.room1, hroom, ht.room3, ?_, hb3 ▸ ht.blocks3⟩
      rw [hb2]
      exact hms ▸ ht.blocks2.extend hbound hnone
    · simp [hb2]
  · refine returns_ok ⟨⟨ht, rfl, rfl, rfl⟩, ha, Nat.le_succ _, rfl, _, rfl, ?_⟩
    rw [block2, slot, if_pos ha, entry_of_ne hempty]

lemma block3_update (hx : t.block2 a = some x) (hb : b < 2 ^ t.q) (l3 : Level) : block3 { t with
      level2 := { t.level2 with cells := Function.update t.level2.cells (x * 2 ^ t.q + b) v },
      level3 := l3 }
      = Function.update t.block3 (a * 2 ^ t.q + b) (entry v) := by
  funext h
  have hc : h % 2 ^ t.q < 2 ^ t.q := Nat.mod_lt _ (Nat.two_pow_pos _)
  have hsplit : h / 2 ^ t.q * 2 ^ t.q + h % 2 ^ t.q = h := Nat.div_add_mod' h _
  rw [Function.update_apply, block3, block3]
  dsimp only [block2]
  by_cases hh : h = a * 2 ^ t.q + b
  · obtain ⟨ha, hb'⟩ := Level.cell_inj hc hb (hsplit.trans hh)
    rw [if_pos hh, ha, hb', ← block2, hx, Option.bind_some, Level.cell_update hb hb,
      if_pos ⟨rfl, rfl⟩]
  rw [if_neg hh]
  cases hy : slot t.level1 (h / 2 ^ t.q) with
  | none => rfl
  | some y =>
    rw [Option.bind_some, Option.bind_some, Level.cell_update hb hc, if_neg]
    rintro ⟨rfl, rfl⟩
    have ha : h / 2 ^ t.q = a := ht.blocks2.inj hy hx
    exact hh (by rw [← ha, hsplit])

lemma require3_keeps (k : Kind) (hx : t.block2 a = some x)
    (hb : b < 2 ^ t.q) (hbound : a * 2 ^ t.q + b < 2 ^ (32 - t.p)) (hsize : t.level3.size < EMPTY) :
    Returns (require3 k t (x * 2 ^ t.q + b)) fun t' => Keeps k t t' ∧
      t'.level2.size = t.level2.size ∧ t'.level3.size ≤ t.level3.size + 1 ∧
      ∃ y, t'.level2.cell t.q x b = y ∧ x < t'.level2.alloc ∧
        t'.block3 (a * 2 ^ t.q + b) = some y := by
  have hroom2 : x < t.level2.alloc := (ht.blocks2.lt hx).2.trans_le ht.room2
  have hdiv : (a * 2 ^ t.q + b) / 2 ^ t.q = a ∧ (a * 2 ^ t.q + b) % 2 ^ t.q = b :=
    Level.cell_inj (Nat.mod_lt _ (Nat.two_pow_pos _)) hb (Nat.div_add_mod' _ _)
  have hold : t.block3 (a * 2 ^ t.q + b) = entry (t.level2.cell t.q x b) := by
    simp [block3, hdiv.1, hdiv.2, hx]
  rw [require3, Level.fetch_cell hroom2 hb, ok_bind]
  split_ifs with hempty
  · obtain ⟨m, hm, hms, hroom, hcell⟩ := newBlock_returns ht.room3 t.p k.default
    rw [hm, ok_bind, Level.put_cell hroom2 hb, ok_bind, u32_of_lt hsize]
    have hnone : t.block3 (a * 2 ^ t.q + b) = none := by rw [hold, hempty, entry_empty]
    have hb3 := block3_update (v := t.level3.size) ht hx hb m
    rw [entry_of_ne (Nat.ne_of_lt hsize)] at hb3
    refine returns_ok ⟨⟨?_, rfl, rfl, ?_⟩, rfl, hms.le, t.level3.size, ?_, hroom2, ?_⟩
    · refine ⟨ht.bits, ht.room1, ht.room2, hroom, ht.blocks2, ?_⟩
      rw [hb3]
      exact hms ▸ ht.blocks3.extend hbound hnone
    · funext wc
      have hc : wc % 2 ^ t.p < 2 ^ t.p := Nat.mod_lt _ (Nat.two_pow_pos _)
      rw [value, value, hb3, Function.update_apply]
      split_ifs with hwc
      · rw [hwc, hnone]
        dsimp only
        rw [hcell _ _ hc, if_pos rfl]
      cases hy : t.block3 (wc / 2 ^ t.p) with
      | none => rfl
      | some y =>
        have hne : y ≠ t.level3.size := Nat.ne_of_lt (ht.blocks3.lt hy).2
        dsimp only
        rw [hcell _ _ hc, if_neg hne]
    · rw [Level.cell_update hb hb, if_pos ⟨rfl, rfl⟩]
    · simp [hb3]
  · refine returns_ok ⟨⟨ht, rfl, rfl, rfl⟩, rfl, Nat.le_succ _, _, rfl, hroom2, ?_⟩
    rw [hold, entry_of_ne hempty]

lemma value_update (hy : t.block3 (wc / 2 ^ t.p) = some y) : value k { t with level3 :=
      { t.level3 with cells := Function.update t.level3.cells (y * 2 ^ t.p + wc % 2 ^ t.p) v } }
      = Function.update (t.value k) wc v := by
  funext w
  have hc : ∀ u, u % 2 ^ t.p < 2 ^ t.p := fun u => Nat.mod_lt _ (Nat.two_pow_pos _)
  rw [Function.update_apply, value, value]
  change (match t.block3 (w / 2 ^ t.p) with | some y => _ | none => _) = ite _ _ _
  by_cases hw : w = wc
  · subst hw
    rw [if_pos rfl, hy]
    dsimp only
    rw [Level.cell_update (hc _) (hc _), if_pos ⟨rfl, rfl⟩]
  rw [if_neg hw]
  cases hz : t.block3 (w / 2 ^ t.p) with
  | none => rfl
  | some z =>
    dsimp only
    rw [Level.cell_update (hc _) (hc _), if_neg]
    rintro ⟨rfl, hmod⟩
    have hdiv : w / 2 ^ t.p = wc / 2 ^ t.p := ht.blocks3.inj hz hy
    exact hw (by rw [← Nat.div_add_mod' w (2 ^ t.p), hdiv, hmod, Nat.div_add_mod'])

lemma add_returns (k : Kind) (hwc : wc < 2 ^ 32)
    (hlast : v ≠ t.value k wc → t.index1 wc + 1 < 2 ^ 32) (h2 : t.level2.size < EMPTY)
    (h3 : t.level3.size < EMPTY) :
    Returns (t.add k wc v) fun t' => t'.WellFormed ∧ t'.p = t.p ∧ t'.q = t.q ∧
      t'.level2.size ≤ t.level2.size + 1 ∧ t'.level3.size ≤ t.level3.size + 1 ∧
      t'.value k = Function.update (t.value k) wc v := by
  rw [add, get_eq ht, ok_bind]
  split_ifs with hsame
  · refine returns_ok ⟨ht, rfl, rfl, Nat.le_succ _, Nat.le_succ _, ?_⟩
    simp [hsame]
  unfold enter
  -- the parts of the character are within the levels
  have hbits := ht.bits
  have hh : wc / 2 ^ t.p < 2 ^ (32 - t.p) := by
    apply Nat.div_lt_of_lt_mul
    rwa [← Nat.pow_add, Nat.add_sub_cancel' (by omega)]
  have ha : t.index1 wc < 2 ^ (32 - t.p - t.q) := by
    rw [index1_eq]
    apply Nat.div_lt_of_lt_mul
    rwa [← Nat.pow_add, Nat.add_sub_cancel' (by omega)]
  have hsplit : t.index1 wc * 2 ^ t.q + t.index2 wc = wc / 2 ^ t.p := by
    rw [index1_eq, index2_eq, Nat.div_add_mod']
  obtain ⟨l1, hl1, hk1, hcov⟩ := cover_keeps ht k (hlast hsame)
  rw [hl1, ok_bind]
  obtain ⟨t2, ht2, hk2, hcov2, hs2, hs3, x, hx, hbx⟩ := require2_keeps hk1.wellFormed k hcov ha h2
  have hp2 : t2.p = t.p := hk2.p
  have hq2 : t2.q = t.q := hk2.q
  have hi2 : t2.index2 wc = t.index2 wc := by rw [index2_eq, index2_eq, hp2, hq2]
  have hb : t2.index2 wc < 2 ^ t2.q := index2_eq t2 wc ▸ Nat.mod_lt _ (Nat.two_pow_pos _)
  obtain ⟨-, hidx2⟩ := hk2.wellFormed.index2 wc hbx
  rw [ht2, ok_bind, show t2.index1 wc = t.index1 wc by rw [index1_eq, index1_eq, hp2, hq2],
    fetch1 (hcov2.trans_le hk2.wellFormed.room1), ok_bind, hx]
  dsimp only
  rw [hidx2]
  obtain ⟨t3, ht3, hk3, hs2', hs3', y, hy, hroom, hby⟩ :=
    require3_keeps hk2.wellFormed k hbx hb (by rw [hq2, hi2, hsplit, hp2]; exact hh)
      (by rw [hs3]; exact h3)
  have hp3 : t3.p = t.p := hk3.p.trans hp2
  have hq3 : t3.q = t2.q := hk3.q
  rw [hq2, hi2, hsplit, ← hp3] at hby
  obtain ⟨hroom3, hidx3⟩ := hk3.wellFormed.index3 wc hby
  have hc : t3.index3 wc < 2 ^ t3.p := index3_eq t3 wc ▸ Nat.mod_lt _ (Nat.two_pow_pos _)
  have hfetch : t3.level2.fetch t3.q (x * 2 ^ t2.q + t2.index2 wc) = .ok y := by
    rw [hq3, Level.fetch_cell hroom hb, hy]
  rw [ht3, ok_bind, hfetch, ok_bind, hidx3, Level.put_cell hroom3 hc, ok_bind]
  have hvalue := value_update (k := k) (v := v) hk3.wellFormed hby
  rw [hk3.value, hk2.value, hk1.value] at hvalue
  have hw := hk3.wellFormed
  rw [index3_eq]
  refine returns_ok ⟨⟨hw.bits, hw.room1, hw.room2, hw.room3, hw.blocks2, hw.blocks3⟩, hp3,
    hq3.trans hq2, ?_, ?_, hvalue⟩
  · exact hs2'.le.trans hs2
  · exact hs3'.trans (Nat.add_le_add_right hs3.le 1)

end

def added (f : ℕ → ℕ) (adds : List (ℕ × ℕ)) : ℕ → ℕ :=
  adds.foldl (fun f e => Function.update f e.1 e.2) f

/-- Only a first level with an entry for every character has an index whose successor is
no `uint32_t`. -/
lemma index1_succ_lt (hwc : wc < 2 ^ 32) (h : t.p + t.q = 0 → wc ≠ 2 ^ 32 - 1) :
    t.index1 wc + 1 < 2 ^ 32 := by
  rw [index1, Nat.shiftRight_eq_div_pow]
  by_cases hbits : t.p + t.q = 0
  · have := h hbits
    rw [Nat.add_comm t.q, hbits]
    omega
  · have hhalf : wc / 2 ^ (t.q + t.p) ≤ wc / 2 ^ 1 :=
      Nat.div_le_div_left (Nat.pow_le_pow_right (by decide) (by omega)) (by decide)
    omega

lemma addAll_returns (k : Kind) (adds : List (ℕ × ℕ)) (t : Table) (ht : t.WellFormed)
    (hwc : ∀ e ∈ adds, e.1 < 2 ^ 32)
    (hlast : t.p + t.q = 0 → t.value k (2 ^ 32 - 1) = k.default ∧
      ∀ e ∈ adds, e.1 = 2 ^ 32 - 1 → e.2 = k.default) (h2 : t.level2.size ≤ n) (h3 : t.level3.size ≤ n)
    (hn : n + adds.length ≤ EMPTY) :
    Returns (addAll k adds t) fun t' => t'.WellFormed ∧ t'.p = t.p ∧ t'.q = t.q ∧
      t'.level2.size ≤ n + adds.length ∧ t'.level3.size ≤ n + adds.length ∧
      t'.value k = added (t.value k) adds := by
  induction adds generalizing t n with
  | nil => exact returns_ok ⟨ht, rfl, rfl, h2, h3, rfl⟩
  | cons e adds ih =>
    rw [List.length_cons] at hn ⊢
    have hsucc : e.2 ≠ t.value k e.1 → t.index1 e.1 + 1 < 2 ^ 32 := by
      intro hnew
      refine index1_succ_lt (hwc e List.mem_cons_self) fun hbits he => hnew ?_
      rw [(hlast hbits).2 e List.mem_cons_self he, he, (hlast hbits).1]
    obtain ⟨t1, ht1, hw, hp, hq, h2', h3', hv⟩ :=
      add_returns ht k (hwc e List.mem_cons_self) hsucc (by omega) (by omega)
    have hlast1 : t1.p + t1.q = 0 → t1.value k (2 ^ 32 - 1) = k.default ∧
        ∀ e ∈ adds, e.1 = 2 ^ 32 - 1 → e.2 = k.default := by
      intro hbits
      obtain ⟨hold, hall⟩ := hlast (by omega)
      refine ⟨?_, fun e he => hall e (List.mem_cons_of_mem _ he)⟩
      rw [hv, Function.update_apply]
      split_ifs with he
      · exact hall e List.mem_cons_self he.symm
      · exact hold
    rw [addAll, ht1, ok_bind]
    refine (ih t1 hw (fun e he => hwc e (List.mem_cons_of_mem _ he)) hlast1 (n := n + 1)
      (by omega) (by omega) (by omega)).mono ?_
    rintro t2 ⟨hw2, hp2, hq2, h22, h32, hv2⟩
    refine ⟨hw2, hp2.trans hp, hq2.trans hq, by omega, by omega, ?_⟩
    rw [hv2, hv]
    rfl

lemma init_wellFormed {p q : ℕ} (h : p + q ≤ 32) (m1 m2 m3 : ℕ → ℕ) :
    (init p q m1 m2 m3).WellFormed := by
  refine ⟨h, Nat.le_refl _, Nat.le_refl _, Nat.le_refl _, ?_, ?_⟩
  all_goals exact ⟨nofun, nofun, nofun⟩

end Table

end Eglibc.ThreeLevel
