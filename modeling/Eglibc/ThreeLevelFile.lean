import Eglibc.FileWords
import Eglibc.ThreeLevel

/-!
# Three-level tables in a locale file

`add_locale_TABLE` merges equal blocks of the third and of the second level, and writes the
table with byte offsets for block numbers. `wctype/wchar-lookup.h` reads these bytes.
-/
namespace Eglibc.ThreeLevel
open Checked BlockArray Endian Segments FileWords

/-- `memcmp` of two blocks. -/
def sameBlock (l : Level) (s i j : ℕ) : Run Bool := do
  ensure (i < l.alloc ∧ j < l.alloc)
  .ok ((List.range (1 <<< s)).all fun c => l.cells ((i <<< s) + c) == l.cells ((j <<< s) + c))

/-- `memcpy` of block `j` to block `i`. -/
def copyBlock (l : Level) (s i j : ℕ) : Run Level := do
  ensure (i < l.alloc ∧ j < l.alloc)
  .ok { l with cells := fun x =>
    if i <<< s ≤ x ∧ x < (i <<< s) + (1 <<< s) then l.cells ((j <<< s) + (x - (i <<< s)))
    else l.cells x }

/-- The first block from `i` on, among `n`, that is equal to block `j`; the end otherwise. -/
def firstEqual (l : Level) (s j : ℕ) : ℕ → ℕ → Run ℕ
  | 0, i => .ok i
  | n + 1, i => do
    if ← sameBlock l s i j then .ok i else firstEqual l s j n (i + 1)

/-- Block `j` is relocated to block `i`. -/
def relocate (l : Level) (s i j : ℕ) : Run Level := if i ≠ j then copyBlock l s i j else .ok l

def uniquify (s : ℕ) : ℕ → ℕ → ℕ → List ℕ → Level → Run (ℕ × List ℕ × Level)
  | 0, _, k, reorder, l => .ok (k, reorder, l)
  | n + 1, j, k, reorder, l => do
    let i ← firstEqual l s j k 0
    if i = k then do
      let l ← relocate l s i j
      uniquify s n (j + 1) (k + 1) (reorder ++ [u32 i]) l
    else uniquify s n (j + 1) k (reorder ++ [u32 i]) l

/-- `n` cells of the level above, from `i` on, are renumbered. -/
def renumber (s : ℕ) (reorder : List ℕ) : ℕ → ℕ → Level → Run Level
  | 0, _, l => .ok l
  | n + 1, i, l => do
    let v ← l.fetch s i
    if v ≠ EMPTY then do
      let r ← load reorder v
      let l ← l.put s i r
      renumber s reorder n (i + 1) l
    else renumber s reorder n (i + 1) l

def shrink (t : Table) : Run Table := do
  let (k3, reorder3, level3) ← uniquify t.p t.level3.size 0 0 [] t.level3
  let level2 ← renumber t.q reorder3 (t.level2.size <<< t.q) 0 t.level2
  let (k2, reorder2, level2) ← uniquify t.q t.level2.size 0 0 [] level2
  let level1 ← renumber 0 reorder2 t.level1.size 0 t.level1
  .ok { t with
    level1 := level1
    level2 := { level2 with size := k2 }
    level3 := { level3 with size := k3 } }

namespace Table

def level2Offset (t : Table) : ℕ := u32 (5 * 4 + t.level1.size * 4)

def level3Offset (t : Table) : ℕ := u32 (5 * 4 + t.level1.size * 4 + (t.level2.size <<< t.q) * 4)

def words (k : Kind) (t : Table) : List ℕ :=
  [t.q + t.p, t.level1.size, t.p, (1 <<< t.q) - 1, (1 <<< t.p) - 1]
  ++ (List.range t.level1.size).map (fun i =>
      if t.level1.cells i = EMPTY then 0
      else u32 (u32 (t.level1.cells i <<< t.q) * 4 + t.level2Offset))
  ++ (List.range (t.level2.size <<< t.q)).map fun i =>
      if t.level2.cells i = EMPTY then 0
      else u32 (u32 (t.level2.cells i <<< t.p) * k.size + t.level3Offset)

/-- The elements, as `add_locale_raw_data` and `add_locale_uint32_array` write them. -/
def elements (k : Kind) (big : Bool) (t : Table) : List UInt8 :=
  match k with
  | .width => (List.range (t.level3.size <<< t.p)).flatMap fun i => [UInt8.ofNat (t.level3.cells i)]
  | .mapping => (List.range (t.level3.size <<< t.p)).flatMap fun i => stored big 4 (t.level3.cells i)

/-- The second half of `add_locale_TABLE`; the table starts at a multiple of four bytes. -/
def serialize (k : Kind) (big : Bool) (t : Table) : List UInt8 :=
  let data := (t.words k).flatMap (stored big 4) ++ t.elements k big
  data ++ List.replicate ((4 - data.length % 4) % 4) 0

end Table

def addLocaleTable (k : Kind) (big : Bool) (t : Table) : Run (List UInt8) := do
  let t ← shrink t
  .ok (t.serialize k big)

/-- The two lookup functions differ in what they return at the end. -/
def tableLookup (big : Bool) (table : List UInt8) (wc : ℕ) (found : ℕ → ℕ → Run ℕ) (absent : ℕ) :
    Run ℕ := do
  let shift1 ← word big table (4 * 0)
  let index1 := wc >>> shift1
  let bound ← word big table (4 * 1)
  if index1 < bound then do
    let lookup1 ← word big table (4 * (5 + index1))
    if lookup1 ≠ 0 then do
      let shift2 ← word big table (4 * 2)
      let mask2 ← word big table (4 * 3)
      let index2 := (wc >>> shift2) &&& mask2
      let lookup2 ← word big table (lookup1 + 4 * index2)
      if lookup2 ≠ 0 then do
        let mask3 ← word big table (4 * 4)
        found lookup2 (wc &&& mask3)
      else .ok absent
    else .ok absent
  else .ok absent

def wcwidthTableLookup (big : Bool) (table : List UInt8) (wc : ℕ) : Run ℕ :=
  tableLookup big table wc (fun lookup2 index3 => do
    let lookup3 ← load table (lookup2 + index3)
    .ok lookup3.toNat) 0xff

def wctransTableLookup (big : Bool) (table : List UInt8) (wc : ℕ) : Run ℕ :=
  tableLookup big table wc (fun lookup2 index3 => do
    let lookup3 ← word big table (lookup2 + 4 * index3)
    .ok (u32 (wc + lookup3))) wc

/-! ## Merging blocks -/

section

variable {l : Level} {s i j n : ℕ}

lemma sameBlock_eq (hi : i < l.alloc) (hj : j < l.alloc) :
    sameBlock l s i j = .ok (decide (∀ c < 2 ^ s, l.cell s i c = l.cell s j c)) := by
  have hall : ((List.range (1 <<< s)).all fun c =>
      l.cells ((i <<< s) + c) == l.cells ((j <<< s) + c))
      = decide (∀ c < 2 ^ s, l.cell s i c = l.cell s j c) := by
    rw [Bool.eq_iff_iff, decide_eq_true_iff]
    simp [Level.cell, Nat.shiftLeft_eq]
  rw [sameBlock, ensure, if_pos ⟨hi, hj⟩, ok_bind, hall]

lemma firstEqual_returns (hj : j < l.alloc) (hn : i + n ≤ l.alloc) :
    Returns (firstEqual l s j n i) fun r => r ≤ i + n ∧
      (r < i + n → ∀ c < 2 ^ s, l.cell s r c = l.cell s j c) := by
  induction n generalizing i with
  | zero => exact returns_ok ⟨Nat.le_refl _, fun h => absurd h (Nat.lt_irrefl _)⟩
  | succ n ih =>
    rw [firstEqual, sameBlock_eq (by omega) hj, ok_bind]
    split_ifs with h
    · exact returns_ok ⟨by omega, fun _ => of_decide_eq_true h⟩
    · have hnext := ih (i := i + 1) (by omega)
      rwa [show i + 1 + n = i + (n + 1) by omega] at hnext

lemma relocate_returns (hi : i ≤ j) (hj : j < l.alloc) :
    Returns (relocate l s i j) fun l' => l'.alloc = l.alloc ∧
      ∀ x c, c < 2 ^ s → l'.cell s x c = if x = i then l.cell s j c else l.cell s x c := by
  unfold relocate
  split_ifs with hij
  · rw [copyBlock, ensure, if_pos ⟨hi.trans_lt hj, hj⟩, ok_bind]
    refine returns_ok ⟨rfl, ?_⟩
    intro x c hc
    dsimp only [Level.cell]
    simp only [Nat.shiftLeft_eq, Nat.one_mul]
    by_cases hx : x = i
    · subst hx
      rw [if_pos ⟨Nat.le_add_right _ _, by omega⟩, if_pos rfl, Nat.add_sub_cancel_left]
    rw [if_neg hx, if_neg]
    intro h
    have hin : x * 2 ^ s + c = i * 2 ^ s + (x * 2 ^ s + c - i * 2 ^ s) := by omega
    exact hx (Level.cell_inj hc (by omega) hin).1
  refine returns_ok ⟨rfl, ?_⟩
  intro x c _
  rw [not_not.mp hij]
  split_ifs with hx
  · rw [hx]
  · rfl

structure Merged (s : ℕ) (l₀ : Level) (j k : ℕ) (reorder : List ℕ) (l : Level) : Prop where
  alloc : l.alloc = l₀.alloc
  le : k ≤ j
  length : reorder.length = j
  rest : ∀ x c, j ≤ x → c < 2 ^ s → l.cell s x c = l₀.cell s x c
  moved : ∀ x < j, ∃ y < k, reorder[x]? = some y ∧ ∀ c < 2 ^ s, l.cell s y c = l₀.cell s x c

variable {l₀ : Level} {k : ℕ} {reorder : List ℕ}

lemma Merged.step (h : Merged s l₀ j k reorder l)
    (halloc : l'.alloc = l.alloc) (hk : k ≤ k') (hk' : k' ≤ j + 1) (hi : i < k')
    (hkeep : ∀ x c, x < k ∨ j < x → c < 2 ^ s → l'.cell s x c = l.cell s x c)
    (heq : ∀ c < 2 ^ s, l'.cell s i c = l.cell s j c) :
    Merged s l₀ (j + 1) k' (reorder ++ [i]) l' := by
  refine ⟨halloc.trans h.alloc, hk', by rw [List.length_append, h.length]; rfl, ?_, ?_⟩
  · intro x c hx hc
    rw [hkeep x c (.inr hx) hc, h.rest x c (by omega) hc]
  intro x hx
  obtain hx | rfl := Nat.lt_succ_iff_lt_or_eq.mp hx
  · obtain ⟨y, hy, hget, hcell⟩ := h.moved x hx
    refine ⟨y, hy.trans_le hk, ?_, fun c hc => ?_⟩
    · rw [List.getElem?_append_left (h.length ▸ hx), hget]
    · rw [hkeep y c (.inl hy) hc, hcell c hc]
  · refine ⟨i, hi, ?_, fun c hc => ?_⟩
    · simp [← h.length]
    · rw [heq c hc, h.rest x c (Nat.le_refl _) hc]

lemma uniquify_returns (h : Merged s l₀ j k reorder l) (hn : j + n ≤ l₀.alloc)
    (hsmall : j + n < 2 ^ 32) :
    Returns (uniquify s n j k reorder l) fun r => Merged s l₀ (j + n) r.1 r.2.1 r.2.2 := by
  induction n generalizing j k reorder l with
  | zero => exact returns_ok h
  | succ n ih =>
    have hk := h.le
    have hjl : j < l.alloc := by rw [h.alloc]; omega
    obtain ⟨i, hi, hle, heq⟩ := firstEqual_returns (s := s) (i := 0) (n := k) hjl (by omega)
    have hu : u32 i = i := Nat.mod_eq_of_lt (by omega)
    rw [uniquify, hi, ok_bind, hu, show j + (n + 1) = j + 1 + n by omega]
    split_ifs with hik
    · subst hik
      obtain ⟨l', hl', halloc, hcell⟩ := relocate_returns (s := s) hk hjl
      rw [hl', ok_bind]
      refine ih (h.step halloc (Nat.le_succ _) (by omega) (Nat.lt_succ_self _) ?_ ?_) (by omega)
        (by omega)
      · intro x c hx hc
        rw [hcell x c hc, if_neg (by omega)]
      · intro c hc
        rw [hcell _ c hc, if_pos rfl]
    · exact ih (h.step rfl (Nat.le_refl _) (by omega) (by omega) (fun _ _ _ _ => rfl)
        (heq (by omega))) (by omega) (by omega)

lemma merged_start (s : ℕ) (l : Level) : Merged s l 0 0 [] l :=
  ⟨rfl, Nat.le_refl _, rfl, fun _ _ _ _ => rfl, fun _ hx => absurd hx (Nat.not_lt_zero _)⟩

def renumbered (reorder : List ℕ) (v : ℕ) : ℕ := if v = EMPTY then EMPTY else reorder.getD v 0

/-- The level above, with `n` cells from `i` on renumbered. -/
def renumberedCells (reorder : List ℕ) (i n : ℕ) (cells : ℕ → ℕ) (j : ℕ) : ℕ :=
  if i ≤ j ∧ j < i + n then renumbered reorder (cells j) else cells j

lemma renumber_eq (hn : i + n ≤ l.alloc * 2 ^ s)
    (hcells : ∀ j, i ≤ j → j < i + n → l.cells j ≠ EMPTY → l.cells j < reorder.length) :
    renumber s reorder n i l = .ok { l with cells := renumberedCells reorder i n l.cells } := by
  induction n generalizing i l with
  | zero =>
    have hsame : renumberedCells reorder i 0 l.cells = l.cells := by
      funext j
      simp [renumberedCells]
    rw [renumber, hsame]
  | succ n ih =>
    have hroom : i < l.alloc <<< s := by omega
    -- the first cell is renumbered, the others by the induction
    have hsplit : ∀ cells : ℕ → ℕ, (∀ j, j ≠ i → cells j = l.cells j) →
        cells i = renumbered reorder (l.cells i) →
        renumberedCells reorder (i + 1) n cells = renumberedCells reorder i (n + 1) l.cells := by
      intro cells hne hi
      funext j
      rw [renumberedCells, renumberedCells]
      by_cases hj : j = i
      · simp [hj, hi]
      · rw [hne j hj]
        exact if_congr (by omega) rfl rfl
    rw [renumber, Level.fetch, ensure, if_pos hroom, ok_bind, ok_bind]
    by_cases he : l.cells i = EMPTY
    · rw [if_neg (not_not.mpr he), ih (by omega) fun j hj hj' => hcells j (by omega) (by omega),
        hsplit l.cells (fun _ _ => rfl) (by rw [renumbered, if_pos he, he])]
    have hload := load_eq 0 (hcells i (Nat.le_refl _) (by omega) he)
    rw [if_pos he, hload, ok_bind, Level.put, ensure, if_pos hroom, ok_bind, ok_bind,
      ih (by dsimp only; omega), hsplit]
    · intro j hj
      exact Function.update_of_ne hj _ _
    · rw [renumbered, if_neg he]
      exact Function.update_self _ _ _
    · intro j hj hj'
      dsimp only
      rw [Function.update_of_ne (by omega)]
      exact hcells j (by omega) (by omega)

lemma Merged.getD (h : Merged s l₀ j k reorder l) (hx : x < j) :
    reorder.getD x 0 < k ∧ ∀ c < 2 ^ s, l.cell s (reorder.getD x 0) c = l₀.cell s x c := by
  obtain ⟨y, hy, hget, hcell⟩ := h.moved x hx
  simpa [hget] using ⟨hy, hcell⟩

lemma entry_renumbered (h : v ≠ EMPTY → reorder.getD v 0 < EMPTY) :
    entry (renumbered reorder v) = (entry v).map fun x => reorder.getD x 0 := by
  by_cases hv : v = EMPTY
  · simp [renumbered, hv, entry_empty]
  · rw [renumbered, if_neg hv, entry_of_ne hv, entry_of_ne (Nat.ne_of_lt (h hv))]
    rfl

end

structure Final (t : Table) : Prop where
  blocks2 : ∀ {a x}, t.block2 a = some x → x < t.level2.size
  blocks3 : ∀ {h y}, t.block3 h = some y → y < t.level3.size

namespace Table

variable {t : Table}

lemma WellFormed.cell1_lt (ht : t.WellFormed) (ha : a < t.level1.size)
    (he : t.level1.cells a ≠ EMPTY) : t.level1.cells a < t.level2.size := by
  refine (ht.blocks2.lt (a := a) ?_).2
  rw [block2, slot, if_pos ha, entry_of_ne he]

lemma WellFormed.cell2_lt (ht : t.WellFormed) (hx : x < t.level2.size)
    (hb : b < 2 ^ t.q) (he : t.level2.cell t.q x b ≠ EMPTY) :
    t.level2.cell t.q x b < t.level3.size := by
  obtain ⟨a, ha⟩ := ht.blocks2.onto hx
  refine (ht.blocks3.lt (a := a * 2 ^ t.q + b) ?_).2
  obtain ⟨hdiv, hmod⟩ : (a * 2 ^ t.q + b) / 2 ^ t.q = a ∧ (a * 2 ^ t.q + b) % 2 ^ t.q = b :=
    Level.cell_inj (Nat.mod_lt _ (Nat.two_pow_pos _)) hb (Nat.div_add_mod' _ _)
  simp [block3, hdiv, hmod, ha, entry_of_ne he]

end Table

lemma shrink_returns (ht : t.WellFormed) (h2 : t.level2.size < EMPTY)
    (h3 : t.level3.size < EMPTY) (k : Kind) :
    Returns (shrink t) fun t' => Final t' ∧ t'.p = t.p ∧ t'.q = t.q ∧ t'.value k = t.value k := by
  have hempty : EMPTY < 2 ^ 32 := by decide
  unfold shrink
  obtain ⟨⟨k3, reorder3, m3⟩, hm3, hmerged3⟩ := uniquify_returns (n := t.level3.size)
    (merged_start t.p t.level3) (by rw [Nat.zero_add]; exact ht.room3) (by omega)
  rw [Nat.zero_add] at hmerged3
  have hcell2 : ∀ j, 0 ≤ j → j < 0 + t.level2.size <<< t.q → t.level2.cells j ≠ EMPTY →
      t.level2.cells j < reorder3.length := by
    intro j _ hj he
    rw [Nat.zero_add, Nat.shiftLeft_eq, Nat.mul_comm] at hj
    have hx : j / 2 ^ t.q < t.level2.size := Nat.div_lt_of_lt_mul hj
    have hcell : t.level2.cell t.q (j / 2 ^ t.q) (j % 2 ^ t.q) = t.level2.cells j := by
      rw [Level.cell, Nat.div_add_mod']
    rw [hmerged3.length, ← hcell]
    exact ht.cell2_lt hx (Nat.mod_lt _ (Nat.two_pow_pos _)) (hcell ▸ he)
  rw [hm3, ok_bind]
  dsimp only
  have hroom2 : 0 + t.level2.size <<< t.q ≤ t.level2.alloc * 2 ^ t.q := by
    rw [Nat.zero_add, Nat.shiftLeft_eq]
    exact Nat.mul_le_mul_right _ ht.room2
  rw [renumber_eq hroom2 hcell2, ok_bind]
  obtain ⟨⟨k2, reorder2, m2⟩, hm2, hmerged2⟩ := uniquify_returns (n := t.level2.size)
    (merged_start t.q { t.level2 with
      cells := renumberedCells reorder3 0 (t.level2.size <<< t.q) t.level2.cells })
    (by rw [Nat.zero_add]; exact ht.room2) (by omega)
  rw [Nat.zero_add] at hmerged2
  rw [hm2, ok_bind]
  rw [renumber_eq (by rw [Nat.zero_add, Nat.pow_zero, Nat.mul_one]; exact ht.room1), ok_bind]
  swap
  · intro a _ ha he
    rw [hmerged2.length]
    exact ht.cell1_lt (Nat.zero_add t.level1.size ▸ ha) he
  have hle3 := hmerged3.le
  have hle2 := hmerged2.le
  set t' : Table := { t with
    level1 := { t.level1 with
      cells := renumberedCells reorder2 0 t.level1.size t.level1.cells }
    level2 := { m2 with size := k2 }
    level3 := { m3 with size := k3 } }
  have hb2 : ∀ a, t'.block2 a = (t.block2 a).map fun x => reorder2.getD x 0 := by
    intro a
    dsimp only [t', Table.block2, slot]
    by_cases ha : a < t.level1.size
    · rw [if_pos ha, if_pos ha, renumberedCells, if_pos ⟨Nat.zero_le _, by omega⟩]
      refine entry_renumbered fun he => ?_
      exact (hmerged2.getD (ht.cell1_lt ha he)).1.trans_le (hle2.trans h2.le)
    · simp [ha]
  have hb3 : ∀ h, t'.block3 h = (t.block3 h).map fun y => reorder3.getD y 0 := by
    intro h
    have hb : h % 2 ^ t.q < 2 ^ t.q := Nat.mod_lt _ (Nat.two_pow_pos _)
    rw [Table.block3, Table.block3, hb2]
    change ((t.block2 (h / 2 ^ t.q)).map _).bind (fun x => entry (m2.cell t.q x (h % 2 ^ t.q))) = _
    cases hx : t.block2 (h / 2 ^ t.q) with
    | none => rfl
    | some x =>
      have hxlt := (ht.blocks2.lt hx).2
      rw [Option.map_some, Option.bind_some, Option.bind_some, (hmerged2.getD hxlt).2 _ hb,
        Level.cell]
      dsimp only
      rw [renumberedCells, if_pos]
      · refine entry_renumbered fun he => ?_
        exact (hmerged3.getD (ht.cell2_lt hxlt hb he)).1.trans_le (hle3.trans h3.le)
      · rw [Nat.zero_add, Nat.shiftLeft_eq]
        exact ⟨Nat.zero_le _, Level.cell_lt hxlt hb⟩
  refine returns_ok ⟨⟨?_, ?_⟩, rfl, rfl, ?_⟩
  · intro a x hx
    rw [hb2, Option.map_eq_some_iff] at hx
    obtain ⟨x0, hx0, rfl⟩ := hx
    exact (hmerged2.getD (ht.blocks2.lt hx0).2).1
  · intro h y hy
    rw [hb3, Option.map_eq_some_iff] at hy
    obtain ⟨y0, hy0, rfl⟩ := hy
    exact (hmerged3.getD (ht.blocks3.lt hy0).2).1
  · funext wc
    have hc : wc % 2 ^ t.p < 2 ^ t.p := Nat.mod_lt _ (Nat.two_pow_pos _)
    rw [Table.value, Table.value, hb3]
    cases hy : t.block3 (wc / 2 ^ t.p) with
    | none => rfl
    | some y => exact (hmerged3.getD (ht.blocks3.lt hy).2).2 _ hc

/-! ## Reading the table -/

namespace Table

variable {t : Table} {k : Kind} {big : Bool} {wc : ℕ}

lemma length_words (k : Kind) (t : Table) :
    (t.words k).length = 5 + t.level1.size + t.level2.size * 2 ^ t.q := by
  simp [words, Nat.shiftLeft_eq]
  omega

lemma length_elements (k : Kind) (big : Bool) (t : Table) :
    (t.elements k big).length = t.level3.size * 2 ^ t.p * k.size := by
  cases k
  · rw [elements, length_flatMap (k := 1) fun _ => rfl, List.length_range, Nat.shiftLeft_eq]
    rfl
  · rw [elements, length_flatMap (k := 4) fun _ => length_stored _ _ _, List.length_range,
      Nat.shiftLeft_eq]
    rfl

lemma serialize_holds (k : Kind) (big : Bool) (t : Table) :
    Holds (t.serialize k big) 0 ((t.words k).flatMap (stored big 4)) ∧
      Holds (t.serialize k big) (4 * (t.words k).length) (t.elements k big) := by
  have h := holds_self (t.serialize k big)
  nth_rewrite 2 [serialize] at h
  rw [holds_append, holds_append, length_flatMap (length_stored big 4)] at h
  exact ⟨h.1.1, by rw [Nat.mul_comm]; simpa using h.1.2⟩

lemma le_length_serialize (k : Kind) (big : Bool) (t : Table) :
    4 * (5 + t.level1.size + t.level2.size * 2 ^ t.q) + t.level3.size * 2 ^ t.p * k.size
      ≤ (t.serialize k big).length := by
  simp only [serialize, List.length_append, length_flatMap (length_stored big 4), length_words,
    length_elements]
  omega

lemma word_serialize (hv : (t.words k)[i]? = some v) (hlt : v < 2 ^ 32) :
    word big (t.serialize k big) (4 * i) = .ok v := by
  have h := word_of_array (serialize_holds k big t).1 hv
  rwa [Nat.zero_add, Nat.mod_eq_of_lt hlt] at h

def offset1 (t : Table) (a : ℕ) : ℕ :=
  match t.block2 a with
  | some x => 4 * (5 + t.level1.size + x * 2 ^ t.q)
  | none => 0

def offset2 (k : Kind) (t : Table) (h : ℕ) : ℕ :=
  match t.block3 h with
  | some y => 4 * (t.words k).length + y * 2 ^ t.p * k.size
  | none => 0

lemma words_level1 (ht : Final t) (hlen : (t.serialize k big).length < 2 ^ 32)
    (ha : a < t.level1.size) : (t.words k)[5 + a]? = some (t.offset1 a) ∧ t.offset1 a < 2 ^ 32 := by
  have hsize := le_length_serialize k big t
  have hget : (t.words k)[5 + a]? = some (if t.level1.cells a = EMPTY then 0
      else u32 (u32 (t.level1.cells a <<< t.q) * 4 + t.level2Offset)) := by
    simp [words, Nat.add_comm 5 a, List.getElem?_append, ha]
  have hb : t.block2 a = entry (t.level1.cells a) := by rw [block2, slot, if_pos ha]
  rw [hget, offset1, hb]
  by_cases he : t.level1.cells a = EMPTY
  · rw [if_pos he, he, entry_empty]
    exact ⟨rfl, Nat.two_pow_pos 32⟩
  have hx := ht.blocks2 (hb.trans (entry_of_ne he))
  have hmul := Nat.mul_le_mul_right (2 ^ t.q) hx.le
  rw [if_neg he, entry_of_ne he, level2Offset, Nat.shiftLeft_eq]
  dsimp only [u32]
  generalize t.level1.cells a * 2 ^ t.q = m at *
  generalize t.level2.size * 2 ^ t.q = m2 at *
  generalize t.level3.size * 2 ^ t.p * k.size = m3 at *
  refine ⟨congrArg some ?_, ?_⟩ <;> omega

lemma words_level2 (ht : Final t) (hlen : (t.serialize k big).length < 2 ^ 32)
    (hx : t.block2 (h / 2 ^ t.q) = some x) :
    (t.words k)[5 + t.level1.size + x * 2 ^ t.q + h % 2 ^ t.q]? = some (t.offset2 k h) ∧
      t.offset2 k h < 2 ^ 32 := by
  have hsize := le_length_serialize k big t
  have hplace := Level.cell_lt (s := t.q) (ht.blocks2 hx) (Nat.mod_lt h (Nat.two_pow_pos _))
  have hget : (t.words k)[5 + t.level1.size + x * 2 ^ t.q + h % 2 ^ t.q]?
      = some (if t.level2.cell t.q x (h % 2 ^ t.q) = EMPTY then 0
        else u32 (u32 (t.level2.cell t.q x (h % 2 ^ t.q) <<< t.p) * k.size + t.level3Offset)) := by
    rw [words, List.getElem?_append_right (by simp; omega)]
    have hidx : 5 + t.level1.size + x * 2 ^ t.q + h % 2 ^ t.q - (5 + t.level1.size)
        = x * 2 ^ t.q + h % 2 ^ t.q := by omega
    simp [Nat.shiftLeft_eq, Nat.add_comm t.level1.size 5, hidx, hplace, Level.cell]
  have hb : t.block3 h = entry (t.level2.cell t.q x (h % 2 ^ t.q)) := by
    simp [block3, hx]
  rw [hget, offset2, hb]
  by_cases he : t.level2.cell t.q x (h % 2 ^ t.q) = EMPTY
  · rw [if_pos he, he, entry_empty]
    exact ⟨rfl, Nat.two_pow_pos 32⟩
  have hy := ht.blocks3 (hb.trans (entry_of_ne he))
  have hmul := Nat.mul_le_mul_right k.size (Nat.mul_le_mul_right (2 ^ t.p) hy.le)
  have hk : 0 < k.size := by cases k <;> decide
  have hle := Nat.le_mul_of_pos_right (t.level2.cell t.q x (h % 2 ^ t.q) * 2 ^ t.p) hk
  rw [if_neg he, entry_of_ne he, level3Offset, length_words, Nat.shiftLeft_eq, Nat.shiftLeft_eq]
  dsimp only [u32]
  generalize t.level2.cell t.q x (h % 2 ^ t.q) * 2 ^ t.p = m at *
  rw [Nat.mod_eq_of_lt (by omega : m < 2 ^ 32)]
  generalize t.level2.size * 2 ^ t.q = m2 at *
  generalize t.level3.size * 2 ^ t.p * k.size = m3 at *
  generalize m * k.size = mk at *
  refine ⟨congrArg some ?_, ?_⟩ <;> omega

lemma tableLookup_eq (ht : Final t) (hp : t.p < 32) (hq : t.q < 32)
    (hlen : (t.serialize k big).length < 2 ^ 32) (found : ℕ → ℕ → Run ℕ) (absent : ℕ) :
    tableLookup big (t.serialize k big) wc found absent =
      match t.block3 (wc / 2 ^ t.p) with
      | some y => found (4 * (t.words k).length + y * 2 ^ t.p * k.size) (wc % 2 ^ t.p)
      | none => .ok absent := by
  have hsize := le_length_serialize k big t
  have hmask : ∀ n < 32, (1 <<< n) - 1 < 2 ^ 32 := by decide
  rw [tableLookup, word_serialize (i := 0) (v := t.q + t.p) rfl (by omega), ok_bind]
  rw [word_serialize (i := 1) (v := t.level1.size) rfl (by omega), ok_bind, ← index1, index1_eq]
  by_cases ha : wc / 2 ^ t.p / 2 ^ t.q < t.level1.size
  · obtain ⟨hword1, hlt1⟩ := words_level1 ht hlen ha
    rw [if_pos ha, word_serialize hword1 hlt1, ok_bind, offset1]
    cases hx : t.block2 (wc / 2 ^ t.p / 2 ^ t.q) with
    | none =>
      rw [block3, hx]
      exact if_neg (not_not.mpr rfl)
    | some x =>
      obtain ⟨hword2, hlt2⟩ := words_level2 ht hlen hx
      dsimp only
      rw [if_pos (by omega), word_serialize (i := 2) (v := t.p) rfl (by omega), ok_bind,
        word_serialize (i := 3) (v := (1 <<< t.q) - 1) rfl (hmask _ hq), ok_bind, ← index2,
        index2_eq, ← Nat.mul_add, word_serialize hword2 hlt2, ok_bind, offset2]
      cases hy : t.block3 (wc / 2 ^ t.p) with
      | none => exact if_neg (not_not.mpr rfl)
      | some y =>
        dsimp only
        rw [if_pos (by rw [length_words]; omega),
          word_serialize (i := 4) (v := (1 <<< t.p) - 1) rfl (hmask _ hp), ok_bind, ← index3,
          index3_eq]
  · simp [ha, block3, block2, slot]

lemma wcwidth_serialize (ht : Final t) (hp : t.p < 32) (hq : t.q < 32)
    (hlen : (t.serialize .width big).length < 2 ^ 32) (hval : t.value .width wc < 256) :
    wcwidthTableLookup big (t.serialize .width big) wc = .ok (t.value .width wc) := by
  rw [wcwidthTableLookup, tableLookup_eq ht hp hq hlen, value]
  rw [value] at hval
  cases hy : t.block3 (wc / 2 ^ t.p) with
  | none => rfl
  | some y =>
    rw [hy] at hval
    have hplace := Level.cell_lt (s := t.p) (ht.blocks3 hy) (Nat.mod_lt wc (Nat.two_pow_pos _))
    rw [← Nat.shiftLeft_eq t.level3.size] at hplace
    have h := holds_flatMap (k := 1) (fun _ => rfl) (serialize_holds .width big t).2
      (List.getElem?_range hplace)
    dsimp only [Kind.size]
    rw [show 4 * (words .width t).length + y * 2 ^ t.p * 1 + wc % 2 ^ t.p
        = 4 * (words .width t).length + 1 * (y * 2 ^ t.p + wc % 2 ^ t.p) by ring, h.load, ok_bind,
      UInt8.toNat_ofNat']
    exact congrArg Except.ok (Nat.mod_eq_of_lt hval)

lemma wctrans_serialize (ht : Final t) (hp : t.p < 32) (hq : t.q < 32)
    (hlen : (t.serialize .mapping big).length < 2 ^ 32) (hwc : wc < 2 ^ 32)
    (hval : t.value .mapping wc < 2 ^ 32) : wctransTableLookup big (t.serialize .mapping big) wc
      = .ok ((wc + t.value .mapping wc) % 2 ^ 32) := by
  rw [wctransTableLookup, tableLookup_eq ht hp hq hlen, value]
  rw [value] at hval
  cases hy : t.block3 (wc / 2 ^ t.p) with
  | none => exact congrArg Except.ok (Nat.mod_eq_of_lt hwc).symm
  | some y =>
    rw [hy] at hval
    have hplace := Level.cell_lt (s := t.p) (ht.blocks3 hy) (Nat.mod_lt wc (Nat.two_pow_pos _))
    rw [← Nat.shiftLeft_eq t.level3.size] at hplace
    have h := holds_flatMap (k := 4) (fun _ => length_stored _ _ _)
      (serialize_holds .mapping big t).2 (List.getElem?_range hplace)
    dsimp only [Kind.size]
    rw [show 4 * (words .mapping t).length + y * 2 ^ t.p * 4 + 4 * (wc % 2 ^ t.p)
        = 4 * (words .mapping t).length + 4 * (y * 2 ^ t.p + wc % 2 ^ t.p) by ring, word_stored h,
      ok_bind, Nat.mod_eq_of_lt (show t.level3.cells _ < 2 ^ 32 from hval)]
    rfl

end Table

def lookup (k : Kind) (big : Bool) (table : List UInt8) (wc : ℕ) : Run ℕ :=
  match k with
  | .width => wcwidthTableLookup big table wc
  | .mapping => wctransTableLookup big table wc

/-- What the element of a character means: a width, or a difference to the character. -/
def Kind.meaning (k : Kind) (wc v : ℕ) : ℕ :=
  match k with
  | .width => v
  | .mapping => (wc + v) % 2 ^ 32

def lastAdded (k : Kind) (adds : List (ℕ × ℕ)) (wc : ℕ) : ℕ :=
  match adds.reverse.find? fun e => e.1 == wc with
  | some e => e.2
  | none => k.default

lemma added_eq (f : ℕ → ℕ) (adds : List (ℕ × ℕ)) (wc : ℕ) :
    Table.added f adds wc = match adds.reverse.find? fun e => e.1 == wc with
      | some e => e.2
      | none => f wc := by
  induction adds using List.reverseRecOn with
  | nil => rfl
  | append_singleton adds e ih =>
    have hlast : Table.added f (adds ++ [e]) = Function.update (Table.added f adds) e.1 e.2 :=
      List.foldl_append
    rw [hlast, Function.update_apply, List.reverse_append, List.reverse_singleton,
      List.singleton_append, List.find?_cons]
    by_cases he : wc = e.1
    · simp [he]
    · have hne : (e.1 == wc) = false := by simpa using fun h : e.1 = wc => he h.symm
      rw [if_neg he, hne, ih]

lemma lastAdded_lt (h : ∀ e ∈ adds, e.2 < 256 ^ k.size) (wc : ℕ) :
    lastAdded k adds wc < 256 ^ k.size := by
  unfold lastAdded
  cases he : adds.reverse.find? fun e => e.1 == wc with
  | none => cases k <;> decide
  | some e => exact h e (List.mem_reverse.mp (List.mem_of_find?_eq_some he))

/-- A table that has been written is read as it was entered, at every wide character; all
reads are within the table. For a first level with an entry for each character, the file
that has one for the last character would have more than 2 ^ 32 bytes. -/
theorem lookup_written (k : Kind) (big : Bool) {p q : ℕ} (hp : p < 31) (hq : q < 31)
    (hpq : p + q < 32) (m1 m2 m3 : ℕ → ℕ) {adds : List (ℕ × ℕ)} (hfew : adds.length < 2 ^ 31)
    (hadds : ∀ e ∈ adds, e.1 < 2 ^ 32 ∧ e.2 < 256 ^ k.size)
    (hlast : p + q = 0 → ∀ e ∈ adds, e.1 = 2 ^ 32 - 1 → e.2 = k.default) :
    ∃ t file, Table.addAll k adds (init p q m1 m2 m3) = .ok t ∧
      addLocaleTable k big t = .ok file ∧
      (file.length < 2 ^ 32 →
        ∀ wc < 2 ^ 32, lookup k big file wc = .ok (k.meaning wc (lastAdded k adds wc))) := by
  have hempty : 2 ^ 31 ≤ EMPTY := by decide
  obtain ⟨t, ht, hw, htp, htq, h2, h3, hv⟩ := Table.addAll_returns k adds (init p q m1 m2 m3)
    (Table.init_wellFormed hpq.le m1 m2 m3) (fun e he => (hadds e he).1)
    (fun hbits => ⟨rfl, hlast hbits⟩) (n := 0) (Nat.le_refl _) (Nat.le_refl _) (by omega)
  obtain ⟨t', ht', hfinal, hp', hq', hv'⟩ := shrink_returns hw (by omega) (by omega) k
  refine ⟨t, t'.serialize k big, ht, by rw [addLocaleTable, ht', ok_bind], ?_⟩
  intro hlen wc hwc
  have htp' : t'.p < 32 := by rw [hp', htp]; exact hp.trans (by decide)
  have htq' : t'.q < 32 := by rw [hq', htq]; exact hq.trans (by decide)
  have hvalue : t'.value k wc = lastAdded k adds wc := by
    rw [hv', hv, added_eq]
    rfl
  have hlt := lastAdded_lt (fun e he => (hadds e he).2) wc
  cases k with
  | width => exact hvalue ▸ Table.wcwidth_serialize hfinal htp' htq' hlen (hvalue ▸ hlt)
  | mapping => exact hvalue ▸ Table.wctrans_serialize hfinal htp' htq' hlen hwc (hvalue ▸ hlt)

/-- Two additions for one character, with blocks of two elements. -/
theorem lookup_written_twice :
    ∃ t file, Table.addAll .mapping [(65, 32), (65, 7)] (init 1 1 id id id) = .ok t ∧
      addLocaleTable .mapping false t = .ok file ∧
      (file.length < 2 ^ 32 → ∀ wc < 2 ^ 32, lookup .mapping false file wc
        = .ok (Kind.meaning .mapping wc (lastAdded .mapping [(65, 32), (65, 7)] wc))) :=
  lookup_written .mapping false (by decide) (by decide) (by decide) id id id (by decide) (by decide)
    (by decide)

end Eglibc.ThreeLevel
