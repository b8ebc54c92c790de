import Eglibc.Checked
import Mathlib.Data.Finset.Card
import Mathlib.Tactic.Ring

/-!
# Growable arrays of blocks

A block has `2 ^ s` cells; of `alloc` blocks, `size` are in use. Cells that have not been
written hold arbitrary values.
-/
namespace Eglibc.BlockArray
open Checked

structure Level where
  alloc : ℕ
  size : ℕ
  cells : ℕ → ℕ

namespace Level

variable {l : Level} {s i n v x y c d : ℕ}

def cell (l : Level) (s x c : ℕ) : ℕ := l.cells (x * 2 ^ s + c)

def fetch (l : Level) (s i : ℕ) : Run ℕ := do
  ensure (i < l.alloc <<< s)
  .ok (l.cells i)

def put (l : Level) (s i v : ℕ) : Run Level := do
  ensure (i < l.alloc <<< s)
  .ok { l with cells := Function.update l.cells i v }

def fill (s v : ℕ) : ℕ → ℕ → Level → Run Level
  | 0, _, l => .ok l
  | n + 1, i, l => do
    let l ← l.put s i v
    fill s v n (i + 1) l

lemma cell_lt (hx : x < n) (hc : c < 2 ^ s) : x * 2 ^ s + c < n * 2 ^ s :=
  calc x * 2 ^ s + c < x * 2 ^ s + 2 ^ s := Nat.add_lt_add_left hc _
    _ = (x + 1) * 2 ^ s := by ring
    _ ≤ n * 2 ^ s := Nat.mul_le_mul_right _ hx

lemma cell_inj (hc : c < 2 ^ s) (hd : d < 2 ^ s) (h : x * 2 ^ s + c = y * 2 ^ s + d) :
    x = y ∧ c = d := by
  have hx := (Nat.div_mod_unique (a := x * 2 ^ s + c) (d := x) (Nat.two_pow_pos s)).mpr ⟨by ring, hc⟩
  have hy := (Nat.div_mod_unique (a := y * 2 ^ s + d) (d := y) (Nat.two_pow_pos s)).mpr ⟨by ring, hd⟩
  rw [h] at hx
  exact ⟨hx.1.symm.trans hy.1, hx.2.symm.trans hy.2⟩

lemma fetch_cell (hx : x < l.alloc) (hc : c < 2 ^ s) :
    l.fetch s (x * 2 ^ s + c) = .ok (l.cell s x c) := by
  have h := cell_lt hx hc
  simp only [fetch, ensure, Nat.shiftLeft_eq, h, if_true, ok_bind, cell]

lemma put_cell (hx : x < l.alloc) (hc : c < 2 ^ s) : l.put s (x * 2 ^ s + c) v
      = .ok { l with cells := Function.update l.cells (x * 2 ^ s + c) v } := by
  have h := cell_lt hx hc
  simp only [put, ensure, Nat.shiftLeft_eq, h, if_true, ok_bind]

lemma cell_update (hc : c < 2 ^ s) (hd : d < 2 ^ s) :
    cell { l with cells := Function.update l.cells (x * 2 ^ s + c) v } s y d
      = if y = x ∧ d = c then v else l.cell s y d := by
  dsimp only [cell]
  rw [Function.update_apply]
  by_cases h : y = x ∧ d = c
  · simp [h]
  · rw [if_neg h, if_neg fun he => h (cell_inj hd hc he)]

lemma fill_eq (h : i + n ≤ l.alloc * 2 ^ s) : fill s v n i l
      = .ok { l with cells := fun j => if i ≤ j ∧ j < i + n then v else l.cells j } := by
  induction n generalizing i l with
  | zero =>
    have hcells : (fun j => if i ≤ j ∧ j < i + 0 then v else l.cells j) = l.cells := by
      funext j
      simp
    rw [fill, hcells]
  | succ n ih =>
    have hput : l.put s i v = .ok { l with cells := Function.update l.cells i v } := by
      rw [put, ensure, Nat.shiftLeft_eq, if_pos (by omega), ok_bind]
    rw [fill, hput, ok_bind, ih (by dsimp only; omega)]
    congr 2
    funext j
    dsimp only
    rw [Function.update_apply]
    split_ifs <;> first | rfl | omega

end Level

/-- The names below `bound` are given to the blocks below `size`, each block to one name. -/
structure Numbered (view : ℕ → Option ℕ) (size bound : ℕ) : Prop where
  lt : ∀ {a x}, view a = some x → a < bound ∧ x < size
  inj : ∀ {a b x}, view a = some x → view b = some x → a = b
  onto : ∀ {x}, x < size → ∃ a, view a = some x

namespace Numbered

variable {view : ℕ → Option ℕ} {size bound a : ℕ}

lemma size_le (h : Numbered view size bound) : size ≤ bound := by
  have hcard : (Finset.range size).card ≤ (Finset.range bound).card := by
    refine Finset.card_le_card_of_forall_subsingleton (fun x a => view a = some x) ?_ ?_
    · intro x hx
      obtain ⟨a, ha⟩ := h.onto (Finset.mem_range.mp hx)
      exact ⟨a, Finset.mem_range.mpr (h.lt ha).1, ha⟩
    · intro a _ x hx y hy
      exact Option.some.inj (hx.2.symm.trans hy.2)
  simpa using hcard

lemma extend (h : Numbered view size bound) (ha : a < bound) (hnone : view a = none) :
    Numbered (Function.update view a (some size)) (size + 1) bound := by
  have hcases : ∀ {b x}, Function.update view a (some size) b = some x →
      (b = a ∧ x = size) ∨ (b ≠ a ∧ view b = some x) := by
    intro b x hb
    rw [Function.update_apply] at hb
    by_cases hba : b = a
    · rw [if_pos hba] at hb
      exact .inl ⟨hba, (Option.some.inj hb).symm⟩
    · rw [if_neg hba] at hb
      exact .inr ⟨hba, hb⟩
  constructor
  · intro b x hb
    obtain ⟨rfl, rfl⟩ | ⟨-, hv⟩ := hcases hb
    · exact ⟨ha, Nat.lt_succ_self _⟩
    · exact ⟨(h.lt hv).1, Nat.lt_succ_of_lt (h.lt hv).2⟩
  · intro b c x hb hc
    obtain ⟨rfl, rfl⟩ | ⟨-, hv⟩ := hcases hb <;> obtain ⟨rfl, hx⟩ | ⟨-, hw⟩ := hcases hc
    · rfl
    · exact absurd (h.lt hw).2 (Nat.lt_irrefl _)
    · exact absurd (hx ▸ (h.lt hv).2) (Nat.lt_irrefl _)
    · exact h.inj hv hw
  · intro x hx
    obtain hx | rfl := Nat.lt_succ_iff_lt_or_eq.mp hx
    · obtain ⟨b, hb⟩ := h.onto hx
      have hba : b ≠ a := by
        rintro rfl
        rw [hnone] at hb
        cases hb
      exact ⟨b, by rw [Function.update_of_ne hba, hb]⟩
    · exact ⟨a, Function.update_self _ _ _⟩

end Numbered

end Eglibc.BlockArray
