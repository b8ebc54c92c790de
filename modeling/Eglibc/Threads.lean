import Mathlib

/-!
# Threads

The positions of finitely many threads are a function. A schedule is the list of the
threads that move, one after another.
-/
namespace Eglibc.Threads

section
variable {σ ι : Type}

/-- The rule for whole runs: what every move preserves holds after every schedule. -/
theorem foldl_invariant {next : σ → ι → σ} {I : σ → Prop} (hstep : ∀ s t, I s → I (next s t))
    (schedule : List ι) {s : σ} (hs : I s) : I (schedule.foldl next s) := by
  induction schedule generalizing s with
  | nil => exact hs
  | cons t schedule ih => exact ih (hstep s t hs)

end

section

/-- `unsigned int` arithmetic. -/
@[irreducible] def increment (x : ℕ) : ℕ := (x + 1) % 2 ^ 32

@[irreducible] def decrement (x : ℕ) : ℕ := if x = 0 then 2 ^ 32 - 1 else x - 1

variable {x : ℕ}

lemma increment_eq (h : x + 1 < 2 ^ 32) : increment x = x + 1 := by
  unfold increment
  omega

lemma increment_eq_of_ne_zero (hx : x < 2 ^ 32) (h : increment x ≠ 0) :
    increment x = x + 1 ∧ x + 1 < 2 ^ 32 := by
  unfold increment at *
  omega

lemma decrement_eq (h : x ≠ 0) : decrement x = x - 1 := by
  rw [decrement, if_neg h]

end

section
variable {T α : Type} [Fintype T]

/-- How many threads are at a position with the property `p`. -/
def tally (p : α → Bool) (pc : T → α) : ℕ := (Finset.univ.filter fun t => p (pc t)).card

variable {p : α → Bool} {pc pc' : T → α}

lemma tally_pos {t : T} (h : p (pc t) = true) : 0 < tally p pc :=
  Finset.card_pos.mpr ⟨t, by simp [h]⟩

lemma exists_of_tally_pos (h : 0 < tally p pc) : ∃ t, p (pc t) = true := by
  obtain ⟨t, ht⟩ := Finset.card_pos.mp h
  exact ⟨t, by simpa using ht⟩

lemma tally_eq_zero : tally p pc = 0 ↔ ∀ t, p (pc t) = false := by
  simp [tally, Finset.filter_eq_empty_iff]

lemma tally_congr (h : ∀ t, p (pc' t) = p (pc t)) : tally p pc' = tally p pc := by
  unfold tally
  simp only [h]

variable [DecidableEq T]

lemma tally_update (pc : T → α) (t : T) (a : α) :
    tally p (Function.update pc t a) + (p (pc t)).toNat = tally p pc + (p a).toNat := by
  have hrest : ∀ pc' : T → α, (∀ u, u ≠ t → pc' u = pc u) → tally p pc' =
      (Finset.univ.filter fun u => u ≠ t ∧ p (pc u) = true).card + (p (pc' t)).toNat := by
    intro pc' hpc'
    have hsplit : (Finset.univ.filter fun u => p (pc' u) = true) =
        (Finset.univ.filter fun u => u ≠ t ∧ p (pc u) = true) ∪
          (if p (pc' t) = true then {t} else ∅) := by
      ext u
      by_cases hu : u = t
      · subst hu
        by_cases hp : p (pc' u) = true <;> simp [hp]
      · by_cases hp : p (pc' t) = true <;> simp [hp, hu, hpc' u hu]
    unfold tally
    rw [hsplit, Finset.card_union_of_disjoint]
    · by_cases hp : p (pc' t) = true <;> simp [hp]
    · by_cases hp : p (pc' t) = true <;> simp [hp]
  rw [hrest (Function.update pc t a) fun u hu => Function.update_of_ne hu _ _,
    hrest pc fun _ _ => rfl, Function.update_self]
  omega

lemma tally_update_of_eq {t : T} {a : α} (h : p a = p (pc t)) :
    tally p (Function.update pc t a) = tally p pc := by
  have := tally_update (p := p) pc t a
  rw [h] at this
  omega

end

end Eglibc.Threads
