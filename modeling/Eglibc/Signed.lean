import Eglibc.Checked

/-!
# Signed machine integers

Values of a signed type are integers. `checked` is arithmetic where overflow is
undefined, `wrap` is the conversion to the type, and arithmetic where overflow wraps.
-/
namespace Eglibc.Signed
open Checked

/-- The value is one of a signed type of `w` bits. -/
def Fits (w : ℕ) (x : ℤ) : Prop := -2 ^ (w - 1) ≤ x ∧ x < 2 ^ (w - 1)

instance (w : ℕ) (x : ℤ) : Decidable (Fits w x) := inferInstanceAs (Decidable (_ ∧ _))

/-- The value of a signed type of `w` bits that is congruent to `x`. -/
def wrap (w : ℕ) (x : ℤ) : ℤ := (x + 2 ^ (w - 1)) % 2 ^ w - 2 ^ (w - 1)

def checked (w : ℕ) (x : ℤ) : Run ℤ := if Fits w x then .ok x else .error .wrap

/-- Addition of values of an `int` that are not negative. -/
def addInt (a b : ℕ) : Run ℕ := if a + b < 2 ^ 31 then .ok (a + b) else .error .wrap

/-- Shift right: division by a power of two that rounds downwards. -/
def shr (x : ℤ) (b : ℕ) : ℤ := x / 2 ^ b

section
variable {w : ℕ} {x y : ℤ}

lemma two_pow_pred (hw : 0 < w) : (2 : ℤ) ^ w = 2 * 2 ^ (w - 1) :=
  (mul_pow_sub_one hw.ne' 2).symm

lemma fits_wrap (hw : 0 < w) (x : ℤ) : Fits w (wrap w x) := by
  have hlow := Int.emod_nonneg (x + 2 ^ (w - 1)) (by positivity : (2 : ℤ) ^ w ≠ 0)
  have hhigh := Int.emod_lt_of_pos (x + 2 ^ (w - 1)) (by positivity : (0 : ℤ) < 2 ^ w)
  rw [two_pow_pred hw] at hhigh
  unfold Fits wrap
  rw [two_pow_pred hw] at hlow ⊢
  omega

lemma wrap_eq (hw : 0 < w) (h : Fits w x) : wrap w x = x := by
  obtain ⟨hlow, hhigh⟩ := h
  unfold wrap
  rw [Int.emod_eq_of_lt (by omega) (by rw [two_pow_pred hw]; omega)]
  omega

lemma wrap_eq_iff (hw : 0 < w) : wrap w x = x ↔ Fits w x := by
  constructor
  · intro h
    rw [← h]
    exact fits_wrap hw x
  · exact wrap_eq hw

lemma checked_eq (h : Fits w x) : checked w x = .ok x := if_pos h

lemma addInt_eq {a b : ℕ} (h : a + b < 2 ^ 31) : addInt a b = .ok (a + b) := if_pos h

lemma addInt_ok {a b c : ℕ} (h : addInt a b = .ok c) : c < 2 ^ 31 ∧ c = a + b := by
  unfold addInt at h
  split_ifs at h with hlt
  cases h
  exact ⟨hlt, rfl⟩

end

end Eglibc.Signed
