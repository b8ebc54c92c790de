import Mathlib

/-!
# Trial division

An odd number that no odd number up to its square root divides is prime.
-/
namespace Eglibc.TrialDivision

def Undivided (number div : ℕ) : Prop :=
  div % 2 = 1 ∧ 3 ≤ div ∧ ∀ d, d % 2 = 1 → 3 ≤ d → d < div → ¬d ∣ number

lemma prime_of_undivided {number div : ℕ} (hodd : number % 2 = 1) (hn : 3 ≤ number)
    (hu : Undivided number div) (hsq : number ≤ div * div) (hdiv : number % div ≠ 0) :
    number.Prime := by
  obtain ⟨_, _, hall⟩ := hu
  by_contra hp
  have hfac := Nat.minFac_prime (n := number) (by omega)
  have hsmall := Nat.minFac_sq_le_self (by omega) hp
  have hdvd := Nat.minFac_dvd number
  have hodd' : number.minFac % 2 = 1 := by
    obtain h2 | h2 := Nat.mod_two_eq_zero_or_one number.minFac
    · have := (Nat.dvd_of_mod_eq_zero h2).trans hdvd
      omega
    · exact h2
  have h3 : 3 ≤ number.minFac := by
    have := hfac.two_le
    omega
  obtain hlt | hge := Nat.lt_or_ge number.minFac div
  · exact hall _ hodd' h3 hlt hdvd
  have hle : number.minFac ≤ div := by
    by_contra hlt
    have := Nat.mul_lt_mul'' (not_le.mp hlt) (not_le.mp hlt)
    rw [sq] at hsmall
    omega
  rw [le_antisymm hle hge] at hdvd
  exact hdiv (Nat.mod_eq_zero_of_dvd hdvd)

lemma Undivided.next {number div : ℕ} (hu : Undivided number div) (hdiv : number % div ≠ 0) :
    Undivided number (div + 2) := by
  obtain ⟨h1, h2, h3⟩ := hu
  refine ⟨by omega, by omega, fun d hd1 hd2 hd3 hdvd => ?_⟩
  by_cases hd : d < div
  · exact h3 d hd1 hd2 hd hdvd
  · obtain rfl : d = div := by omega
    exact hdiv (Nat.mod_eq_zero_of_dvd hdvd)

/-- No odd number from 3 to `2 * k + 1` divides `number`. -/
def noDivisor (number : ℕ) : ℕ → Bool
  | 0 => true
  | k + 1 => number % (2 * k + 3) != 0 && noDivisor number k

lemma undivided_of_noDivisor {number k : ℕ} (h : noDivisor number k = true) :
    Undivided number (2 * k + 3) := by
  induction k with
  | zero => exact ⟨rfl, le_rfl, by omega⟩
  | succ k ih =>
    rw [noDivisor, Bool.and_eq_true, bne_iff_ne] at h
    exact (ih h.2).next h.1

end Eglibc.TrialDivision
