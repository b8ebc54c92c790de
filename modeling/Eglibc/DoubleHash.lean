import Mathlib

/-!
# Probing by double hashing

Positions are `1` to `n`, and a probe goes `d` positions back, around the end.
-/
namespace Eglibc.DoubleHash
variable {n d i : ℕ}

def back (n d i : ℕ) : ℕ := if i ≤ d then n + i - d else i - d

def probe (n d i : ℕ) : ℕ → ℕ
  | 0 => i
  | t + 1 => back n d (probe n d i t)

lemma back_mem (hd : 0 < d) (hdn : d < n) (hi : 1 ≤ i ∧ i ≤ n) :
    1 ≤ back n d i ∧ back n d i ≤ n := by
  unfold back
  split_ifs <;> omega

lemma probe_mem (hd : 0 < d) (hdn : d < n) (hi : 1 ≤ i ∧ i ≤ n) (t : ℕ) :
    1 ≤ probe n d i t ∧ probe n d i t ≤ n := by
  induction t with
  | zero => exact hi
  | succ t ih => exact back_mem hd hdn ih

lemma cast_back (hdn : d < n) : (back n d i : ZMod n) = i - d := by
  unfold back
  split_ifs with h
  · rw [Nat.cast_sub (by omega), Nat.cast_add, ZMod.natCast_self, zero_add]
  · rw [Nat.cast_sub (by omega)]

lemma cast_probe (hdn : d < n) (t : ℕ) : (probe n d i t : ZMod n) = i - t * d := by
  induction t with
  | zero => simp [probe]
  | succ t ih =>
    rw [probe, cast_back hdn, ih]
    push_cast
    ring

lemma eq_of_cast {j : ℕ} (hi : 1 ≤ i ∧ i ≤ n) (hj : 1 ≤ j ∧ j ≤ n) (h : (i : ZMod n) = j) :
    i = j := by
  refine ((ZMod.natCast_eq_natCast_iff i j n).mp h).eq_of_abs_lt ?_
  rw [abs_lt]
  omega

section
variable [hn : Fact n.Prime] (hd : 0 < d) (hdn : d < n)
include hd hdn

lemma cast_ne_zero : (d : ZMod n) ≠ 0 := by
  rw [Ne, ZMod.natCast_eq_zero_iff]
  exact Nat.not_dvd_of_pos_of_lt hd hdn

theorem probe_ne_start {t : ℕ} (ht : 0 < t) (htn : t < n) : probe n d i t ≠ i := by
  intro h
  have hcast := cast_probe (i := i) hdn t
  rw [h] at hcast
  have hzero : (t : ZMod n) * d = 0 := sub_eq_self.mp hcast.symm
  obtain h0 | h0 := mul_eq_zero.mp hzero
  · rw [ZMod.natCast_eq_zero_iff] at h0
    exact Nat.not_dvd_of_pos_of_lt ht htn h0
  · exact cast_ne_zero hd hdn h0

lemma probe_eq_start (hi : 1 ≤ i ∧ i ≤ n) : probe n d i n = i := by
  refine eq_of_cast (probe_mem hd hdn hi n) hi ?_
  simp [cast_probe hdn]

lemma exists_probe (hi : 1 ≤ i ∧ i ≤ n) {j : ℕ} (hj : 1 ≤ j ∧ j ≤ n) :
    ∃ t < n, probe n d i t = j := by
  refine ⟨(((i : ZMod n) - j) / d).val, ZMod.val_lt _, ?_⟩
  refine eq_of_cast (probe_mem hd hdn hi _) hj ?_
  simp [cast_probe hdn, ZMod.natCast_val, ZMod.cast_id, div_mul_cancel₀ _ (cast_ne_zero hd hdn)]

end

end Eglibc.DoubleHash
