import Mathlib

/-!
# Division by multiplication

A number is divided by the high part of a product, and a number of two limbs through an
estimate from the reciprocal `(W * W - 1) / d`.
-/
namespace Eglibc.Reciprocal

/-- The multiplier `M` may exceed `W * P / d` by a `W`-th part of what makes up one. -/
theorem mul_div_eq (hd : 0 < d) (hlow : W * P ≤ M * d)
    (hhigh : M * d ≤ W * P + P) (hP : 0 < P) (hn : n < W) : n * M / (W * P) = n / d := by
  have hfloor : n / d * d ≤ n := Nat.div_mul_le_self n d
  have hceil : n + 1 ≤ (n / d + 1) * d := by
    have := Nat.lt_div_mul_add (a := n) hd
    rw [Nat.add_mul, Nat.one_mul]
    omega
  apply Nat.div_eq_of_lt_le
  · calc n / d * (W * P) ≤ n / d * (M * d) := Nat.mul_le_mul_left _ hlow
      _ = n / d * d * M := by ring
      _ ≤ n * M := Nat.mul_le_mul_right _ hfloor
  refine Nat.lt_of_mul_lt_mul_right (a := d) ?_
  calc n * M * d = n * (M * d) := by ring
    _ ≤ n * (W * P + P) := Nat.mul_le_mul_left _ hhigh
    _ = n * (W * P) + n * P := by ring
    _ < n * (W * P) + W * P := Nat.add_lt_add_left (Nat.mul_lt_mul_of_pos_right hn hP) _
    _ = (n + 1) * (W * P) := by ring
    _ ≤ (n / d + 1) * d * (W * P) := Nat.mul_le_mul_right _ hceil
    _ = (n / d + 1) * (W * P) * d := by ring

section
variable {W d nh : ℕ}

theorem estimate_le (hW : 0 < W) : nh * ((W * W - 1) / d) / W * d ≤ nh * W := by
  refine Nat.le_of_mul_le_mul_right ?_ hW
  have hv : (W * W - 1) / d * d ≤ W * W := (Nat.div_mul_le_self _ _).trans (Nat.sub_le _ _)
  calc nh * ((W * W - 1) / d) / W * d * W = nh * ((W * W - 1) / d) / W * W * d := by ring
    _ ≤ nh * ((W * W - 1) / d) * d := Nat.mul_le_mul_right _ (Nat.div_mul_le_self _ _)
    _ = nh * ((W * W - 1) / d * d) := by ring
    _ ≤ nh * (W * W) := Nat.mul_le_mul_left _ hv
    _ = nh * W * W := by ring

theorem lt_estimate (hd : 0 < d) (hdW : d ≤ W) (hnh : nh ≤ d) :
    nh * W < nh * ((W * W - 1) / d) / W * d + 2 * d := by
  have hW : 0 < W := by omega
  have hWW : 0 < W * W := Nat.mul_pos hW hW
  have hv : W * W ≤ (W * W - 1) / d * d + d := by
    have := Nat.lt_div_mul_add (a := W * W - 1) hd
    omega
  have hq := Nat.lt_div_mul_add (a := nh * ((W * W - 1) / d)) hW
  refine Nat.lt_of_mul_lt_mul_right (a := W) ?_
  calc nh * W * W = nh * (W * W) := by ring
    _ ≤ nh * ((W * W - 1) / d * d + d) := Nat.mul_le_mul_left _ hv
    _ = nh * ((W * W - 1) / d) * d + nh * d := by ring
    _ < (nh * ((W * W - 1) / d) / W * W + W) * d + nh * d :=
      Nat.add_lt_add_right (Nat.mul_lt_mul_of_pos_right hq hd) _
    _ ≤ (nh * ((W * W - 1) / d) / W * W + W) * d + W * d :=
      Nat.add_le_add_left (Nat.mul_le_mul_right _ (hnh.trans hdW)) _
    _ = (nh * ((W * W - 1) / d) / W * d + 2 * d) * W := by ring

end

/-- The `k` lowest digits of a number, leading zeros included. -/
def lowDigits (b : ℕ) : ℕ → ℕ → List ℕ
  | 0, _ => []
  | k + 1, n => n % b :: lowDigits b k (n / b)

@[simp] lemma length_lowDigits (b k n : ℕ) : (lowDigits b k n).length = k := by
  induction k generalizing n with
  | zero => rfl
  | succ k ih => simp [lowDigits, ih]

lemma lowDigits_append (hb : 1 < b) (hm : 0 < m) (k n : ℕ) :
    lowDigits b k n ++ b.digits m = b.digits (n % b ^ k + b ^ k * m) := by
  induction k generalizing n with
  | zero => simp [lowDigits, Nat.mod_one]
  | succ k ih =>
    have hsplit : n % b ^ (k + 1) + b ^ (k + 1) * m = n % b + b * (n / b % b ^ k + b ^ k * m) := by
      rw [Nat.pow_succ', Nat.mod_mul]
      ring
    have hpos : 0 < b ^ k * m := Nat.mul_pos (Nat.pow_pos (by omega)) hm
    rw [hsplit, Nat.digits_add b hb _ _ (Nat.mod_lt _ (by omega))
      (.inr (Nat.add_pos_right _ hpos).ne'), lowDigits,
      List.cons_append, ih]

theorem digits_padded (hb : 1 < b) (hn : n < b ^ k) (hm : 0 < m) :
    b.digits n ++ List.replicate (k - (b.digits n).length) 0 ++ b.digits m =
      b.digits (n + b ^ k * m) := by
  have hlen : (b.digits n).length ≤ k := (Nat.digits_length_le_iff hb n).mpr hn
  rw [Nat.digits_append_zeroes_append_digits hb hm, Nat.add_sub_cancel' hlen]

end Eglibc.Reciprocal
