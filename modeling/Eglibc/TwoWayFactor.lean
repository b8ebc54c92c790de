import Eglibc.TwoWay
import Eglibc.Words

/-! # The factorization that `critical_factorization` computes is critical -/
namespace Eglibc.TwoWay
open Checked Words

variable (M : Macros)

def text (xs : List UInt8) (i : ℕ) : UInt8 := M.canonElement (xs.getD i 0)

variable {M} {less : UInt8 → UInt8 → Bool} {r : UInt8 → UInt8 → Prop} {needle : List UInt8} {n : ℕ}

/-- `maxSuffix` is one less than the start of the best suffix so far. -/
def FactorInv (M : Macros) (r : UInt8 → UInt8 → Prop) (needle : List UInt8) (n : ℕ) (s : Factor) :
    Prop :=
  ∃ m, s.maxSuffix = sizeSub m 1 ∧ Scan r (text M needle) n m s.j s.k s.p

def factorVariant (n : ℕ) (s : Factor) : ℕ := 2 * n + 1 - (sizeAdd s.maxSuffix 1 + s.j + s.k)

def Factored (M : Macros) (r : UInt8 → UInt8 → Prop) (needle : List UInt8) (n : ℕ) (s : Factor) :
    Prop :=
  ∃ m, sizeAdd s.maxSuffix 1 = m ∧ MaxSuffix r (text M needle) n m ∧
    LeastPeriod (text M needle) m n s.p

instance isStrictOrder_lt : IsStrictOrder UInt8 (· < ·) where
  irrefl := UInt8.lt_irrefl
  trans _ _ _ := UInt8.lt_trans

lemma sizeAdd_pred_one {m : ℕ} (h : m < 2 ^ 64) : sizeAdd (sizeSub m 1) 1 = m := by
  rw [sizeAdd_pred Nat.one_pos (by omega)]
  omega

lemma maxSuffixBody_returns [IsStrictOrder UInt8 r] (hless : ∀ a b, less a b = true ↔ r a b)
    (htri : ∀ a b, ¬ r a b → a ≠ b → r b a) (hlen : n ≤ needle.length) (hn : n < 2 ^ 64)
    (s : Factor) (hs : FactorInv M r needle n s) : Returns (maxSuffixBody M less needle n s)
      (Pass (FactorInv M r needle n) (factorVariant n) (Factored M r needle n) s) := by
  obtain ⟨m, hm, hs⟩ := hs
  have hlap := hs.lap_le
  have hk := hs.k_pos
  have hkp := hs.k_le
  have hfit := hs.fits
  have hstart : sizeAdd s.maxSuffix 1 = m := by rw [hm, sizeAdd_pred_one (by omega)]
  unfold maxSuffixBody
  by_cases hjk : s.j + s.k < n
  · have hidx : sizeAdd s.maxSuffix s.k = m + s.k - 1 := by
      rw [hm, sizeAdd_pred hk (by omega)]
    rw [if_pos hjk, load_eq 0 (by omega), ok_bind, hidx, load_eq 0 (by omega), ok_bind]
    dsimp only
    split_ifs with hlt heq hkp'
    · refine returns_ok ⟨⟨m, hm, ?_⟩, ?_⟩
      · rw [hm, sizeSub_pred (by omega) (by omega)]
        exact hs.smaller hjk ((hless _ _).mp hlt)
      · simp only [factorVariant, hstart]
        omega
    · refine returns_ok ⟨⟨m, hm, hs.equal_inside hjk heq hkp'⟩, ?_⟩
      simp only [factorVariant, hstart]
      omega
    · simp only [not_not] at hkp'
      refine returns_ok ⟨⟨m, hm, Scan.equal_lap (hkp' ▸ hs) (hkp' ▸ hjk) (hkp' ▸ heq)⟩, ?_⟩
      simp only [factorVariant, hstart]
      omega
    · refine returns_ok ⟨⟨s.j + 1, ?_, hs.larger hjk (htri _ _ (mt (hless _ _).mpr hlt) heq)⟩, ?_⟩
      · rw [sizeSub_eq (by omega) (by omega), Nat.add_sub_cancel]
      · simp only [factorVariant, hstart]
        rw [sizeAdd_eq (by omega)]
        omega
  · rw [if_neg hjk]
    exact returns_ok ⟨m, hstart, hs.finish (by omega)⟩

lemma maxSuffixScan_returns [IsStrictOrder UInt8 r] (hless : ∀ a b, less a b = true ↔ r a b)
    (htri : ∀ a b, ¬ r a b → a ≠ b → r b a) (hpos : 0 < n) (hlen : n ≤ needle.length)
    (hn : n < 2 ^ 64) : Returns (maxSuffixScan M less needle n) (Factored M r needle n) := by
  refine iterate_returns (factorVariant n) (maxSuffixBody_returns hless htri hlen hn)
    ⟨0, ?_, Scan.start _ _ hpos⟩ ?_
  · simp [sizeMax, sizeSub]
  · unfold factorVariant
    omega

lemma criticalFactorization_returns (hpos : 0 < n) (hlen : n ≤ needle.length) (hn : n < 2 ^ 64) :
    Returns (criticalFactorization M needle n)
      (fun f => Critical (text M needle) n f.1 f.2) := by
  refine (maxSuffixScan_returns (r := (· < ·)) (fun _ _ => decide_eq_true_iff)
    (fun a b h hne => UInt8.lt_of_le_of_ne (UInt8.not_lt.mp h) hne.symm) hpos hlen hn).bind ?_
  rintro fwd ⟨m, hm, hmax, hper⟩
  refine (maxSuffixScan_returns (r := Function.swap (· < ·)) (fun _ _ => decide_eq_true_iff)
    (fun a b h hne => UInt8.lt_of_le_of_ne (UInt8.not_lt.mp h) hne) hpos hlen hn).bind ?_
  rintro rev ⟨m', hm', hmax', hper'⟩
  rw [hm, hm']
  split_ifs with hlt
  · exact returns_ok (critical_of_maxSuffix hmax hmax' hlt.le hper)
  · exact returns_ok (critical_of_maxSuffix hmax' hmax (Nat.le_of_not_lt hlt) hper')

end Eglibc.TwoWay
