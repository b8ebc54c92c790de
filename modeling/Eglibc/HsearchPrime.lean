import Eglibc.HsearchRun

/-!
# The size of a hash table

The squares of the prime test wrap, and the candidate is not held below `2 ^ 32`.
-/
namespace Eglibc.Hsearch
open Checked DoubleHash TrialDivision

/-- `1 + hval % (htab->size - 2)` -/
def secondHash (size hval : ℕ) : ℕ := 1 + hval % ((size + (2 ^ 32 - 2)) % 2 ^ 32)

/-- The index after `idx` in `probeBody`. -/
def nextIdx (size hval2 idx : ℕ) : ℕ :=
  if idx ≤ hval2 then (size + idx - hval2) % 2 ^ 32 else idx - hval2

/-- The table that is made has a prime size, no smaller than asked for, and every probe
sequence in it visits every slot. -/
def Usable (nel : ℕ) : Prop :=
  ∀ δ : Type, Returns (hcreateR wrapping δ nel false true) fun created => ∃ h, created = some h ∧
    h.size.Prime ∧ nel ≤ h.size ∧ ∀ hval,
      (1 ≤ secondHash h.size hval ∧ secondHash h.size hval ≤ h.size - 1) ∧
      ∀ idx slot, 1 ≤ idx → idx ≤ h.size → 1 ≤ slot → slot ≤ h.size →
        ∃ t, (nextIdx h.size (secondHash h.size hval))^[t] idx = slot

/-- The greatest prime the test accepts. -/
def lastPrime : ℕ := 4294967279

lemma lastPrime_prime : lastPrime.Prime := by
  have hnone : noDivisor lastPrime 32767 = true := by decide +kernel
  exact prime_of_undivided rfl (by decide) (undivided_of_noDivisor hnone) (by decide) (by decide)

lemma iterate_nextIdx (hsize : size < 2 ^ 32) (t : ℕ) :
    (nextIdx size d)^[t] idx = probe size d idx t := by
  induction t with
  | zero => rfl
  | succ t ih =>
    rw [Function.iterate_succ_apply', ih, probe, nextIdx, back]
    split_ifs with hle
    · exact Nat.mod_eq_of_lt (by omega)
    · rfl

lemma primeBody_wrapping {nel : ℕ} (hodd : nel % 2 = 1) (hn : 3 ≤ nel) (hlt : nel < 2 ^ 32) :
    ∃ b, primeBody wrapping nel = .ok (if b then .inr nel else .inl ((nel + 2) % 2 ^ 64)) ∧
      (b = true ↔ nel.Prime ∧ ∃ d, d % 2 = 1 ∧ 3 ≤ d ∧ d < nel ∧ nel ≤ d * d % 2 ^ 32) := by
  obtain ⟨b, hb, hiff⟩ := isprime_returns hodd hn
  refine ⟨b, ?_, hiff⟩
  simp only [primeBody, wrapping, ok_bind, Nat.mod_eq_of_lt hlt]
  change (isprime wrapping nel >>= _) = _
  rw [hb, ok_bind]
  cases b <;> rfl

theorem primeSearch_returns {nel : ℕ} (h : nel ≤ lastPrime) :
    Returns (primeSearch wrapping nel) fun p => p.Prime ∧ nel ≤ p ∧ 5 ≤ p ∧ p < 2 ^ 32 := by
  unfold lastPrime at h
  refine iterate_returns (I := fun n => n % 2 = 1 ∧ 3 ≤ n ∧ nel ≤ n ∧ n ≤ lastPrime)
    (lastPrime - ·) ?_ ?_ (by dsimp only [lastPrime]; omega)
  · rintro n ⟨hodd, h3, hle, hmax⟩
    unfold lastPrime at hmax
    obtain ⟨b, hb, hiff⟩ := primeBody_wrapping hodd h3 (by omega)
    rw [hb]
    cases b with
    | true =>
      obtain ⟨hp, d, -, hd, hlt, -⟩ := hiff.mp rfl
      exact returns_ok ⟨hp, hle, by omega, by omega⟩
    | false =>
      have hne : n ≠ lastPrime := by
        rintro rfl
        exact absurd (hiff.mpr ⟨lastPrime_prime, 479772853, by decide⟩) Bool.false_ne_true
      unfold lastPrime at hne
      have hnext : (n + 2) % 2 ^ 64 = n + 2 := Nat.mod_eq_of_lt (by omega)
      rw [hnext]
      refine returns_ok ⟨⟨by omega, by omega, by omega, ?_⟩, ?_⟩ <;> dsimp only [lastPrime] <;> omega
  · have hodd : ((if nel < 3 then 3 else nel) ||| 1) % 2 = 1 :=
      Nat.or_mod_two_eq_one.mpr (.inr rfl)
    have hdiv : ((if nel < 3 then 3 else nel) ||| 1) / 2 = (if nel < 3 then 3 else nel) / 2 := by
      rw [Nat.or_div_two]
      exact Nat.or_zero _
    unfold lastPrime
    split_ifs at hodd hdiv ⊢ <;> omega

lemma usable_of_le {nel : ℕ} (h : nel ≤ lastPrime) : Usable nel := by
  intro δ
  obtain ⟨p, hp, hprime, hle, h5, hlt⟩ := primeSearch_returns h
  have hfact : Fact p.Prime := ⟨hprime⟩
  refine ⟨some ⟨List.replicate ((p % 2 ^ 32 + 1) % 2 ^ 32) ⟨0, none⟩, p % 2 ^ 32, 0⟩, ?_, ?_⟩
  · rw [hcreateR, hp]
    rfl
  refine ⟨_, rfl, ?_⟩
  dsimp only
  rw [Nat.mod_eq_of_lt hlt]
  refine ⟨hprime, hle, ?_⟩
  intro hval
  have hsub : (p + (2 ^ 32 - 2)) % 2 ^ 32 = p - 2 := by omega
  have hhash : 1 ≤ secondHash p hval ∧ secondHash p hval ≤ p - 1 := by
    rw [secondHash, hsub]
    have := Nat.mod_lt hval (show 0 < p - 2 by omega)
    omega
  refine ⟨hhash, ?_⟩
  intro idx slot h1 hidx h1' hslot
  obtain ⟨t, -, ht⟩ := exists_probe (n := p) (d := secondHash p hval) (by omega) (by omega)
    ⟨h1, hidx⟩ ⟨h1', hslot⟩
  exact ⟨t, by rw [iterate_nextIdx hlt, ht]⟩

/-- The square of an odd number is 1 more than a multiple of 8, also as it wraps: the prime
after `lastPrime` is refused, and no other number above it is prime. -/
lemma refused_of_lt {n : ℕ} (h : lastPrime < n) (hlt : n < 2 ^ 32) :
    isprime wrapping n = .ok true → ¬ n.Prime := by
  intro hrun hp
  unfold lastPrime at h
  have hn : n = 4294967291 := by
    interval_cases n <;> first | rfl | norm_num at hp
  obtain ⟨b, hb, hiff⟩ := @isprime_returns 4294967291 (by decide) (by decide)
  rw [hn, hb] at hrun
  obtain ⟨-, d, hd, -, -, hsq⟩ := hiff.mp (Except.ok.inj hrun)
  have hmod : d * d % 8 = 1 := by
    have : d % 8 = 1 ∨ d % 8 = 3 ∨ d % 8 = 5 ∨ d % 8 = 7 := by omega
    rcases this with h | h | h | h <;> rw [Nat.mul_mod, h]
  omega

lemma not_usable_of_lt {nel : ℕ} (h : lastPrime < nel) : ¬ Usable nel := by
  intro husable
  obtain ⟨created, hcreated, table, rfl, hprime, hle, -⟩ := husable Unit
  rw [hcreateR, if_neg Bool.false_ne_true] at hcreated
  obtain ⟨p, hp, htable⟩ := ok_of_bind hcreated
  have haccepted : isprime wrapping (p % 2 ^ 32) = .ok true := by
    refine iterate_ok (I := fun _ => True)
      (Q := fun p => isprime wrapping (p % 2 ^ 32) = .ok true) (fun _ _ _ _ => trivial) ?_ trivial hp
    intro n r _ hbody
    simp only [primeBody, wrapping, ok_bind] at hbody
    obtain ⟨b, hb, hout⟩ := ok_of_bind hbody
    cases b <;> cases hout
    exact hb
  rw [if_pos rfl] at htable
  cases htable
  exact refused_of_lt (h.trans_le hle) (Nat.mod_lt p (by decide)) haccepted hprime

theorem hcreateR_usable_iff (nel : Fin (2 ^ 32)) : Usable nel ↔ nel ≤ lastPrime := by
  constructor
  · intro husable
    by_contra hgt
    exact not_usable_of_lt (not_le.mp hgt) husable
  · exact usable_of_le

theorem hcreateR_not_usable : ¬ Usable 4294967280 := not_usable_of_lt (by decide)

end Eglibc.Hsearch
