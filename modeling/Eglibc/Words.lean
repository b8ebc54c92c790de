import Mathlib

/-!
# Words, periods and critical positions

A word of length `n` is read off a function `w : ℕ → α`.
-/
namespace Eglibc.Words
variable {α : Type} {r : α → α → Prop} {w h : ℕ → α} {n l m p q j i : ℕ}

/-- The factor of `w` on `[a, n)` has period `p`. -/
def Period (w : ℕ → α) (a n p : ℕ) : Prop := ∀ i, a ≤ i → i + p < n → w i = w (i + p)

/-- A repetition of length `q` is centred at position `l`. -/
def Repetition (w : ℕ → α) (n l q : ℕ) : Prop :=
  ∀ i, i < l → l ≤ i + q → i + q < n → w i = w (i + q)

def Beaten (r : α → α → Prop) (w : ℕ → α) (n s m : ℕ) : Prop :=
  ∃ e, s + e < n ∧ m + e < n ∧ (∀ x < e, w (s + x) = w (m + x)) ∧ r (w (s + e)) (w (m + e))

/-- The suffix at `s` is a proper prefix of the suffix at `m`. -/
def Shorter (w : ℕ → α) (n s m : ℕ) : Prop := m < s ∧ ∀ x, s + x < n → w (s + x) = w (m + x)

/-- The suffix at `m` is the lexicographically largest one. -/
def MaxSuffix (r : α → α → Prop) (w : ℕ → α) (n m : ℕ) : Prop :=
  m < n ∧ ∀ s < n, s ≠ m → Beaten r w n s m ∨ Shorter w n s m

structure LeastPeriod (w : ℕ → α) (a n p : ℕ) : Prop where
  pos : 0 < p
  fits : a + p ≤ n
  period : Period w a n p
  least : ∀ q, 0 < q → q < p → ¬ Period w a n q

lemma Period.repetition (hp : Period w 0 n p) : Repetition w n l p :=
  fun i _ _ hn => hp i (Nat.zero_le i) hn

lemma Period.suffix (hp : Period w 0 n p) (a : ℕ) : Period w a n p :=
  fun i _ hn => hp i (Nat.zero_le i) hn

lemma Period.extend (hp : Period w l n p) (hl : ∀ i < l, i + p < n → w i = w (i + p)) :
    Period w 0 n p := by
  intro i _ hn
  by_cases hi : i < l
  · exact hl i hi hn
  · exact hp i (Nat.le_of_not_lt hi) hn

lemma Period.mul (hp : Period w l n p) (t : ℕ) (hi : l ≤ i) (hn : i + t * p < n) :
    w (i + t * p) = w i := by
  induction t with
  | zero => simp
  | succ t ih =>
    rw [Nat.succ_mul] at hn ⊢
    rw [← ih (by omega), hp (i + t * p) (by omega) (by omega)]
    congr 1
    omega

section
variable [IsStrictOrder α r]

lemma Beaten.trans (hab : Beaten r w n a b) (hbc : Beaten r w n b c) : Beaten r w n a c := by
  obtain ⟨e, hae, hbe, heq, hlt⟩ := hab
  obtain ⟨f, hbf, hcf, hfq, hft⟩ := hbc
  rcases lt_trichotomy e f with hef | rfl | hfe
  · refine ⟨e, hae, by omega, fun x hx => (heq x hx).trans (hfq x (by omega)), ?_⟩
    rwa [← hfq e hef]
  · exact ⟨e, hae, hcf, fun x hx => (heq x hx).trans (hfq x hx), trans_of r hlt hft⟩
  · refine ⟨f, by omega, hcf, fun x hx => (heq x (by omega)).trans (hfq x hx), ?_⟩
    rwa [heq f hfe]

lemma Beaten.irrefl : ¬ Beaten r w n a a := by
  rintro ⟨e, _, _, _, hlt⟩
  exact irrefl_of r _ hlt

lemma MaxSuffix.not_beaten (hm : MaxSuffix r w n m) (hs : s < n) : ¬ Beaten r w n m s := by
  intro hb
  by_cases he : s = m
  · subst he
    exact Beaten.irrefl hb
  rcases hm.2 s hs he with hb' | ⟨_, hx⟩
  · exact Beaten.irrefl (hb.trans hb')
  · obtain ⟨e, _, hse, _, hlt⟩ := hb
    rw [hx e hse] at hlt
    exact irrefl_of r _ hlt

theorem MaxSuffix.lt_of_repetition (hm : MaxSuffix r w n l) (hq : Repetition w n l q)
    (hpos : 0 < q) : l < q := by
  by_contra hle
  rcases hm.2 (l - q) (by have := hm.1; omega) (by omega) with ⟨e, hse, hle', heq, hlt⟩ | ⟨hlt, _⟩
  · by_cases hqe : e < q
    · have hw := hq (l - q + e) (by omega) (by omega) (by omega)
      rw [show l - q + e + q = l + e by omega] at hw
      rw [hw] at hlt
      exact irrefl_of r _ hlt
    -- The suffix one repetition further right would beat the maximal one.
    refine hm.not_beaten (s := l + q) (by omega) ⟨e - q, by omega, by omega, ?_, ?_⟩
    · intro x hx
      have hw := heq (q + x) (by omega)
      rwa [show l - q + (q + x) = l + x by omega, ← Nat.add_assoc] at hw
    · rwa [show l - q + e = l + (e - q) by omega, show l + e = l + q + (e - q) by omega] at hlt
  · omega

/-- The critical factorization theorem. -/
theorem period_of_repetition (hm : MaxSuffix r w n l)
    (hr : MaxSuffix (Function.swap r) w n m) (hml : m ≤ l)
    (hq : Repetition w n l q) (hpos : 0 < q) : Period w 0 n q := by
  have hlq := hm.lt_of_repetition hq hpos
  intro i _ hin
  by_cases hil : i < l
  · exact hq i hil (by omega) hin
  rcases hm.2 (l + q) (by omega) (by omega) with ⟨e, hse, hle, heq, hlt⟩ | ⟨_, hx⟩
  · -- A loss in one order is a win in the other, carried back to the other maximal suffix.
    refine absurd ?_ (hr.not_beaten (s := m + q) (by omega))
    refine ⟨l - m + e, by omega, by omega, ?_, ?_⟩
    · intro x hx
      by_cases hxl : m + x < l
      · have hw := hq (m + x) hxl (by omega) (by omega)
        rw [hw]
        congr 1
        omega
      have hw := heq (m + x - l) (by omega)
      rw [show l + q + (m + x - l) = m + q + x by omega,
        show l + (m + x - l) = m + x by omega] at hw
      exact hw.symm
    · rwa [show m + q + (l - m + e) = l + q + e by omega, show m + (l - m + e) = l + e by omega]
  · have hw := hx (i - l) (by omega)
    rw [show l + q + (i - l) = i + q by omega, show l + (i - l) = i by omega] at hw
    exact hw.symm

end

/-- What the search relies on: a position whose repetitions are all global periods
longer than the left part, and the least period of the right part. -/
structure Critical (w : ℕ → α) (n l p : ℕ) : Prop where
  lt : l < n
  right : LeastPeriod w l n p
  global : ∀ q, 0 < q → Repetition w n l q → Period w 0 n q
  left : ∀ q, 0 < q → Repetition w n l q → l < q

lemma critical_of_maxSuffix [IsStrictOrder α r] (hm : MaxSuffix r w n l)
    (hr : MaxSuffix (Function.swap r) w n m) (hml : m ≤ l) (hp : LeastPeriod w l n p) :
    Critical w n l p where
  lt := hm.1
  right := hp
  global _ hpos hq := period_of_repetition hm hr hml hq hpos
  left _ hpos hq := hm.lt_of_repetition hq hpos

section
variable (hc : Critical w n l p)
include hc

/-- When the period of the right part is not a period of the word, every repetition
centred at the critical position is longer than the right part. -/
theorem Critical.long_repetition (hn : ¬ Period w 0 n p) :
    ∀ q, 0 < q → Repetition w n l q → n < l + q := by
  intro q
  induction q using Nat.strong_induction_on with
  | _ q ih =>
    intro hpos hq
    by_contra hle
    have hper := hc.global q hpos hq
    have hpq : p ≤ q := Nat.le_of_not_lt fun hqp => hc.right.least q hpos hqp (hper.suffix l)
    have hne : p ≠ q := fun he => hn (he ▸ hper)
    -- The border of the first `q` letters of the right part is a shorter repetition.
    have hshort : Repetition w n l (q - p) := by
      intro i hil hli hin
      rw [hper i (Nat.zero_le i) (by omega), hc.right.period (i + (q - p)) hli (by omega)]
      congr 1
      omega
    have hpp := hc.right.pos
    have := ih (q - p) (by omega) (by omega) hshort
    omega

/-- `w` occurs in `h` at position `j`. -/
def Occurs (h w : ℕ → α) (n j : ℕ) : Prop := ∀ i < n, h (j + i) = w i

omit hc in
lemma Occurs.repetition (ho : Occurs h w n (j + q)) (hm : ∀ x, l ≤ x → x < i → h (j + x) = w x)
    (hi : l + q ≤ i ∨ n ≤ i) : Repetition w n l q := by
  intro x hxl hlx hxn
  rw [← ho x (by omega), ← hm (x + q) hlx (by omega)]
  congr 1
  omega

theorem Critical.right_shift (hli : l ≤ i) (hin : i < n)
    (hm : ∀ x, l ≤ x → x < i → h (j + x) = w x) (hne : h (j + i) ≠ w i)
    (hpos : 0 < q) (hq : q ≤ i - l) : ¬ Occurs h w n (j + q) := by
  intro ho
  have hper := hc.global q hpos (ho.repetition hm (.inl (by omega)))
  have hw := hper (i - q) (Nat.zero_le _) (by omega)
  have hh := ho (i - q) (by omega)
  rw [show j + q + (i - q) = j + i by omega, hw, show i - q + q = i by omega] at hh
  exact hne hh

theorem Critical.period_shift (hm : ∀ x, l ≤ x → x < n → h (j + x) = w x)
    (hpos : 0 < q) (hq : q < p) : ¬ Occurs h w n (j + q) := by
  intro ho
  have hper := hc.global q hpos (ho.repetition hm (.inr le_rfl))
  exact hc.right.least q hpos hq (hper.suffix l)

theorem Critical.long_shift (hn : ¬ Period w 0 n p) (hm : ∀ x, l ≤ x → x < n → h (j + x) = w x)
    (hpos : 0 < q) (hq : q ≤ max l (n - l)) : ¬ Occurs h w n (j + q) := by
  intro ho
  have hrep := ho.repetition (l := l) hm (.inr le_rfl)
  have h1 := hc.left q hpos hrep
  have h2 := hc.long_repetition hn q hpos hrep
  omega

theorem Critical.memory (hp : Period w 0 n p) (hm : ∀ x, l ≤ x → x < n → h (j + x) = w x) :
    ∀ x < n - p, h (j + p + x) = w x := by
  intro x hx
  have hlp := hc.left p hc.right.pos hp.repetition
  rw [Nat.add_assoc, hm (p + x) (by omega) (by omega), hp x (Nat.zero_le x) (by omega), Nat.add_comm]

end

/-- When all but the last period of a periodic word is known to match and the last
letter does not, no window that still covers the mismatch can match. -/
theorem not_occurs_of_memory (hp : Period w 0 n p)
    (hm : ∀ x < n - p, h (j + x) = w x) (hne : h (j + (n - 1)) ≠ w (n - 1))
    (hpos : 0 < p) (hpn : p < n) (hq : q < n - p) : ¬ Occurs h w n (j + q) := by
  intro ho
  have h1 := ho (n - 1 - q) (by omega)
  have h2 := hp (n - 1 - q - p) (Nat.zero_le _) (by omega)
  have h3 := ho (n - 1 - q - p) (by omega)
  have h4 := hm (n - 1 - p) (by omega)
  have h5 := hp (n - 1 - p) (Nat.zero_le _) (by omega)
  rw [show j + q + (n - 1 - q) = j + (n - 1) by omega] at h1
  rw [show n - 1 - q - p + p = n - 1 - q by omega] at h2
  rw [show j + q + (n - 1 - q - p) = j + (n - 1 - p) by omega] at h3
  rw [show n - 1 - p + p = n - 1 by omega] at h5
  exact hne (by rw [h1, ← h2, ← h3, h4, h5])

section

/-- The state of a scan for the maximal suffix: the best suffix so far starts at `m`, its
letters up to `j + k` repeat with period `p`, those from `j + 1` on are the next lap, and
the first lap exceeds all its proper suffixes. -/
structure Scan (r : α → α → Prop) (w : ℕ → α) (n m j k p : ℕ) : Prop where
  k_pos : 0 < k
  k_le : k ≤ p
  laps : ∃ t, j + 1 = m + (t + 1) * p
  fits : j + k ≤ n
  period : Period w m (j + k) p
  strict : ∀ d, 0 < d → d < p →
    ∃ e, d + e < p ∧ (∀ x < e, w (m + d + x) = w (m + x)) ∧ r (w (m + d + e)) (w (m + e))
  before : ∀ s < m, Beaten r w n s m

variable {k : ℕ}

lemma Scan.start (r : α → α → Prop) (w : ℕ → α) (hn : 0 < n) : Scan r w n 0 0 1 1 where
  k_pos := Nat.one_pos
  k_le := le_rfl
  laps := ⟨0, rfl⟩
  fits := hn
  period i _ h := by omega
  strict d h0 h1 := by omega
  before s h := absurd h (Nat.not_lt_zero s)

section
variable (hs : Scan r w n m j k p)
include hs

lemma Scan.lap_le : m + p ≤ j + 1 := by
  obtain ⟨t, ht⟩ := hs.laps
  rw [ht, Nat.succ_mul]
  omega

lemma Scan.current (hx : x + 1 < k) : w (j + 1 + x) = w (m + x) := by
  obtain ⟨t, ht⟩ := hs.laps
  have := hs.period.mul (t + 1) (Nat.le_add_right m x) (by omega)
  rwa [show m + x + (t + 1) * p = j + 1 + x by omega] at this

theorem Scan.later (hms : m < s) :
    (∃ e, s + e < j + k ∧ (∀ x < e, w (s + x) = w (m + x)) ∧ r (w (s + e)) (w (m + e))) ∨
      ∀ x, s + x < j + k → w (s + x) = w (m + x) := by
  have hp : 0 < p := hs.k_pos.trans_le hs.k_le
  -- `s` lies `d` letters into a lap; wherever the lap is known it repeats the first one.
  obtain ⟨t, d, hd, hsd⟩ : ∃ t d, d < p ∧ s = m + d + t * p := by
    refine ⟨(s - m) / p, (s - m) % p, Nat.mod_lt _ hp, ?_⟩
    have := Nat.mod_add_div (s - m) p
    rw [Nat.mul_comm] at this
    omega
  have hlap : ∀ x, s + x < j + k → w (s + x) = w (m + d + x) := by
    intro x hx
    have := hs.period.mul t (i := m + d + x) (by omega) (by omega)
    rwa [show m + d + x + t * p = s + x by omega] at this
  rcases Nat.eq_zero_or_pos d with rfl | hd0
  · exact .inr hlap
  obtain ⟨e, hde, heq, hlt⟩ := hs.strict d hd0 hd
  by_cases hse : s + e < j + k
  · refine .inl ⟨e, hse, fun x hx => (hlap x (by omega)).trans (heq x hx), ?_⟩
    rwa [hlap e hse]
  · exact .inr fun x hx => (hlap x hx).trans (heq x (by omega))

lemma Scan.finish [IsStrictOrder α r] (he : j + k = n) :
    MaxSuffix r w n m ∧ LeastPeriod w m n p := by
  have hp : 0 < p := hs.k_pos.trans_le hs.k_le
  have hlap := hs.lap_le
  have hk := hs.k_pos
  refine ⟨⟨by omega, fun s hsn hne => ?_⟩, hp, by omega, he ▸ hs.period, ?_⟩
  · rcases Nat.lt_or_ge s m with hsm | hsm
    · exact .inl (hs.before s hsm)
    · rcases hs.later (s := s) (by omega) with ⟨e, hse, heq, hlt⟩ | htie
      · exact .inl ⟨e, by omega, by omega, heq, hlt⟩
      · exact .inr ⟨by omega, fun x hx => htie x (by omega)⟩
  · intro q hq0 hqp hper
    obtain ⟨e, hqe, _, hlt⟩ := hs.strict q hq0 hqp
    rw [hper (m + e) (by omega) (by omega), Nat.add_right_comm] at hlt
    exact irrefl_of r _ hlt

lemma Scan.period_succ (heq : w (j + k) = w (m + k - 1)) : Period w m (j + k + 1) p := by
  intro i hmi hi
  by_cases hlt : i + p < j + k
  · exact hs.period i hmi hlt
  obtain ⟨t, ht⟩ := hs.laps
  have hk := hs.k_pos
  have hkp := hs.k_le
  rw [Nat.succ_mul] at ht
  have := hs.period.mul t (i := m + k - 1) (by omega) (by omega)
  rw [show i + p = j + k by omega, heq, ← this]
  congr 1
  omega

lemma Scan.equal_inside (hn : j + k < n)
    (heq : w (j + k) = w (m + k - 1)) (hk : k ≠ p) : Scan r w n m j (k + 1) p where
  k_pos := Nat.succ_pos k
  k_le := by have := hs.k_le; omega
  laps := hs.laps
  fits := hn
  period := hs.period_succ heq
  strict := hs.strict
  before := hs.before

omit hs in
lemma Scan.equal_lap (hs : Scan r w n m j p p) (hn : j + p < n)
    (heq : w (j + p) = w (m + p - 1)) : Scan r w n m (j + p) 1 p where
  k_pos := Nat.one_pos
  k_le := hs.k_pos
  laps := by
    obtain ⟨t, ht⟩ := hs.laps
    refine ⟨t + 1, ?_⟩
    rw [Nat.succ_mul]
    omega
  fits := hn
  period := hs.period_succ heq
  strict := hs.strict
  before := hs.before

/-- Where a suffix has tied so far, the letter it is up against is no smaller than
the one the period predicts. -/
theorem Scan.expected [IsStrictOrder α r] (hms : m < s)
    (hsj : s ≤ j + k) (htie : ∀ x, s + x < j + k → w (s + x) = w (m + x)) :
    w (m + k - 1) = w (m + (j + k - s)) ∨ r (w (m + k - 1)) (w (m + (j + k - s))) := by
  have hlap := hs.lap_le
  have hk := hs.k_pos
  -- Inside the first lap the suffix would have lost already.
  have hsp : m + p ≤ s := by
    by_contra hlt
    obtain ⟨e, hde, _, hr⟩ := hs.strict (s - m) (by omega) (by omega)
    rw [show m + (s - m) = s by omega, htie e (by omega)] at hr
    exact irrefl_of r _ hr
  have hpred : w (j + k - p) = w (m + k - 1) := by
    obtain ⟨t, ht⟩ := hs.laps
    rw [Nat.succ_mul] at ht
    have := hs.period.mul t (i := m + k - 1) (by omega) (by have := hs.k_le; omega)
    rwa [show m + k - 1 + t * p = j + k - p by omega] at this
  rw [← hpred, show j + k - p = s - p + (j + k - s) by omega]
  rcases Nat.eq_or_lt_of_le hsp with he | hlt
  · simp [← he]
  have hback : ∀ x, s + x < j + k → w (s - p + x) = w (m + x) := by
    intro x hx
    rw [hs.period (s - p + x) (by omega) (by omega), show s - p + x + p = s + x by omega]
    exact htie x hx
  rcases hs.later (s := s - p) (by omega) with ⟨e, hse, heq, hr⟩ | htie'
  · rcases lt_trichotomy e (j + k - s) with hlt' | rfl | hgt
    · rw [hback e (by omega)] at hr
      exact absurd hr (irrefl_of r _)
    · exact .inr hr
    · exact .inl (heq _ hgt)
  · exact .inl (htie' _ (by have := hs.k_le; omega))

theorem Scan.smaller [IsStrictOrder α r] (hn : j + k < n)
    (hlt : r (w (j + k)) (w (m + k - 1))) : Scan r w n m (j + k) 1 (j + k + 1 - m) where
  k_pos := Nat.one_pos
  k_le := by have := hs.lap_le; have := hs.k_pos; omega
  laps := ⟨0, by have := hs.lap_le; omega⟩
  fits := hn
  period i hmi hi := by omega
  before := hs.before
  strict d hd0 hdp := by
    rcases hs.later (s := m + d) (by omega) with ⟨e, hse, heq, hr⟩ | htie
    · exact ⟨e, by omega, heq, hr⟩
    refine ⟨j + k - (m + d), by omega, fun x hx => htie x (by omega), ?_⟩
    rw [show m + d + (j + k - (m + d)) = j + k by omega]
    rcases hs.expected (s := m + d) (by omega) (by omega) htie with he | hr
    · rwa [← he]
    · exact trans_of r hlt hr

theorem Scan.larger [IsStrictOrder α r] (hn : j + k < n)
    (hlt : r (w (m + k - 1)) (w (j + k))) : Scan r w n (j + 1) (j + 1) 1 1 where
  k_pos := Nat.one_pos
  k_le := le_rfl
  laps := ⟨0, rfl⟩
  fits := by have := hs.k_pos; omega
  period i hmi hi := by omega
  strict d h0 h1 := by omega
  before s hsj := by
    have hk := hs.k_pos
    have hlap := hs.lap_le
    have hkp := hs.k_le
    have hlose : ∀ {a}, a < j + 1 → (∀ x < k - 1, w (a + x) = w (m + x)) →
        w (a + (k - 1)) = w (m + (k - 1)) → Beaten r w n a (j + 1) := by
      intro a ha hx hw
      refine ⟨k - 1, by omega, by omega, fun x hxk => ?_, ?_⟩
      · rw [hx x hxk, hs.current (by omega)]
      · rwa [hw, show j + 1 + (k - 1) = j + k by omega, show m + (k - 1) = m + k - 1 by omega]
    have hm : Beaten r w n m (j + 1) := hlose (by omega) (fun _ _ => rfl) rfl
    rcases lt_trichotomy s m with hsm | rfl | hms
    · exact (hs.before s hsm).trans hm
    · exact hm
    · rcases hs.later hms with ⟨e, hse, heq, hr⟩ | htie
      · exact Beaten.trans ⟨e, by omega, by omega, heq, hr⟩ hm
      · exact hlose hsj (fun x hx => htie x (by omega)) (htie _ (by omega))

end

end

end Eglibc.Words
