import Eglibc.Bytes
import Eglibc.TwoWaySearch

/-! # The search for a needle whose halves are distinct, and both search functions -/
namespace Eglibc.TwoWay
open Checked Words

variable {M : Macros} {hay needle : List UInt8} {n L : ℕ} {known : ℕ → ℕ → Prop}
variable {l p : ℕ} {table : List ℕ}

structure LongInv (M : Macros) (hay needle : List UInt8) (n L : ℕ) (known : ℕ → ℕ → Prop)
    (s : ℕ × ℕ) : Prop where
  j_le : s.1 ≤ L
  known : known s.2 (s.1 + n)
  clean : Clean (text M hay) (text M needle) n L s.1

lemma longDistinctBody_returns (W : Window M hay needle n L known)
    (hc : Critical (text M needle) n l p) (hp : ¬ Period (text M needle) 0 n p) (hl : 0 < l)
    (ht : ShiftTable (text M needle) n n table)
    (s : ℕ × ℕ) (hs : LongInv M hay needle n L known s) :
    Returns (longDistinctBody M hay needle n l (max l (n - l) + 1) table s)
      (Pass (LongInv M hay needle n L known) (fun s => L + 1 - s.1)
        (Found (text M hay) (text M needle) n L) s) := by
  have hin := W.inside
  have hnl := W.n_le
  have hn := W.n_lt
  have hpos := W.n_pos
  have hlt := hc.lt
  obtain ⟨j, hl₀⟩ := s
  obtain ⟨hjL, hkn, hclean⟩ := hs
  refine (W.available hkn hjL hpos le_rfl).bind ?_
  rintro ⟨ok, hl⟩ ⟨hok, hknown⟩
  dsimp only at hok hknown hclean hjL ⊢
  by_cases hj : j + n ≤ L
  · have hentry := ht.2 (text M hay (j + n - 1))
    have hbyte := (text M hay (j + n - 1)).toNat_lt
    rw [if_pos (hok.mpr hj), load_eq 0 (by omega), ok_bind]
    change Returns (load table (text M hay (j + n - 1)).toNat >>= _) _
    rw [load_eq 0 (by rw [ht.1]; exact hbyte), ok_bind]
    generalize table.getD (text M hay (j + n - 1)).toNat 0 = t at hentry ⊢
    have hle := hentry.le
    by_cases ht0 : 0 < t
    · rw [if_pos ht0]
      refine returns_ok ⟨⟨by omega, W.mono (hknown hj) (by omega), ?_⟩,
        by dsimp only; omega⟩
      exact hclean.shift (hentry.not_occurs (q := 0) ht0) fun q _ hq => hentry.not_occurs hq
    obtain rfl : t = 0 := by omega
    have hlast := hentry.last hpos
    refine (scanRight_returns (by omega) (by omega)).bind ?_
    rintro i ⟨hi0, hile, hm, hne⟩
    by_cases hbi : n - 1 ≤ i
    · have hfull : Agree (text M hay) (text M needle) j l n :=
        hm.trans fun x h1 h2 => hlast x (by omega) h2
      rw [if_pos hbi]
      refine (scanLeft_returns (m := 0) (by omega) ?_ (by omega) (by omega)).bind ?_
      · intro c hcl
        simp only [ne_eq, decide_eq_true_iff]
        rw [sizeSub_one_eq_max (by omega)]
        omega
      rintro i ⟨c, rfl, hcl, hleft, hstop⟩
      by_cases hc0 : c = 0
      · rw [if_pos ((sizeSub_one_eq_max (by omega)).mpr hc0)]
        rw [hc0] at hleft
        exact returns_ok ⟨hj, (hleft.trans hfull).occurs, hclean⟩
      rw [if_neg (mt (sizeSub_one_eq_max (by omega)).mp hc0)]
      refine returns_ok ⟨⟨by omega, W.mono (hknown hj) (by omega), ?_⟩,
        by dsimp only; omega⟩
      exact hclean.shift (not_occurs_of_ne (by omega) (hstop (by omega)))
        fun q h1 h2 => hc.long_shift hp hfull h1 (by omega)
    rw [if_neg hbi]
    have hmis := hne (by omega)
    refine returns_ok ⟨⟨by omega, W.mono (hknown hj) (by omega), ?_⟩,
      by dsimp only; omega⟩
    exact hclean.shift (not_occurs_of_ne (by omega) hmis)
      fun q h1 h2 => hc.right_shift (by omega) (by omega) hm hmis h1 (by omega)
  · rw [if_neg (mt hok.mp hj)]
    exact returns_ok (hclean.none (by omega))

section

/-- The window under test starts at `phaystack - suffix`. Without `CHECK_EOL` that is
`j`; with it, `j` may be out of date and `phaystack` stays inside the string. -/
structure ShortInv (M : Macros) (hay needle : List UInt8) (n L : ℕ) (known : ℕ → ℕ → Prop)
    (l : ℕ) (s : Distinct) : Prop where
  le : l ≤ s.phaystack
  j_le : s.phaystack - l ≤ L
  known : known s.haystackLen (s.phaystack - l + n)
  clean : Clean (text M hay) (text M needle) n L (s.phaystack - l)
  j_eq : M.checkEol = false → s.j = s.phaystack - l
  inside : M.checkEol = true → s.phaystack ≤ L

abbrev ShortPass (M : Macros) (hay needle : List UInt8) (n L : ℕ) (known : ℕ → ℕ → Prop)
    (l j : ℕ) : Distinct ⊕ Option ℕ → Prop
  | .inl s => ShortInv M hay needle n L known l s ∧ j < s.phaystack - l
  | .inr r => Found (text M hay) (text M needle) n L r

section
variable (W : Window M hay needle n L known)
include W

theorem Window.none_of_nul (he : M.checkEol = true)
    (hi : i < n) (hij : j + i ≤ L) (h0 : text M hay (j + i) = 0)
    (hclean : Clean (text M hay) (text M needle) n L j) :
    Found (text M hay) (text M needle) n L none := by
  refine hclean.none ?_
  by_contra hle
  exact W.eolText he (j + i) (by omega) h0

lemma Window.lt_of_ne (he : M.checkEol = true) (hi : i ≤ L) (h0 : text M hay i ≠ 0) : i < L := by
  refine lt_of_le_of_ne hi ?_
  rintro rfl
  exact h0 (W.eolEnd he).2

/-- Which letters of the window at `j` may be read, and how far a match can reach. -/
def Reach (M : Macros) (n L j : ℕ) : Prop := M.checkEol = false → j + n ≤ L

lemma Window.readable (hr : Reach M n L j) (hi : i < n) (hij : j + i ≤ L) : j + i < hay.length := by
  have hin := W.inside
  cases he : M.checkEol with
  | false => have := hr he; omega
  | true => have := (W.eolEnd he).1; omega

lemma Window.lt_of_match (hr : Reach M n L j)
    (hi : i < n) (hij : j + i ≤ L) (hm : text M hay (j + i) = text M needle i) : j + i < L := by
  cases he : M.checkEol with
  | false => have := hr he; omega
  | true => exact W.lt_of_ne he hij (hm ▸ W.eolNeedle he i hi)

lemma Window.lt_of_mismatch (hr : Reach M n L j)
    (hi : i < n) (hij : j + i ≤ L) (h0 : ¬ (M.ret0If0 = true ∧ text M hay (j + i) = 0)) :
    j + i < L := by
  cases he : M.checkEol with
  | false => have := hr he; omega
  | true =>
    refine W.lt_of_ne he hij fun hz => h0 ⟨?_, hz⟩
    rw [W.ret0, he]

lemma eolRight_returns (hr : Reach M n L j)
    (hln : l < n) (hjl : j + l < L) (hl : text M hay (j + l) = text M needle l)
    (hclean : Clean (text M hay) (text M needle) n L j) :
    Returns (iterate (eolRightBody M hay needle n) (n + 1) (l + 1, l + j + 1))
      (fun o => match o with
        | .ret0 => Found (text M hay) (text M needle) n L none
        | .stop i => l < i ∧ i ≤ n ∧ j + i ≤ L ∧
            Agree (text M hay) (text M needle) j l i ∧
            (i < n → j + i < L ∧ text M hay (j + i) ≠ text M needle i)) := by
  have hnl := W.n_le
  refine iterate_returns (I := fun s => l < s.1 ∧ s.1 ≤ n ∧ s.2 = j + s.1 ∧ j + s.1 ≤ L ∧
    Agree (text M hay) (text M needle) j l s.1) (fun s => n - s.1) ?_
    ⟨Nat.lt_succ_self l, hln, by omega, by omega, agree_one hl⟩
    (by omega)
  rintro ⟨i, ph⟩ ⟨hli, hin, hph, hij, hm⟩
  dsimp only at hli hin hph hij hm
  subst hph
  unfold eolRightBody
  dsimp only
  split_ifs with hlt
  · rw [load_eq 0 (by omega), ok_bind, load_eq 0 (W.readable hr hlt hij), ok_bind]
    split_ifs with hne h0
    · exact returns_ok (W.none_of_nul (W.ret0 ▸ h0.1) hlt hij h0.2 hclean)
    · exact returns_ok ⟨hli, hin, hij, hm, fun _ => ⟨W.lt_of_mismatch hr hlt hij h0, Ne.symm hne⟩⟩
    · have heq := (not_not.mp hne).symm
      have hnext := W.lt_of_match hr hlt hij heq
      exact returns_ok ⟨⟨by omega, hlt, by omega, by omega,
        hm.trans (agree_one heq)⟩, by dsimp only; omega⟩
  · exact returns_ok ⟨hli, hin, hij, hm, fun h => absurd h hlt⟩

lemma eolLeft_returns (hln : l < n) (hjl : j + l ≤ L) :
    Returns (iterate (eolLeftBody M hay needle j) (l + 1) (sizeSub l 1))
      (fun o => ∃ c, o = .stop (sizeSub c 1) ∧ c ≤ l ∧
        Agree (text M hay) (text M needle) j c l ∧
        (0 < c → text M hay (j + (c - 1)) ≠ text M needle (c - 1))) := by
  have hnl := W.n_le
  have hn := W.n_lt
  have hin := W.inside
  refine iterate_returns (I := fun i => ∃ c, i = sizeSub c 1 ∧ c ≤ l ∧
    Agree (text M hay) (text M needle) j c l) (fun i => sizeAdd i 1) ?_
    ⟨l, rfl, le_rfl, Agree.empty le_rfl⟩
    (by rw [sizeAdd_pred_one (by omega)]; omega)
  rintro i ⟨c, rfl, hc, hm⟩
  unfold eolLeftBody
  rcases Nat.eq_zero_or_pos c with rfl | hc0
  · rw [if_neg (not_not.mpr ((sizeSub_one_eq_max (by omega)).mpr rfl))]
    exact returns_ok ⟨0, rfl, hc, hm, fun h => absurd h (lt_irrefl 0)⟩
  have hpred : sizeSub c 1 = c - 1 := sizeSub_eq hc0 (by omega)
  rw [if_pos (mt (sizeSub_one_eq_max (by omega)).mp hc0.ne'), hpred, load_eq 0 (by omega),
    ok_bind, load_eq 0 (by omega), ok_bind, Nat.add_comm (c - 1) j]
  change Returns (if text M needle (c - 1) ≠ text M hay (j + (c - 1)) then
    if M.ret0If0 = true ∧ text M hay (j + (c - 1)) = 0 then _ else _ else _) _
  split_ifs with hne h0
  · exact absurd h0.2 (W.eolText (W.ret0 ▸ h0.1) _ (by omega))
  · exact returns_ok ⟨c, by rw [hpred], hc, hm, fun _ => Ne.symm hne⟩
  · refine returns_ok ⟨⟨c - 1, rfl, by omega, hm.cons hc0 (not_not.mp hne).symm⟩, ?_⟩
    dsimp only
    rw [sizeAdd_pred_one (by omega), sizeAdd_eq (by omega)]
    omega

lemma nextWindow_returns (hln : l < n)
    (hj : j < s.j) (hL : s.j ≤ L) (hk : known s.haystackLen (s.j + n))
    (hclean : Clean (text M hay) (text M needle) n L s.j) :
    Returns (nextWindow M hay n l s) (ShortPass M hay needle n L known l j) := by
  unfold nextWindow
  cases he : M.checkEol with
  | false =>
    exact returns_ok ⟨⟨by simp, by simpa, by simpa, by simpa, fun _ => by simp,
      fun h => absurd (he.symm.trans h) (by decide)⟩, by simpa⟩
  | true =>
    simp only [if_true]
    refine (W.available hk hL W.n_pos le_rfl).bind ?_
    rintro ⟨ok, hl⟩ ⟨hok, hknown⟩
    by_cases hfit : s.j + n ≤ L
    · rw [if_pos (hok.mpr hfit)]
      refine returns_ok ⟨⟨by simp, by simpa, by simpa using hknown hfit, by simpa,
        fun h => absurd (he.symm.trans h) (by decide), fun _ => ?_⟩, by simpa⟩
      dsimp only
      omega
    · rw [if_neg (mt hok.mp hfit)]
      exact returns_ok (hclean.none (by omega))

lemma distinctWindow_returns
    (hc : Critical (text M needle) n l p) (hp : ¬ Period (text M needle) 0 n p) (hl : 0 < l)
    (hr : Reach M n L s.j) (hjl : s.j + l < L)
    (hph : s.phaystack = l + s.j + 1) (hk : known s.haystackLen (s.j + n))
    (hm : text M hay (s.j + l) = text M needle l)
    (hclean : Clean (text M hay) (text M needle) n L s.j) :
    Returns (distinctWindow M hay needle n l (max l (n - l) + 1) s)
      (ShortPass M hay needle n L known l s.j) := by
  have hln := hc.lt
  have hn := W.n_lt
  unfold distinctWindow
  rw [hph]
  refine (eolRight_returns W hr hln hjl hm hclean).bind ?_
  intro o ho
  cases o with
  | ret0 => exact returns_ok ho
  | stop i =>
    obtain ⟨hli, hin, hij, hright, hstop⟩ := ho
    dsimp only
    by_cases hni : n ≤ i
    · obtain rfl : i = n := by omega
      rw [if_pos hni]
      refine (eolLeft_returns W hln (by omega)).bind ?_
      rintro o ⟨c, rfl, hcl, hleft, hmis⟩
      dsimp only
      by_cases hc0 : c = 0
      · rw [if_pos ((sizeSub_one_eq_max (by omega)).mpr hc0)]
        rw [hc0] at hleft
        exact returns_ok ⟨hij, (hleft.trans hright).occurs, hclean⟩
      rw [if_neg (mt (sizeSub_one_eq_max (by omega)).mp hc0)]
      refine nextWindow_returns W hln (by dsimp only; omega) (by dsimp only; omega)
        (W.mono hk (by dsimp only; omega)) ?_
      exact hclean.shift (not_occurs_of_ne (by omega) (hmis (by omega)))
        fun q h1 h2 => hc.long_shift hp hright h1 (by omega)
    rw [if_neg hni]
    obtain ⟨hlt, hne⟩ := hstop (by omega)
    refine nextWindow_returns W hln (by dsimp only; omega) (by dsimp only; omega)
      (W.mono hk (by dsimp only; omega)) ?_
    exact hclean.shift (not_occurs_of_ne (by omega) hne)
      fun q h1 h2 => hc.right_shift (by omega) (by omega) hright hne h1 (by omega)

lemma shortDistinctBody_returns
    (hc : Critical (text M needle) n l p) (hp : ¬ Period (text M needle) 0 n p) (hl0 : 0 < l)
    (s : Distinct) (hs : ShortInv M hay needle n L known l s) :
    Returns (shortDistinctBody M hay needle n l (max l (n - l) + 1) (text M needle l) s)
      (Pass (ShortInv M hay needle n L known l) (fun s => L + 1 - (s.phaystack - l))
        (Found (text M hay) (text M needle) n L) s) := by
  have hln := hc.lt
  obtain ⟨hle, hjL, hkn, hclean, hjeq, hins⟩ := hs
  obtain ⟨j, hj⟩ : ∃ j, s.phaystack = j + l := ⟨s.phaystack - l, by omega⟩
  rw [hj, Nat.add_sub_cancel] at hjL hkn hclean hjeq
  rw [hj] at hins
  -- The window at `j` may be read as far as a match requires.
  have henter : Returns (loopGuard M hay n s)
      (fun a => (a.1 = true → Reach M n L j ∧ j + l ≤ L ∧ known a.2 (j + n)) ∧
        (a.1 ≠ true → L < j + n)) := by
    unfold loopGuard
    cases he : M.checkEol with
    | true =>
      exact returns_ok ⟨fun _ => ⟨fun h => absurd (he.symm.trans h) (by decide), hins he, hkn⟩,
        fun h => absurd rfl h⟩
    | false =>
      rw [hjeq he]
      refine (W.available hkn hjL W.n_pos le_rfl).mono ?_
      rintro ⟨ok, hl⟩ ⟨hok, hknown⟩
      refine ⟨fun h => ?_, fun h => Nat.lt_of_not_le (mt hok.mpr h)⟩
      have := hok.mp h
      exact ⟨fun _ => this, by omega, hknown this⟩
  refine henter.bind ?_
  rintro ⟨ok, hl⟩ ⟨hgo, hstop⟩
  dsimp only at hgo hstop ⊢
  cases ok with
  | false => exact returns_ok (hclean.none (hstop (by decide)))
  | true =>
    obtain ⟨hr, hjl, hknown⟩ := hgo rfl
    rw [if_pos rfl, hj, load_eq 0 (W.readable hr hln hjl), ok_bind]
    change Returns (if text M needle l ≠ text M hay (j + l) then
      if M.ret0If0 = true ∧ text M hay (j + l) = 0 then _ else _ else _) _
    by_cases hm : text M hay (j + l) = text M needle l
    · have hlt := W.lt_of_match hr hln hjl hm
      have hjj : (if M.checkEol = true then j + l + 1 - l - 1 else s.j) = j := by
        split_ifs with he
        · omega
        · exact hjeq (by simpa using he)
      rw [if_neg (not_not.mpr hm.symm), hjj]
      refine (distinctWindow_returns W hc hp hl0 hr hlt (by dsimp only; omega) hknown hm
        hclean).mono ?_
      intro o ho
      cases o with
      | inl s' => exact ⟨ho.1, by dsimp only at *; omega⟩
      | inr r => exact ho
    rw [if_pos (Ne.symm hm)]
    by_cases h0 : M.ret0If0 = true ∧ text M hay (j + l) = 0
    · rw [if_pos h0]
      exact returns_ok (W.none_of_nul (W.ret0 ▸ h0.1) hln hjl h0.2 hclean)
    have hlt := W.lt_of_mismatch hr hln hjl h0
    have hsub : j + l + 1 - l = j + 1 := by omega
    rw [if_neg h0]
    refine returns_ok ⟨⟨by dsimp only; omega, by dsimp only; omega, ?_, ?_, fun he => ?_,
      fun _ => hlt⟩, by dsimp only; omega⟩
    · rw [hsub]
      exact W.mono hknown (by omega)
    · rw [hsub]
      exact hclean.shift (not_occurs_of_ne hln hm) fun q h1 h2 => absurd h2 (by omega)
    · simp only [he, Bool.false_eq_true, if_false]
      rw [hjeq he, hsub]

end

end

section
variable (W : Window M hay needle n L known)
include W

theorem Window.cmp_period
    (hc : Critical (text M needle) n l p) :
    Returns (M.cmpFunc needle 0 p l) (fun z => z = 0 ↔ Period (text M needle) 0 n p) := by
  have hfit := hc.right.fits
  refine (W.cmp (by omega)).mono fun z hz => hz.trans ⟨fun h => ?_, fun h i hi => ?_⟩
  · exact hc.right.period.extend fun i hi _ => h i hi
  · exact h i (Nat.zero_le i) (by omega)

omit W in
lemma left_pos_of_not_period (hc : Critical (text M needle) n l p)
    (hp : ¬ Period (text M needle) 0 n p) : 0 < l := by
  rcases Nat.eq_zero_or_pos l with rfl | h
  · exact absurd hc.right.period hp
  · exact h

lemma twoWayShortNeedle_returns (hk : known hl n) :
    Returns (twoWayShortNeedle M hay hl needle n) (Found (text M hay) (text M needle) n L) := by
  have hin := W.inside
  have hnl := W.n_le
  refine (criticalFactorization_returns W.n_pos W.n_le W.n_lt).bind ?_
  rintro ⟨l, p⟩ hc
  have hln := hc.lt
  have hclean : Clean (text M hay) (text M needle) n L 0 := fun i hi => absurd hi (Nat.not_lt_zero i)
  refine (W.cmp_period hc).bind fun z hz => ?_
  split_ifs with hz0
  · refine iterate_returns (fun s => L + 1 - s.j)
      (shortPeriodicBody_returns W hc (hz.mp hz0)) ?_ (by omega)
    exact ⟨Nat.zero_le L, by simpa using hk, hclean, .inl rfl,
      fun x hx => absurd hx (Nat.not_lt_zero x)⟩
  rw [load_eq 0 (by omega), ok_bind]
  have hp := mt hz.mpr hz0
  have hl0 := left_pos_of_not_period hc hp
  have henter : Returns (startGuard M hay hl l)
      (fun a => (a.1 = true → known a.2 n ∧ (M.checkEol = true → l ≤ L)) ∧
        (a.1 ≠ true → L < l + 1)) := by
    unfold startGuard
    split_ifs with he
    · have hk' : known hl (0 + (l + 1)) := W.eolShrink he.1 hk (by omega)
      refine (W.available hk' (Nat.zero_le L) (by omega) hln).mono ?_
      rintro ⟨ok, hl'⟩ ⟨hok, hknown⟩
      refine ⟨fun h => ?_, fun h => ?_⟩
      · have := hok.mp h
        exact ⟨W.mono (hknown this) (by omega), fun _ => by omega⟩
      · have := mt hok.mpr h
        omega
    refine returns_ok ⟨fun _ => ⟨hk, fun h => ?_⟩, fun h => absurd rfl h⟩
    have := W.eolKnown h hk
    have : ¬ hl < l + 1 := fun hlt => he ⟨h, hlt⟩
    omega
  refine henter.bind ?_
  rintro ⟨ok, hl'⟩ ⟨hgo, hstop⟩
  dsimp only at hgo hstop ⊢
  cases ok with
  | false => exact returns_ok (hclean.none (by have := hstop (by decide); omega))
  | true =>
    obtain ⟨hknown, hinL⟩ := hgo rfl
    refine iterate_returns (fun s => L + 1 - (s.phaystack - l))
      (shortDistinctBody_returns W hc hp hl0) ?_ (by omega)
    exact ⟨le_rfl, by simp, by simpa using hknown, by simpa using hclean, fun _ => by simp, hinL⟩

lemma twoWayLongNeedle_returns (hk : known hl n) :
    Returns (twoWayLongNeedle M hay hl needle n) (Found (text M hay) (text M needle) n L) := by
  have hin := W.inside
  refine (criticalFactorization_returns W.n_pos W.n_le W.n_lt).bind ?_
  rintro ⟨l, p⟩ hc
  have hclean : Clean (text M hay) (text M needle) n L 0 := fun i hi => absurd hi (Nat.not_lt_zero i)
  refine (shiftTable_returns W.n_le).bind fun table ht => ?_
  refine (W.cmp_period hc).bind fun z hz => ?_
  split_ifs with hz0
  · refine iterate_returns (fun s => L + 1 - s.j)
      (longPeriodicBody_returns W hc (hz.mp hz0) ht) ?_ (by omega)
    exact ⟨Nat.zero_le L, by simpa using hk, hclean, .inl rfl,
      fun x hx => absurd hx (Nat.not_lt_zero x)⟩
  have hp := mt hz.mpr hz0
  refine iterate_returns (fun s => L + 1 - s.1)
    (longDistinctBody_returns W hc hp (left_pos_of_not_period hc hp) ht) ?_
    (by omega)
  exact ⟨Nat.zero_le L, by simpa using hk, hclean⟩

lemma search_returns (hk : known hl n) :
    Returns ((if n < longNeedleThreshold then twoWayShortNeedle M else twoWayLongNeedle M)
      hay hl needle n) (Found (text M hay) (text M needle) n L) := by
  split_ifs
  · exact twoWayShortNeedle_returns W hk
  · exact twoWayLongNeedle_returns W hk

end

theorem Found.offset (hf : Found (fun i => h (d + i)) w n (L - d) r) (hd : d ≤ L)
    (hbefore : Clean h w n L d) : Found h w n L (r.map (d + ·)) := by
  have hiff : ∀ i, Occurs (fun i => h (d + i)) w n i ↔ Occurs h w n (d + i) :=
    fun i => forall₂_congr fun x _ => by rw [Nat.add_assoc]
  have hlater : ∀ {i}, d ≤ i → ¬ Occurs (fun i => h (d + i)) w n (i - d) → ¬ Occurs h w n i := by
    intro i hdi hn ho
    exact hn ((hiff (i - d)).mpr (by rwa [show d + (i - d) = i by omega]))
  cases r with
  | none =>
    intro i hi
    by_cases hid : i < d
    · exact hbefore i hid hi
    · exact hlater (by omega) (hf (i - d) (by omega))
  | some j =>
    obtain ⟨hj, ho, hc⟩ := hf
    refine ⟨by dsimp only [Option.map_some]; omega, (hiff j).mp ho, fun i hi hiL => ?_⟩
    dsimp only at hi
    by_cases hid : i < d
    · exact hbefore i hid hiL
    · exact hlater (by omega) (hc (i - d) (by omega) (by omega))

lemma Found.first (hf : Found h w needle.length haystack.length r)
    (hh : ∀ i < haystack.length, h i = haystack.getD i 0)
    (hw : ∀ i < needle.length, w i = needle.getD i 0) :
    Bytes.FirstOccurrence haystack needle r := by
  have hiff : ∀ {i}, i + needle.length ≤ haystack.length →
      (Occurs h w needle.length i ↔ Bytes.OccursAt haystack needle i) := by
    intro i hi
    rw [Bytes.occursAt_iff, and_iff_right hi]
    exact forall₂_congr fun x hx => by rw [hh (i + x) (by omega), hw x hx]
  cases r with
  | none => exact fun i ho => hf i ho.1 ((hiff ho.1).mpr ho)
  | some j =>
    obtain ⟨hj, ho, hc⟩ := hf
    refine ⟨(hiff hj).mp ho, fun i hi => ?_⟩
    by_contra hlt
    exact hc i (by omega) hi.1 ((hiff hi.1).mpr hi)

end Eglibc.TwoWay
