import Eglibc.Strtol

/-!
# The value of a numeral

The loops over the digits compute the value or find that it does not fit; the rest finds
the longest numeral at the start of the text.
-/
namespace Eglibc.Strtol
open Checked Signed

variable {i d width j cutoff cutlim n b : ℕ} {overflow : Bool} {c x : Char} {s r v p : List Char}
  {ds : List ℕ}

/-! ## Characters -/

section

variable {c : Char} {d b : ℕ}

lemma toUpper_eq_X : toUpper c = 'X' ↔ c = 'x' ∨ c = 'X' := by
  have hletter : ∀ n, 97 ≤ n → n ≤ 122 →
      (Char.ofNat (n - 32) = 'X' ↔ Char.ofNat n = 'x' ∨ Char.ofNat n = 'X') := by
    intro n hlow hhigh
    interval_cases n <;> decide
  unfold toUpper
  split_ifs with h
  · simpa using hletter c.toNat h.1 h.2
  constructor
  · exact .inr
  · rintro (rfl | rfl)
    · exact absurd (by decide) h
    · rfl

lemma digit_of_isSpace (h : isSpace c = true) : digit c = none := by
  simp [isSpace] at h
  rcases h with rfl | rfl | rfl | rfl | rfl | rfl <;> decide

lemma digit_x (h : c = 'x' ∨ c = 'X') : digit c = some 33 := by
  rcases h with rfl | rfl <;> decide

def IsDigit (b : ℕ) (c : Char) : Prop := ∃ d, digit c = some d ∧ d < b

lemma IsDigit.of_eq (h : digit c = some d) : IsDigit b c ↔ d < b := by
  simp [IsDigit, h]

lemma not_isDigit_of_none (h : digit c = none) : ¬ IsDigit b c := by
  simp [IsDigit, h]

end

/-! ## Loops over the digits -/

section

variable {t : Target} {b : ℕ} {cs v : List Char} {ds : List ℕ} {a : Char}

def accumulate (b i : ℕ) (ds : List ℕ) : ℕ := ds.foldl (fun i d => i * b + d) i

lemma accumulate_eq (b i : ℕ) (ds : List ℕ) :
    accumulate b i ds = i * b ^ ds.length + Nat.ofDigits b ds.reverse := by
  induction ds generalizing i with
  | nil => simp [accumulate]
  | cons d ds ih =>
    have hstep : accumulate b i (d :: ds) = accumulate b (i * b + d) ds := rfl
    rw [hstep, ih, List.reverse_cons, Nat.ofDigits_append, List.length_reverse, Nat.ofDigits_singleton,
      List.length_cons]
    ring

lemma le_accumulate (hb : 0 < b) (i : ℕ) (ds : List ℕ) : i ≤ accumulate b i ds := by
  rw [accumulate_eq]
  have hpow : 0 < b ^ ds.length := Nat.pow_pos hb
  have := Nat.le_mul_of_pos_right i hpow
  omega

lemma exceeds_iff (hd : d < b) : (i > m / b ∨ (i = m / b ∧ d > m % b)) ↔ m < i * b + d := by
  have hm := Nat.div_add_mod m b
  have hrem := Nat.mod_lt m (by omega : 0 < b)
  rw [Nat.mul_comm] at hm
  rcases Nat.lt_trichotomy i (m / b) with hlt | heq | hgt
  · have hle := Nat.mul_le_mul_right b (Nat.succ_le_of_lt hlt)
    rw [Nat.succ_mul] at hle
    omega
  · rw [heq]
    omega
  · have hle := Nat.mul_le_mul_right b (Nat.succ_le_of_lt hgt)
    rw [Nat.succ_mul] at hle
    omega

/-- What the loops have computed from the digits `ds` after `i`. -/
def Counted (width b i : ℕ) (ds : List ℕ) (j : ℕ) (overflow : Bool) : Prop :=
  if accumulate b i ds < 2 ^ width then j = accumulate b i ds ∧ overflow = false else overflow = true

lemma Counted.nil (h : i < 2 ^ width) : Counted width b i [] i false := by
  have hcount : accumulate b i [] = i := rfl
  rw [Counted, hcount, if_pos h]
  exact ⟨rfl, rfl⟩

lemma Counted.cons (h : Counted width b (i * b + d) ds j overflow) :
    Counted width b i (d :: ds) j overflow := h

lemma Counted.of_large (hb : 0 < b) (h : 2 ^ width ≤ i) : Counted width b i ds j true := by
  have hle := le_accumulate hb i ds
  rw [Counted, if_neg (by omega)]

lemma ne_nul (h : digit c = some d) : c ≠ '\x00' := by
  rintro rfl
  cases h

lemma digits_cons (hc : digit c = some d) (hd : d < b) :
    digits width b cutoff cutlim (c :: s) i overflow =
      if i > cutoff ∨ (i = cutoff ∧ d > cutlim) then digits width b cutoff cutlim s i true
      else digits width b cutoff cutlim s ((i * b + d) % 2 ^ width) overflow := by
  rw [digits, if_neg (ne_nul hc), hc]
  dsimp only
  rw [if_neg (by omega)]

lemma digits_stop (ha : ¬ IsDigit b a) :
    digits width b cutoff cutlim (a :: v) i overflow = .ok (a :: v, i, overflow) := by
  rw [digits]
  split_ifs with hnul
  · rfl
  cases hdigit : digit a with
  | none => rfl
  | some d =>
    rw [IsDigit.of_eq hdigit] at ha
    exact if_pos (by omega)

lemma digits_overflow (h : Digits b cs ds) (ha : ¬ IsDigit b a) (i : ℕ) :
    ∃ j, digits width b cutoff cutlim (cs ++ a :: v) i true = .ok (a :: v, j, true) := by
  induction h generalizing i with
  | nil => exact ⟨i, digits_stop ha⟩
  | cons hc _ ih =>
    rw [List.cons_append, digits_cons hc.1 hc.2]
    split_ifs
    · exact ih i
    · exact ih _

lemma digits_counted (h : Digits b cs ds) (ha : ¬ IsDigit b a) (hi : i < 2 ^ width) :
    ∃ j overflow, digits width b ((2 ^ width - 1) / b) ((2 ^ width - 1) % b) (cs ++ a :: v) i false =
      .ok (a :: v, j, overflow) ∧ Counted width b i ds j overflow := by
  induction h generalizing i with
  | nil => exact ⟨i, false, digits_stop ha, .nil hi⟩
  | @cons c d cs ds hc htail ih =>
    rw [List.cons_append, digits_cons hc.1 hc.2]
    by_cases hlarge : 2 ^ width - 1 < i * b + d
    · rw [if_pos ((exceeds_iff hc.2).mpr hlarge)]
      obtain ⟨j, hj⟩ := digits_overflow htail ha i
      exact ⟨j, true, hj, .cons (.of_large (by omega) (by omega))⟩
    have hfits : i * b + d < 2 ^ width := by
      omega
    rw [if_neg (fun h => hlarge ((exceeds_iff hc.2).mp h)), Nat.mod_eq_of_lt hfits]
    exact ih hfits

lemma shortDigits_counted (h : Digits b cs ds) (ha : ¬ IsDigit b a) (hb : 0 < b)
    (hwidth : 2 ^ t.long * b ≤ 2 ^ t.width) (hj : j < 2 ^ t.long) :
    ∃ i overflow, shortDigits t b ((2 ^ t.long - 1) / b) ((2 ^ t.width - 1) / b) ((2 ^ t.width - 1) % b)
      (cs ++ a :: v) j = .ok (a :: v, i, overflow) ∧ Counted t.width b j ds i overflow := by
  induction h generalizing j with
  | nil =>
    refine ⟨j, false, ?_, ?_⟩
    · rw [List.nil_append, shortDigits]
      by_cases hnul : a = '\x00'
      · exact if_pos hnul
      rw [if_neg hnul]
      cases hdigit : digit a with
      | none => rfl
      | some d =>
        rw [IsDigit.of_eq hdigit] at ha
        exact if_pos (by omega)
    · have hle := Nat.le_mul_of_pos_right (2 ^ t.long) hb
      exact .nil (by omega)
  | @cons c d cs ds hc htail ih =>
    have hsum : j * b + d < 2 ^ t.long * b := by
      have hle := Nat.mul_le_mul_right b (Nat.succ_le_of_lt hj)
      rw [Nat.succ_mul] at hle
      omega
    rw [List.cons_append, shortDigits, if_neg (ne_nul hc.1), hc.1]
    dsimp only
    rw [if_neg (by omega)]
    by_cases hlarge : j ≥ (2 ^ t.long - 1) / b
    · have hfits : j * b + d < 2 ^ t.width := by omega
      rw [if_pos hlarge, Nat.mod_eq_of_lt hfits]
      exact digits_counted htail ha hfits
    have hfits : j * b + d < 2 ^ t.long := by
      have hnot := mt (exceeds_iff hc.2).mpr (show ¬ (j > (2 ^ t.long - 1) / b ∨
        (j = (2 ^ t.long - 1) / b ∧ d > (2 ^ t.long - 1) % b)) by omega)
      omega
    rw [if_neg hlarge, Nat.mod_eq_of_lt hfits]
    exact ih hfits

lemma readDigits_counted (ht : t.Valid) (hb : 2 ≤ b ∧ b ≤ 36) (h : Digits b cs ds) (ha : ¬ IsDigit b a) :
    ∃ i overflow, readDigits t b (cs ++ a :: v) = .ok (a :: v, i, overflow) ∧
      Counted t.width b 0 ds i overflow := by
  have hmax (width : ℕ) : load (maxTab width) (b - 2) = .ok ((2 ^ width - 1) / b) := by
    simp [load, maxTab, show b - 2 < 35 by omega, show b - 2 + 2 = b by omega]
  have hrem (width : ℕ) : load (remTab width) (b - 2) = .ok ((2 ^ width - 1) % b) := by
    simp [load, remTab, show b - 2 < 35 by omega, show b - 2 + 2 = b by omega]
  rw [readDigits, hmax, ok_bind, hrem, ok_bind]
  split_ifs with hsame
  · exact digits_counted h ha (Nat.two_pow_pos _)
  rw [hmax, ok_bind]
  have hlong : t.long = 32 ∧ t.width = 64 := by
    unfold Target.Valid at ht
    omega
  refine shortDigits_counted h ha (by omega) ?_ (Nat.two_pow_pos _)
  rw [hlong.1, hlong.2]
  omega

end

/-! ## The result -/

section

variable {t : Target} {negative overflow : Bool} {i b : ℕ} {ds : List ℕ}

lemma negative_limit (hw : 2 ≤ width) :
    (-((-2 ^ (width - 1) + 1) % 2 ^ width) + 1) % 2 ^ width = (2 : ℤ) ^ (width - 1) := by
  have hhalf : (2 : ℤ) ≤ 2 ^ (width - 1) := by
    have hpow := pow_le_pow_right₀ (by norm_num : (1 : ℤ) ≤ 2) (by omega : 1 ≤ width - 1)
    rwa [pow_one] at hpow
  rw [two_pow_pred (show 0 < width by omega)]
  generalize (2 : ℤ) ^ (width - 1) = half at hhalf
  have hmod : (-half + 1) % (2 * half) = half + 1 := by
    rw [← Int.add_emod_right, Int.emod_eq_of_lt (by omega) (by omega)]
    ring
  rw [hmod, ← Int.add_emod_right, Int.emod_eq_of_lt (by omega) (by omega)]
  ring

lemma finish_of_overflow (endptr : ℕ) (hw : 0 < t.width) (h : 2 ^ t.width ≤ n) :
    finish t negative i true endptr = ⟨(converted t negative n).1, (converted t negative n).2,
      some endptr⟩ := by
  have hlarge : (2 : ℤ) ^ t.width ≤ n := by exact_mod_cast h
  rw [two_pow_pred hw] at hlarge
  unfold finish converted
  cases t.unsigned with
  | true => simp [not_lt.mpr h]
  | false =>
    have hfits : ¬ Fits t.width (if negative then -(n : ℤ) else n) := by
      unfold Fits
      split_ifs <;> omega
    simp [hfits]

lemma finish_of_fits (endptr : ℕ) (hw : 2 ≤ t.width) (h : i < 2 ^ t.width) :
    finish t negative i false endptr = ⟨(converted t negative i).1, (converted t negative i).2,
      some endptr⟩ := by
  unfold finish converted
  cases t.unsigned with
  | true => simp [h]
  | false =>
    have hlimit : (i : ℤ) > (if negative then (-((-2 ^ (t.width - 1) + 1) % 2 ^ t.width) + 1) % 2 ^ t.width
        else 2 ^ (t.width - 1) - 1) ↔ ¬ Fits t.width (if negative then -(i : ℤ) else i) := by
      rw [negative_limit hw]
      have hpos : (0 : ℤ) < 2 ^ (t.width - 1) := by positivity
      unfold Fits
      split_ifs <;> omega
    simp
    by_cases hfits : Fits t.width (if negative then -(i : ℤ) else i)
    · rw [if_neg (fun h => hlimit.mp h hfits), if_pos hfits, wrap_eq (by omega) hfits]
    · rw [if_pos (hlimit.mpr hfits), if_neg hfits]

lemma finish_eq (hw : 2 ≤ t.width) (h : Counted t.width b 0 ds i overflow) (endptr : ℕ) :
    finish t negative i overflow endptr =
      ⟨(converted t negative (Nat.ofDigits b ds.reverse)).1,
        (converted t negative (Nat.ofDigits b ds.reverse)).2, some endptr⟩ := by
  have hvalue : accumulate b 0 ds = Nat.ofDigits b ds.reverse := by
    simp [accumulate_eq]
  unfold Counted at h
  rw [hvalue] at h
  split_ifs at h with hfits
  · obtain ⟨rfl, rfl⟩ := h
    exact finish_of_fits endptr hw hfits
  · subst h
    exact finish_of_overflow endptr (by omega) (not_lt.mp hfits)

end

/-! ## The longest numeral -/

section

variable {P : Char → Prop} {base b b' : ℕ} {u v u' v' body cs : List Char} {ds ds' : List ℕ} {a a' : Char}

lemma span_unique (hu : ∀ c ∈ u, P c) (hu' : ∀ c ∈ u', P c) (ha : ¬ P a) (ha' : ¬ P a')
    (h : u ++ a :: v = u' ++ a' :: v') : u = u' ∧ a :: v = a' :: v' := by
  classical
  have htake : u = u' := by
    have := congrArg (List.takeWhile P) h
    rwa [List.takeWhile_append_of_pos (by simpa using hu),
      List.takeWhile_append_of_pos (by simpa using hu'), List.takeWhile_cons_of_neg (by simpa using ha),
      List.takeWhile_cons_of_neg (by simpa using ha'), List.append_nil, List.append_nil] at this
  subst htake
  exact ⟨rfl, List.append_cancel_left h⟩

lemma span_longest (hu' : ∀ c ∈ u', P c) (ha : ¬ P a) (h : u' <+: u ++ a :: v) : u'.length ≤ u.length := by
  by_contra hlt
  obtain ⟨w, hw⟩ := h
  have hget : u'[u.length]? = some a := by
    have hleft : (u' ++ w)[u.length]? = u'[u.length]? := List.getElem?_append_left (by omega)
    rw [← hleft, hw]
    simp
  exact ha (hu' a (List.mem_of_getElem? hget))

lemma Digits.isDigit (h : Digits b cs ds) : ∀ c ∈ cs, IsDigit b c := by
  induction h with
  | nil => simp
  | cons hc _ ih => exact List.forall_mem_cons.mpr ⟨⟨_, hc⟩, ih⟩

lemma Digits.unique (h : Digits b cs ds) (h' : Digits b cs ds') : ds = ds' := by
  induction h generalizing ds' with
  | nil => cases h'; rfl
  | cons hc _ ih =>
    cases h' with
    | cons hc' htail' =>
      obtain rfl := Option.some.inj (hc.1.symm.trans hc'.1)
      rw [ih htail']

lemma exists_digits (b : ℕ) (h : '\x00' ∈ s) :
    ∃ cs ds a v, s = cs ++ a :: v ∧ Digits b cs ds ∧ ¬ IsDigit b a := by
  induction s with
  | nil => cases h
  | cons c s ih =>
    by_cases hc : IsDigit b c
    · have htail : '\x00' ∈ s := List.mem_of_ne_of_mem (by rintro rfl; exact not_isDigit_of_none rfl hc) h
      obtain ⟨cs, ds, a, v, rfl, hcs, ha⟩ := ih htail
      obtain ⟨d, hd⟩ := hc
      exact ⟨c :: cs, d :: ds, a, v, rfl, .cons hd hcs, ha⟩
    · exact ⟨[], [], c, s, rfl, .nil, hc⟩

lemma Subject.unique (h : Subject base body b ds) (h' : Subject base body b' ds') : b = b' ∧ ds = ds' := by
  have hx {x : Char} {b : ℕ} {cs : List Char} {ds : List ℕ} (hx : x = 'x' ∨ x = 'X') (hb : b ≤ 16)
      (h : Digits b ('0' :: x :: cs) ds) : False := by
    obtain ⟨d, hd, hlt⟩ := h.isDigit x (by simp)
    rw [digit_x hx] at hd
    cases hd
    omega
  cases h with
  | plain hbase h =>
    cases h' with
    | plain _ h' => exact ⟨rfl, h.unique h'⟩
    | hex hbase' hx' _ => exact (hx hx' (by omega) h).elim
    | octal hbase' _ | decimal hbase' _ _ => exact absurd hbase' hbase
  | hex hbase hx0 h =>
    cases h' with
    | plain hbase' h' | octal _ h' => exact (hx hx0 (by omega) h').elim
    | hex _ _ h' => exact ⟨rfl, h.unique h'⟩
    | decimal _ hc _ => exact absurd rfl hc
  | octal hbase h =>
    cases h' with
    | plain hbase' _ => exact absurd hbase hbase'
    | hex _ hx' _ => exact (hx hx' (by omega) h).elim
    | octal _ h' => exact ⟨rfl, h.unique h'⟩
    | decimal _ hc _ => exact absurd rfl hc
  | decimal hbase hc h =>
    cases h' with
    | plain hbase' _ => exact absurd hbase hbase'
    | hex _ _ _ | octal _ _ => exact absurd rfl hc
    | decimal _ _ h' => exact ⟨rfl, h.unique h'⟩

lemma Subject.head (h : Subject base body b ds) : ∃ c cs d, body = c :: cs ∧ digit c = some d := by
  have hdigits {b : ℕ} {c : Char} {cs : List Char} {ds : List ℕ} (h : Digits b (c :: cs) ds) :
      ∃ d, digit c = some d := by
    obtain ⟨d, hd, -⟩ := h.isDigit c (by simp)
    exact ⟨d, hd⟩
  cases h with
  | @plain c cs _ _ h => exact ⟨c, cs, (hdigits h).choose, rfl, (hdigits h).choose_spec⟩
  | @hex x c cs _ _ _ _ => exact ⟨'0', x :: c :: cs, 0, rfl, by decide⟩
  | @octal cs _ _ _ => exact ⟨'0', cs, 0, rfl, by decide⟩
  | @decimal c cs _ _ _ h => exact ⟨c, cs, (hdigits h).choose, rfl, (hdigits h).choose_spec⟩

end

def HexMark (s : List Char) : Prop := ∃ x r, s = '0' :: x :: r ∧ (x = 'x' ∨ x = 'X')

inductive Unmarked (base : ℕ) : List Char → ℕ → Prop
  | octal {s : List Char} (hbase : base = 0) (hs : ¬ HexMark ('0' :: s)) : Unmarked base ('0' :: s) 8
  | decimal {c : Char} {s : List Char} (hbase : base = 0) (hc : c ≠ '0') : Unmarked base (c :: s) 10
  | plain {s : List Char} (hbase : base ≠ 0) (hs : base = 16 → ¬ HexMark s) : Unmarked base s base

inductive Marked (base : ℕ) (s : List Char) : ℕ → List Char → Prop
  | hex {x : Char} {save : List Char} (hbase : base = 0 ∨ base = 16) (hx : x = 'x' ∨ x = 'X')
    (hs : s = '0' :: x :: save) : Marked base s 16 save
  | none {b : ℕ} (h : Unmarked base s b) : Marked base s b s

section

variable {base b : ℕ} {s save cs v : List Char} {ds : List ℕ} {a : Char}

lemma numberBase_marked (base : ℕ) (h : '\x00' ∈ s) :
    ∃ b save, numberBase base s = .ok (b, save) ∧ Marked base s b save ∧ '\x00' ∈ save := by
  cases s with
  | nil => cases h
  | cons c s =>
    rw [numberBase]
    by_cases hc : c = '0'
    · subst hc
      by_cases hbase : base = 0 ∨ base = 16
      · cases s with
        | nil => simp at h
        | cons x s =>
          rw [if_pos hbase]
          change ∃ b save, (Except.ok (if toUpper x = 'X' then (16, s) else
            if base = 0 then (8, '0' :: x :: s) else (base, '0' :: x :: s)) : Run _) = .ok (b, save) ∧ _
          by_cases hx : toUpper x = 'X'
          · have hx' := toUpper_eq_X.mp hx
            rw [if_pos hx]
            refine ⟨16, s, rfl, .hex hbase hx' rfl, ?_⟩
            rcases hx' with rfl | rfl <;> simpa using h
          have hmark : ¬ HexMark ('0' :: x :: s) := by
            rintro ⟨x', r, hs, hx'⟩
            cases hs
            exact hx (toUpper_eq_X.mpr hx')
          split_ifs with hzero
          · exact ⟨8, _, rfl, .none (.octal hzero hmark), h⟩
          · exact ⟨base, _, rfl, .none (.plain hzero fun _ => hmark), h⟩
      · rw [if_neg hbase]
        exact ⟨base, _, rfl, .none (.plain (by omega) (by omega)), h⟩
    have hmark : ¬ HexMark (c :: s) := by
      rintro ⟨x, r, hs, -⟩
      cases hs
      exact hc rfl
    split_ifs with hzero
    · exact ⟨10, _, rfl, .none (.decimal hzero hc), h⟩
    · exact ⟨base, _, rfl, .none (.plain hzero fun _ => hmark), h⟩

def Maximal (base : ℕ) (s : List Char) (n : ℕ) : Prop :=
  ∀ body b ds, Subject base body b ds → body <+: s → body.length ≤ n

lemma digits_le (h : Digits b cs' ds') (ha : ¬ IsDigit b a)
    (hle : cs' <+: cs ++ a :: v) : cs'.length ≤ cs.length :=
  span_longest h.isDigit ha hle

lemma not_isDigit_x (hx : x = 'x' ∨ x = 'X') (hb : b ≤ 16) : ¬ IsDigit b x := by
  rw [IsDigit.of_eq (digit_x hx)]
  omega

lemma hexMark_of_le (hx : x = 'x' ∨ x = 'X') (h : '0' :: x :: r <+: s) : HexMark s := by
  obtain ⟨w, rfl⟩ := h
  exact ⟨x, r ++ w, rfl, hx⟩

lemma maximal_hex (hx : x = 'x' ∨ x = 'X') (ha : ¬ IsDigit 16 a) (hbase : base = 0 ∨ base = 16) :
    Maximal base ('0' :: x :: (cs ++ a :: v)) (if cs = [] then 1 else cs.length + 2) := by
  have hmark {b : ℕ} {cs' : List Char} {ds' : List ℕ} (hb : b ≤ 16) (h : Digits b cs' ds')
      (hle : cs' <+: '0' :: x :: (cs ++ a :: v)) : cs'.length ≤ if cs = [] then 1 else cs.length + 2 := by
    have hone : cs'.length ≤ ['0'].length := digits_le h (not_isDigit_x hx hb) hle
    rw [List.length_singleton] at hone
    split_ifs <;> omega
  intro body b ds h hle
  cases h with
  | plain hne h | octal _ h | decimal _ hc h => exact hmark (by omega) h hle
  | hex _ _ h =>
    have htail := (List.cons_prefix_cons.mp (List.cons_prefix_cons.mp hle).2).2
    have hdigits := digits_le h ha htail
    simp at hdigits ⊢
    rw [if_neg (by rintro rfl; simp at hdigits)]
    omega

lemma maximal_digits (hm : Unmarked base (cs ++ a :: v) b) (ha : ¬ IsDigit b a) :
    Maximal base (cs ++ a :: v) cs.length := by
  intro body b' ds h hle
  generalize hs : cs ++ a :: v = s at hm hle
  cases hm with
  | @octal s hbase hmark =>
    cases h with
    | plain hne _ => exact absurd hbase hne
    | hex _ hx _ => exact absurd (hexMark_of_le hx hle) hmark
    | octal _ h => exact digits_le h ha (hs ▸ hle)
    | decimal _ hc _ => exact absurd (List.cons_prefix_cons.mp hle).1 hc
  | @decimal c s hbase hc =>
    cases h with
    | plain hne _ => exact absurd hbase hne
    | hex _ _ _ | octal _ _ => exact absurd (List.cons_prefix_cons.mp hle).1.symm hc
    | decimal _ _ h => exact digits_le h ha (hs ▸ hle)
  | plain hne hmark =>
    cases h with
    | plain _ h => exact digits_le h ha (hs ▸ hle)
    | hex hbase hx _ => exact absurd (hexMark_of_le hx hle) (hmark (by omega))
    | octal hbase _ | decimal hbase _ _ => exact absurd hbase hne

lemma subject_of_digits (hm : Unmarked base (c :: cs ++ a :: v) b) (h : Digits b (c :: cs) ds) :
    Subject base (c :: cs) b ds := by
  generalize hs : c :: cs ++ a :: v = s at hm
  cases hm with
  | octal hbase _ =>
    obtain ⟨rfl, -⟩ := List.cons.inj hs
    exact .octal hbase h
  | decimal hbase hc =>
    obtain ⟨rfl, -⟩ := List.cons.inj hs
    exact .decimal hbase hc h
  | plain hbase _ => exact .plain hbase h

end

/-! ## White space and sign -/

section

variable {base n : ℕ} {ws sg body s nptr q : List Char} {negative negative' : Bool}

lemma skipSpace_returns (h : '\x00' ∈ nptr) :
    ∃ ws c s, nptr = ws ++ c :: s ∧ (∀ c ∈ ws, isSpace c) ∧ ¬ isSpace c ∧ skipSpace nptr = .ok (c :: s) ∧
      '\x00' ∈ c :: s := by
  induction nptr with
  | nil => cases h
  | cons c nptr ih =>
    by_cases hc : isSpace c
    · have htail : '\x00' ∈ nptr := List.mem_of_ne_of_mem (by rintro rfl; exact absurd hc (by decide)) h
      obtain ⟨ws, c', s, rfl, hws, hc', hskip, hend⟩ := ih htail
      refine ⟨c :: ws, c', s, rfl, List.forall_mem_cons.mpr ⟨hc, hws⟩, hc', ?_, hend⟩
      rw [skipSpace, if_pos hc, hskip]
    · exact ⟨[], c, nptr, rfl, by simp, hc, by rw [skipSpace, if_neg hc], h⟩

lemma sign_returns (h : '\x00' ∈ c :: s) :
    ∃ sg negative r, c :: s = sg ++ r ∧ sign (c :: s) = .ok (negative, r) ∧ Sign sg negative ∧ '\x00' ∈ r ∧
      (sg = [] → c ≠ '-' ∧ c ≠ '+') := by
  rw [sign]
  by_cases hminus : c = '-'
  · subst hminus
    exact ⟨['-'], true, s, rfl, rfl, .inl ⟨rfl, rfl⟩, by simpa using h, by simp⟩
  by_cases hplus : c = '+'
  · subst hplus
    exact ⟨['+'], false, s, rfl, rfl, .inr ⟨.inl rfl, rfl⟩, by simpa using h, by simp⟩
  · rw [if_neg hminus, if_neg hplus]
    exact ⟨[], false, c :: s, rfl, rfl, .inr ⟨.inr rfl, rfl⟩, h, fun _ => ⟨hminus, hplus⟩⟩

structure Split (nptr ws sg r : List Char) (negative : Bool) : Prop where
  eq : nptr = ws ++ (sg ++ r)
  spaces : ∀ c ∈ ws, isSpace c
  signed : Sign sg negative
  ended : '\x00' ∈ r
  visible : ∀ c s, sg ++ r = c :: s → ¬ isSpace c
  unsigned : sg = [] → ∀ c s, r = c :: s → c ≠ '-' ∧ c ≠ '+'

lemma sign_body_head (hsg : Sign sg negative) (h : Subject base body b ds) :
    ∃ c s, sg ++ body = c :: s ∧ ¬ isSpace c := by
  obtain ⟨c, cs, d, rfl, hc⟩ := h.head
  rcases hsg with ⟨rfl, -⟩ | ⟨rfl | rfl, -⟩
  · exact ⟨_, _, rfl, by decide⟩
  · exact ⟨_, _, rfl, by decide⟩
  · refine ⟨c, cs, rfl, fun hspace => ?_⟩
    rw [digit_of_isSpace hspace] at hc
    cases hc

lemma sign_unique (hsg : Sign sg negative)
    (hown : sg = [] → ∀ c s, r = c :: s → c ≠ '-' ∧ c ≠ '+') (hsg' : Sign sg' negative')
    (h : Subject base body b ds) (heq : sg' ++ (body ++ more) = sg ++ r) :
    negative' = negative ∧ sg' = sg ∧ body ++ more = r := by
  obtain ⟨c, cs, d, rfl, hc⟩ := h.head
  rcases hsg with ⟨rfl, rfl⟩ | ⟨rfl | rfl, rfl⟩
  · rcases hsg' with ⟨rfl, rfl⟩ | ⟨rfl | rfl, rfl⟩
    · exact ⟨rfl, rfl, (List.cons.inj heq).2⟩
    · exact absurd (List.cons.inj heq).1 (by decide)
    · obtain ⟨rfl, -⟩ := List.cons.inj heq
      cases hc
  · rcases hsg' with ⟨rfl, rfl⟩ | ⟨rfl | rfl, rfl⟩
    · exact absurd (List.cons.inj heq).1 (by decide)
    · exact ⟨rfl, rfl, (List.cons.inj heq).2⟩
    · obtain ⟨rfl, -⟩ := List.cons.inj heq
      cases hc
  · rcases hsg' with ⟨rfl, rfl⟩ | ⟨rfl | rfl, rfl⟩
    · exact absurd rfl (hown rfl _ _ heq.symm).1
    · exact absurd rfl (hown rfl _ _ heq.symm).2
    · exact ⟨rfl, rfl, heq⟩

lemma Split.numeral (h : Split nptr ws sg r negative) (hq : q <+: nptr)
    (hn : Numeral base q negative' n) :
    negative' = negative ∧ ∃ body b ds, q = ws ++ (sg ++ body) ∧ body <+: r ∧ Subject base body b ds ∧
      n = Nat.ofDigits b ds.reverse := by
  obtain ⟨ws', sg', body, b, ds, rfl, hws', hsg', hsub, hn⟩ := hn
  obtain ⟨more, hmore⟩ := hq
  obtain ⟨c', s', hhead', hc'⟩ := sign_body_head hsg' hsub
  obtain ⟨c, s, hhead⟩ : ∃ c s, sg ++ r = c :: s :=
    List.exists_cons_of_ne_nil (List.append_ne_nil_of_right_ne_nil _ (List.ne_nil_of_mem h.ended))
  have heq : ws' ++ c' :: (s' ++ more) = ws ++ c :: s := by
    rw [← hhead, ← h.eq, ← hmore, hhead']
    simp
  obtain ⟨rfl, htail⟩ := span_unique hws' h.spaces hc' (h.visible c s hhead) heq
  have hsigned : sg' ++ (body ++ more) = sg ++ r := by
    rw [hhead, ← htail, ← List.append_assoc, hhead']
    rfl
  obtain ⟨hnegative, rfl, hbody⟩ := sign_unique h.signed h.unsigned hsg' hsub hsigned
  exact ⟨hnegative, body, b, ds, rfl, ⟨more, hbody⟩, hsub, hn⟩

lemma split_returns (h : '\x00' ∈ nptr) :
    ∃ ws sg r negative s, Split nptr ws sg r negative ∧ s = sg ++ r ∧ skipSpace nptr = .ok s ∧
      sign s = .ok (negative, r) := by
  obtain ⟨ws, c, s, heq, hws, hc, hskip, hend⟩ := skipSpace_returns h
  obtain ⟨sg, negative, r, hs, hsign, hsg, hr, hown⟩ := sign_returns hend
  refine ⟨ws, sg, r, negative, c :: s, ⟨by rw [heq, hs], hws, hsg, hr, ?_, ?_⟩, hs, hskip, hsign⟩
  · intro c' s' hhead
    rw [← hs] at hhead
    cases hhead
    exact hc
  · rintro rfl c' s' rfl
    cases hs
    exact hown rfl

end

/-! ## The whole function -/

section

variable {t : Target} {base : ℕ} {nptr ws sg r : List Char} {negative : Bool}

def Answers (base : ℕ) (nptr : List Char) (t : Target) (result : Result) : Prop :=
  (∃ p negative n, Longest base nptr p negative n ∧
      result = ⟨(converted t negative n).1, (converted t negative n).2, some p.length⟩) ∨
    ((∀ p negative n, p <+: nptr → ¬ Numeral base p negative n) ∧ result = ⟨0, none, some 0⟩)

lemma Split.longest (h : Split nptr ws sg r negative)
    (hr : r = body ++ rest) (hbody : Subject base body b ds) (hmax : Maximal base r body.length) :
    Longest base nptr (ws ++ (sg ++ body)) negative (Nat.ofDigits b ds.reverse) := by
  refine ⟨⟨rest, by rw [h.eq, hr]; simp⟩, ⟨ws, sg, body, b, ds, rfl, h.spaces, h.signed, hbody, rfl⟩, ?_⟩
  intro q negative' n' hq hn
  obtain ⟨-, body', b', ds', rfl, hle, hsub, -⟩ := h.numeral hq hn
  have := hmax body' b' ds' hsub hle
  simp
  omega

lemma Marked.base_mem (h : Marked base s b save)
    (hbase : base = 0 ∨ (2 ≤ base ∧ base ≤ 36)) : 2 ≤ b ∧ b ≤ 36 := by
  cases h with
  | hex => omega
  | none h =>
    cases h with
    | octal | decimal | plain => omega

lemma converted_zero (t : Target) (negative : Bool) : converted t negative 0 = (0, none) := by
  have hpos : (0 : ℤ) < 2 ^ (t.width - 1) := by positivity
  have hfits : Fits t.width 0 := ⟨by omega, hpos⟩
  unfold converted
  cases t.unsigned <;> simp [hfits]

lemma noconv_hex (hx : x = 'x' ∨ x = 'X') :
    noconv (u ++ '0' :: x :: v) (u.length + 2) = .ok ⟨0, none, some (u.length + 1)⟩ := by
  have hzero : load (u ++ '0' :: x :: v) u.length = .ok '0' := by simp [load]
  have hmark : load (u ++ '0' :: x :: v) (u.length + 1) = .ok x := by simp [load]
  change (load _ (u.length + 1) >>= _) = _
  rw [hmark, ok_bind]
  change (load _ u.length >>= _) = _
  rw [hzero, ok_bind, if_pos ⟨toUpper_eq_X.mpr hx, rfl⟩]
  rfl

lemma noconv_start (hu : ∀ c ∈ u, toUpper c ≠ 'X') :
    noconv (u ++ v) u.length = .ok ⟨0, none, some 0⟩ := by
  rw [noconv]
  split_ifs with hlong
  · have hget (k : ℕ) (hk : k < u.length) : load (u ++ v) k = .ok u[k] := by
      simp [load, List.getElem?_append_left hk, List.getElem?_eq_getElem hk]
    have hlast := hu u[u.length - 1] (List.getElem_mem _)
    rw [hget (u.length - 1) (by omega), ok_bind, hget (u.length - 2) (by omega), ok_bind,
      if_neg fun h => hlast h.1]
  · rfl

section
variable (h : Split nptr ws sg r negative)
include h

lemma Split.no_mark : ∀ c ∈ ws ++ sg, toUpper c ≠ 'X' := by
  intro c hc hx
  have hdigit := digit_x (toUpper_eq_X.mp hx)
  rcases List.mem_append.mp hc with hc | hc
  · rw [digit_of_isSpace (h.spaces c hc)] at hdigit
    cases hdigit
  rcases h.signed with ⟨rfl, -⟩ | ⟨rfl | rfl, -⟩
  · obtain rfl := List.mem_singleton.mp hc
    cases hdigit
  · obtain rfl := List.mem_singleton.mp hc
    cases hdigit
  · cases hc

lemma Split.none (hmax : Maximal base r 0) :
    ∀ p negative n, p <+: nptr → ¬ Numeral base p negative n := by
  intro p negative' n hp hn
  obtain ⟨-, body, b, ds, -, hle, hsub, -⟩ := h.numeral hp hn
  obtain ⟨c, cs, d, rfl, -⟩ := hsub.head
  have := hmax _ b ds hsub hle
  simp at this

lemma noconv_answers (hm : Marked base r b (a :: v)) (ha : ¬ IsDigit b a) (t : Target) :
    Returns (noconv nptr (nptr.length - (a :: v).length)) (Answers base nptr t) := by
  generalize hsave : a :: v = save at hm
  cases hm with
  | @hex x _ hbase hx hr =>
    subst hsave
    have hoffset : nptr.length - (a :: v).length = (ws ++ sg).length + 2 := by
      rw [h.eq, hr]
      simp
      omega
    have hnptr : nptr = (ws ++ sg) ++ '0' :: x :: a :: v := by rw [h.eq, hr, List.append_assoc]
    have hmax : Maximal base r ['0'].length := by
      have hhex : Maximal base ('0' :: x :: ([] ++ a :: v)) 1 := maximal_hex hx ha hbase
      rwa [hr]
    obtain ⟨b', hzero⟩ : ∃ b', Subject base ['0'] b' [0] := by
      rcases hbase with rfl | rfl
      · exact ⟨8, .octal rfl (.cons (by decide) .nil)⟩
      · exact ⟨16, .plain (by decide) (.cons (by decide) .nil)⟩
    have hlongest := h.longest hr hzero hmax
    rw [hoffset]
    nth_rewrite 1 [hnptr]
    rw [noconv_hex hx]
    refine returns_ok (.inl ⟨_, _, _, hlongest, ?_⟩)
    rw [show Nat.ofDigits b' [0].reverse = 0 from Nat.ofDigits_singleton, converted_zero]
    simp
    rfl
  | none hm =>
    have hoffset : nptr.length - r.length = (ws ++ sg).length := by
      rw [h.eq]
      simp only [List.length_append]
      omega
    have hnptr : nptr = (ws ++ sg) ++ r := by simp [h.eq]
    have hmax : Maximal base r 0 := by
      rw [← hsave] at hm ⊢
      have hdigits : Maximal base ([] ++ a :: v) 0 := maximal_digits hm ha
      exact hdigits
    rw [hoffset]
    nth_rewrite 1 [hnptr]
    rw [noconv_start h.no_mark]
    exact returns_ok (.inr ⟨h.none hmax, rfl⟩)

lemma finish_answers (hm : Marked base r b (c :: cs ++ a :: v))
    (hcs : Digits b (c :: cs) ds) (ha : ¬ IsDigit b a) (hw : 2 ≤ t.width)
    (hcount : Counted t.width b 0 ds i overflow) :
    Answers base nptr t (finish t negative i overflow (nptr.length - (a :: v).length)) := by
  have hresult {body : List Char} (hr : r = body ++ a :: v) (hbody : Subject base body b ds)
      (hmax : Maximal base r body.length) :
      Answers base nptr t (finish t negative i overflow (nptr.length - (a :: v).length)) := by
    refine .inl ⟨_, _, _, h.longest hr hbody hmax, ?_⟩
    have hoffset : nptr.length - (a :: v).length = (ws ++ (sg ++ body)).length := by
      rw [h.eq, hr]
      simp only [List.length_append]
      omega
    rw [finish_eq hw hcount, hoffset]
  generalize hsave : c :: cs ++ a :: v = save at hm
  cases hm with
  | @hex x _ hbase hx hr =>
    subst hsave
    refine hresult hr (.hex hbase hx hcs) ?_
    have hmax : Maximal base ('0' :: x :: (c :: cs ++ a :: v))
        (if c :: cs = [] then 1 else (c :: cs).length + 2) :=
      maximal_hex hx ha hbase
    rwa [hr]
  | none hm =>
    subst hsave
    exact hresult rfl (subject_of_digits hm hcs) (maximal_digits hm ha)

end

lemma readNumber_answers (ht : t.Valid) (hbase : base = 0 ∨ (2 ≤ base ∧ base ≤ 36))
    (h : Split nptr ws sg r negative) (hsign : sign s = .ok (negative, r)) :
    Returns (readNumber t base nptr s) (Answers base nptr t) := by
  have hw : 2 ≤ t.width := by
    unfold Target.Valid at ht
    omega
  obtain ⟨b, save, hmark, hmarked, hend⟩ := numberBase_marked base h.ended
  obtain ⟨cs, ds, a, v, rfl, hcs, ha⟩ := exists_digits b hend
  obtain ⟨i, overflow, hread, hcount⟩ := readDigits_counted (v := v) ht (hmarked.base_mem hbase) hcs ha
  rw [readNumber, hsign, ok_bind]
  dsimp only
  rw [hmark, ok_bind]
  rw [hread, ok_bind]
  cases cs with
  | nil =>
    rw [List.nil_append, if_pos rfl]
    exact noconv_answers h hmarked ha t
  | cons c cs =>
    rw [if_neg (by simp; omega)]
    exact returns_ok (finish_answers h hmarked hcs ha hw hcount)

lemma strtol_answers (ht : t.Valid) (hbase : base = 0 ∨ (2 ≤ base ∧ base ≤ 36)) (hend : '\x00' ∈ nptr) :
    Returns (strtol t base nptr) (Answers base nptr t) := by
  obtain ⟨ws, sg, r, negative, s, h, hs, hskip, hsign⟩ := split_returns hend
  obtain ⟨c, s', hhead⟩ : ∃ c s', s = c :: s' :=
    List.exists_cons_of_ne_nil (hs ▸ List.append_ne_nil_of_right_ne_nil _ (List.ne_nil_of_mem h.ended))
  have hload : load s 0 = .ok c := by rw [hhead]; rfl
  rw [strtol, if_neg (by omega), hskip, ok_bind, hload, ok_bind, Int.toNat_natCast]
  split_ifs with hc
  · -- the string ends after the white space
    subst hc
    refine returns_ok (.inr ⟨h.none ?_, rfl⟩)
    have hr : r = '\x00' :: s' := by
      rw [hhead] at hs
      rcases h.signed with ⟨rfl, -⟩ | ⟨rfl | rfl, -⟩
      · exact absurd (List.cons.inj hs).1 (by decide)
      · exact absurd (List.cons.inj hs).1 (by decide)
      · exact hs.symm
    intro body b ds hsub hle
    obtain ⟨c, cs, d, rfl, hd⟩ := hsub.head
    rw [hr] at hle
    obtain ⟨rfl, -⟩ := List.cons_prefix_cons.mp hle
    cases hd
  · exact readNumber_answers ht hbase h hsign

lemma Longest.unique (hend : '\x00' ∈ nptr)
    (h : Longest base nptr p negative n) (h' : Longest base nptr p' negative' n') :
    p = p' ∧ negative = negative' ∧ n = n' := by
  obtain ⟨ws, sg, r, sn, s, hsplit, -, -, -⟩ := split_returns hend
  obtain ⟨hneg, body, b, ds, rfl, hle, hsub, rfl⟩ := hsplit.numeral h.1 h.2.1
  obtain ⟨hneg', body', b', ds', rfl, hle', hsub', rfl⟩ := hsplit.numeral h'.1 h'.2.1
  have hlength := h.2.2 _ _ _ h'.1 h'.2.1
  have hlength' := h'.2.2 _ _ _ h.1 h.2.1
  simp at hlength hlength'
  obtain rfl : body = body' :=
    (List.prefix_of_prefix_length_le hle hle' (by omega)).eq_of_length (by omega)
  obtain ⟨rfl, rfl⟩ := hsub.unique hsub'
  exact ⟨rfl, hneg.trans hneg'.symm, rfl⟩

lemma Subject.nul_not_mem (h : Subject base body b ds) : '\x00' ∉ body := by
  have hdigits {b : ℕ} {cs : List Char} {ds : List ℕ} (h : Digits b cs ds) : '\x00' ∉ cs :=
    fun hmem => not_isDigit_of_none rfl (h.isDigit _ hmem)
  cases h with
  | plain _ h | octal _ h | decimal _ _ h => exact hdigits h
  | hex _ hx h =>
    have htail := hdigits h
    rcases hx with rfl | rfl <;> simpa using htail

lemma Numeral.nul_not_mem (h : Numeral base p negative n) : '\x00' ∉ p := by
  obtain ⟨ws, sg, body, b, ds, rfl, hws, hsg, hsub, -⟩ := h
  have hbody := hsub.nul_not_mem
  have hspaces : '\x00' ∉ ws := fun hmem => absurd (hws _ hmem) (by decide)
  rcases hsg with ⟨rfl, -⟩ | ⟨rfl | rfl, -⟩ <;> simp [hspaces, hbody]

lemma Numeral.before_end (h : Numeral base p negative n)
    (hp : p <+: text ++ '\x00' :: rest) : p <+: text := by
  have hle : p.length ≤ text.length :=
    span_longest (P := fun c => c ≠ '\x00') (fun c hc hnul => h.nul_not_mem (hnul ▸ hc)) (not_not.mpr rfl) hp
  exact List.prefix_of_prefix_length_le hp (List.prefix_append _ _) hle

end

/-- The function returns the value of the longest numeral, or the nearest value of the
type with `ERANGE`, and its end. -/
theorem strtol_exact (t : Target) (base : ℕ) (text rest : List Char) (ht : t.Valid)
    (hbase : base = 0 ∨ (2 ≤ base ∧ base ≤ 36)) :
    ∃ result, strtol t base (text ++ '\x00' :: rest) = .ok result ∧
      (∀ p negative n, Longest base text p negative n →
        result = ⟨(converted t negative n).1, (converted t negative n).2, some p.length⟩) ∧
      ((∀ p negative n, p <+: text → ¬ Numeral base p negative n) → result = ⟨0, none, some 0⟩) := by
  have hend : '\x00' ∈ text ++ '\x00' :: rest := by simp
  have hextend (p : List Char) (hp : p <+: text) : p <+: text ++ '\x00' :: rest :=
    hp.trans (List.prefix_append _ _)
  obtain ⟨result, heq, hanswer⟩ := strtol_answers ht hbase hend
  refine ⟨result, heq, ?_, ?_⟩
  · intro p negative n hlongest
    have hwhole : Longest base (text ++ '\x00' :: rest) p negative n :=
      ⟨hextend p hlongest.1, hlongest.2.1, fun q negative' n' hq hn =>
        hlongest.2.2 q negative' n' (hn.before_end hq) hn⟩
    rcases hanswer with ⟨p', negative', n', hlongest', rfl⟩ | ⟨hnone, -⟩
    · obtain ⟨rfl, rfl, rfl⟩ := hwhole.unique hend hlongest'
      rfl
    · exact absurd hwhole.2.1 (hnone p negative n hwhole.1)
  · intro hnone
    rcases hanswer with ⟨p, negative, n, hlongest, -⟩ | ⟨-, rfl⟩
    · exact absurd hlongest.2.1 (hnone p negative n (hlongest.2.1.before_end hlongest.1))
    · rfl

/-- `strtoull` of a host with 32 bits -/
theorem strtol_exact_strtoull :
    ∃ result, strtol ⟨true, 32, 64⟩ (0 : ℕ) ([' ', '-', '0', 'x', '1', 'F', 'g'] ++ '\x00' :: []) = .ok result ∧
      (∀ p negative n, Longest 0 [' ', '-', '0', 'x', '1', 'F', 'g'] p negative n →
        result = ⟨(converted ⟨true, 32, 64⟩ negative n).1, (converted ⟨true, 32, 64⟩ negative n).2,
          some p.length⟩) ∧
      ((∀ p negative n, p <+: [' ', '-', '0', 'x', '1', 'F', 'g'] → ¬ Numeral 0 p negative n) →
        result = ⟨0, none, some 0⟩) :=
  strtol_exact ⟨true, 32, 64⟩ 0 [' ', '-', '0', 'x', '1', 'F', 'g'] [] (by decide) (.inl rfl)

example : strtol ⟨true, 32, 64⟩ 0 [' ', '-', '0', 'x', '1', 'F', 'g', '\x00'] =
    .ok ⟨2 ^ 64 - 31, none, some 6⟩ := by
  decide

end Eglibc.Strtol
