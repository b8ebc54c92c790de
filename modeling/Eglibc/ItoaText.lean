import Eglibc.Itoa

/-!
# The text that is printed

The digits of one limb, of the words of a value and of a value in a base that is a
power of two, and from them the text that `_itoa` leaves before `buflim`.
-/
namespace Eglibc.Itoa
open Checked Reciprocal

variable {ti steps value base workHi : ℕ} {s : Cursor}

/-! ### Digits of a limb -/

def figures (digits : List Char) (ds : List ℕ) : List Char :=
  (ds.map fun d => digits.getD d '?').reverse

@[simp] lemma figures_nil (digits : List Char) : figures digits [] = [] := rfl

@[simp] lemma length_figures (digits : List Char) (ds : List ℕ) :
    (figures digits ds).length = ds.length := by
  simp [figures]

lemma figures_cons (digits : List Char) (d : ℕ) (ds : List ℕ) :
    figures digits (d :: ds) = figures digits ds ++ [digits.getD d '?'] := by
  simp [figures]

lemma figures_append (digits : List Char) (ds es : List ℕ) :
    figures digits (ds ++ es) = figures digits es ++ figures digits ds := by
  simp [figures]

section
variable {base : ℕ} {brec : BaseTable} {digits : List Char}

lemma quoShift_eq (h : Sound base brec) (hb : 0 < base) (hflag : brec.flag = 0)
    (ht : ti < 2 ^ 32) : quoShift brec ti = ti / base := by
  obtain ⟨-, -, hlow, hhigh, -⟩ := h
  simp only [hflag, ne_eq, not_true_eq_false, if_false, Nat.add_zero] at hlow hhigh
  rw [quoShift, umulPpmm, Nat.shiftRight_eq_div_pow, Nat.div_div_eq_div_mul,
    mul_div_eq hb hlow hhigh (Nat.two_pow_pos _) ht]

lemma quoAdd_eq (h : Sound base brec) (hb : 0 < base) (hflag : brec.flag ≠ 0) (ht : ti < 2 ^ 32) :
    quoAdd brec ti = ti / base := by
  obtain ⟨hshift, hm, hlow, hhigh, -⟩ := h
  rw [if_pos hflag] at hlow hhigh
  obtain ⟨k, hk⟩ : ∃ k, brec.postShift = k + 1 := ⟨brec.postShift - 1, by omega⟩
  have hx : ti * brec.baseMultiplier / 2 ^ 32 ≤ ti :=
    Nat.div_le_of_le_mul (by rw [Nat.mul_comm]; exact Nat.mul_le_mul_right _ hm.le)
  -- half of the difference on top of `x` is half of the sum
  have hhalf : limb (ti * brec.baseMultiplier / 2 ^ 32 +
      limbSub ti (ti * brec.baseMultiplier / 2 ^ 32) >>> 1) =
      ti * (brec.baseMultiplier + 2 ^ 32) / 2 ^ 32 / 2 := by
    rw [Nat.mul_add, Nat.add_mul_div_right _ _ (by omega), Nat.shiftRight_one, limbSub, limb]
    omega
  rw [quoAdd, umulPpmm]
  rw [hhalf, Nat.shiftRight_eq_div_pow, hk, Nat.add_sub_cancel, Nat.div_div_eq_div_mul,
    ← pow_succ', ← hk, Nat.div_div_eq_div_mul, mul_div_eq hb hlow hhigh (Nat.two_pow_pos _) ht]

theorem limbLoop_eq (hquo : ∀ ti < 2 ^ 32, quo ti = ti / base) (hb : 1 < base)
    (hdigits : base ≤ digits.length) (ht : ti < 2 ^ 32) (hbudget : (base.digits ti).length < budget)
    (hroom : (base.digits ti).length ≤ s.before.length) :
    iterate (limbBody quo base digits) budget ⟨ti, ndig, s⟩ =
      .ok (ndig + (base.digits ti).length, s.write (figures digits (base.digits ti))) := by
  induction budget generalizing ti ndig s with
  | zero => exact absurd hbudget (Nat.not_lt_zero _)
  | succ budget ih =>
    by_cases h0 : ti = 0
    · subst h0
      rw [iterate_exit (r := (ndig, s)) (by simp [limbBody])]
      simp
    have hdef := Nat.digits_def' hb (Nat.pos_of_ne_zero h0)
    rw [hdef, List.length_cons] at hbudget hroom
    have hmod : ti % base < base := Nat.mod_lt _ (by omega)
    have hrem : limbSub ti (limb (ti / base * base)) = ti % base := by
      have := Nat.div_add_mod' ti base
      rw [limb, limbSub]
      omega
    have hstep : limbBody quo base digits ⟨ti, ndig, s⟩ =
        .ok (.inl ⟨ti / base, ndig + 1, s.write (figures digits [ti % base])⟩) := by
      rw [limbBody, if_pos h0]
      dsimp only
      rw [hquo ti ht, hrem, load_eq '?' (by omega), ok_bind, Cursor.put_eq _ (by omega)]
      rfl
    rw [iterate_next hstep, ih ((Nat.div_le_self _ _).trans_lt ht) (by omega) (by simp; omega), hdef,
      Cursor.write_write, ← figures_append, List.length_cons, List.singleton_append]
    congr 2
    omega

lemma limbDigits_eq (h : Sound base brec) (hb : 1 < base) (hdigits : base ≤ digits.length)
    (ht : ti < 2 ^ 32) (hroom : (base.digits ti).length ≤ s.before.length) :
    limbDigits brec base digits ti s =
      .ok ((base.digits ti).length, s.write (figures digits (base.digits ti))) := by
  have hlen : (base.digits ti).length ≤ 32 :=
    (Nat.digits_length_le_iff hb ti).mpr (ht.trans_le (Nat.pow_le_pow_left hb 32))
  rw [limbDigits]
  split_ifs with hflag
  · rw [limbLoop_eq (fun ti ht => quoAdd_eq h (by omega) hflag ht) hb hdigits ht (by omega) hroom,
      Nat.zero_add]
  · rw [limbLoop_eq (fun ti ht => quoShift_eq h (by omega) (not_not.mp hflag) ht) hb hdigits ht
      (by omega) hroom, Nat.zero_add]

lemma padZeros_eq (hzero : digits.getD 0 '?' = '0') (hroom : k ≤ s.before.length) :
    padZeros k s = .ok (s.write (figures digits (List.replicate k 0))) := by
  induction k generalizing s with
  | zero => rfl
  | succ k ih =>
    rw [padZeros, Cursor.put_eq _ (by omega), ok_bind, ih (by simp; omega), Cursor.write_write,
      List.replicate_succ, figures_cons, hzero]

end

/-! ### The words of the value -/

section
variable {base : ℕ} {brec : BaseTable}

lemma Sound.big_bounds (h : Sound base brec) : 2 ^ 27 ≤ brec.big.base ∧ brec.big.base < 2 ^ 32 := by
  obtain ⟨-, -, -, -, -, hsteps, hnorm, hnorm', -⟩ := h
  have hpow : 2 ^ brec.big.normalizationSteps ≤ 2 ^ 4 := Nat.pow_le_pow_right (by omega) hsteps
  constructor
  · have := Nat.mul_le_mul_left brec.big.base hpow
    omega
  · exact (Nat.le_mul_of_pos_right _ (Nat.two_pow_pos _)).trans_lt hnorm'

theorem div_two_pow_sub (h : steps ≤ w) (x : ℕ) : x / 2 ^ (w - steps) = x * 2 ^ steps / 2 ^ w := by
  conv_rhs => rw [← Nat.sub_add_cancel h, Nat.pow_add]
  rw [Nat.mul_div_mul_right _ _ (Nat.two_pow_pos _)]

lemma div_limb (n d : ℕ) (hd : 0 < d) :
    n / d = n / 2 ^ 32 / d * 2 ^ 32 + (n / 2 ^ 32 % d * 2 ^ 32 + n % 2 ^ 32) / d ∧
      n % d = (n / 2 ^ 32 % d * 2 ^ 32 + n % 2 ^ 32) % d := by
  have hn : n = n / 2 ^ 32 % d * 2 ^ 32 + n % 2 ^ 32 + d * (n / 2 ^ 32 / d * 2 ^ 32) := by
    have h₁ := Nat.div_add_mod n (2 ^ 32)
    have h₂ := Nat.div_add_mod (n / 2 ^ 32) d
    calc n = 2 ^ 32 * (n / 2 ^ 32) + n % 2 ^ 32 := h₁.symm
      _ = 2 ^ 32 * (d * (n / 2 ^ 32 / d) + n / 2 ^ 32 % d) + n % 2 ^ 32 := by rw [h₂]
      _ = _ := by ring
  constructor
  · conv_lhs => rw [hn, Nat.add_mul_div_left _ _ hd]
    rw [Nat.add_comm]
  · conv_lhs => rw [hn, Nat.add_mul_mod_self_left]

theorem shifted_mod (n b steps : ℕ) : (n * 2 ^ steps % (b * 2 ^ steps)) >>> steps = n % b := by
  rw [Nat.mul_mod_mul_right, Nat.shiftRight_eq_div_pow, Nat.mul_div_cancel _ (Nat.two_pow_pos _)]

theorem split_two (h : Sound base brec) (hv : value < 2 ^ 64)
    (h₁ : 1 ≤ limb (value >>> 32)) (h₂ : ¬ brec.big.base ≤ limb (value >>> 32)) :
    splitValue brec value = [value / brec.big.base, value % brec.big.base] := by
  obtain ⟨-, -, -, -, -, hsteps, hnorm, hnorm', hinv⟩ := h
  rw [splitValue, if_pos h₁]
  dsimp only
  rw [if_neg h₂]
  generalize brec.big.normalizationSteps = steps at *
  generalize brec.big.base = big at *
  rw [limb, Nat.shiftRight_eq_div_pow] at h₂
  have hlimb : limb (big <<< steps) = big * 2 ^ steps := by
    rw [Nat.shiftLeft_eq, limb, Nat.mod_eq_of_lt hnorm']
  have hshift : value * 2 ^ steps < big * 2 ^ steps * 2 ^ 32 := by
    rw [Nat.mul_right_comm]
    exact Nat.mul_lt_mul_of_pos_right (by omega) (Nat.two_pow_pos _)
  rw [hlimb, Nat.shiftLeft_eq, Nat.mod_eq_of_lt (a := value * _) (by omega),
    Nat.shiftRight_eq_div_pow, limb, limb,
    udivQrnndPreinv_eq hnorm hnorm' hinv (by omega) (Nat.mod_lt _ (by omega))]
  rw [show value * 2 ^ steps / 2 ^ 32 % 2 ^ 32 * 2 ^ 32 + value * 2 ^ steps % 2 ^ 32 =
      value * 2 ^ steps by omega,
    Nat.mul_div_mul_right _ _ (Nat.two_pow_pos _), shifted_mod]

theorem shifted_limbs (hsteps : steps ≤ 32) (hlo : lo < 2 ^ 32) (hhi : hi * 2 ^ steps < 2 ^ 32) :
    (if steps = 0 then hi else limb (hi <<< steps) ||| lo >>> (32 - steps)) =
        (hi * 2 ^ 32 + lo) * 2 ^ steps / 2 ^ 32 ∧
      limb (lo <<< steps) = (hi * 2 ^ 32 + lo) * 2 ^ steps % 2 ^ 32 := by
  have hsum : (hi * 2 ^ 32 + lo) * 2 ^ steps = lo * 2 ^ steps + hi * 2 ^ steps * 2 ^ 32 := by ring
  rw [hsum, Nat.add_mul_div_right _ _ (by omega), Nat.add_mul_mod_self_right, Nat.shiftLeft_eq,
    Nat.shiftLeft_eq]
  refine ⟨?_, rfl⟩
  split_ifs with h0
  · subst h0
    omega
  have hlt : lo / 2 ^ (32 - steps) < 2 ^ steps := by
    refine Nat.div_lt_of_lt_mul ?_
    rwa [← Nat.pow_add, Nat.sub_add_cancel hsteps]
  rw [limb, Nat.mod_eq_of_lt hhi, Nat.shiftRight_eq_div_pow, ← Nat.shiftLeft_eq hi,
    ← Nat.shiftLeft_add_eq_or_of_lt hlt, div_two_pow_sub hsteps, Nat.add_comm, Nat.shiftLeft_eq]

lemma value_limbs (hv : value < 2 ^ 64) (hsteps : steps ≤ 4) :
    (if steps = 0 then 0 else limb (value >>> (64 - steps))) =
        value * 2 ^ steps / 2 ^ 32 / 2 ^ 32 ∧
      limb (value >>> (32 - steps)) = value * 2 ^ steps / 2 ^ 32 % 2 ^ 32 ∧
      limb (limb value <<< steps) = value * 2 ^ steps % 2 ^ 32 := by
  have hpow : 2 ^ steps ≤ 2 ^ 4 := Nat.pow_le_pow_right (by omega) hsteps
  have hbound := Nat.mul_lt_mul_of_lt_of_le hv hpow (by omega)
  refine ⟨?_, ?_, ?_⟩
  · split_ifs with h0
    · subst h0
      omega
    · rw [Nat.shiftRight_eq_div_pow, div_two_pow_sub (by omega), limb]
      omega
  · rw [Nat.shiftRight_eq_div_pow, div_two_pow_sub (by omega), limb]
  · rw [Nat.shiftLeft_eq, limb, limb, Nat.mod_mul_mod]

lemma split_three (h : Sound base brec) (hv : value < 2 ^ 64)
    (h₁ : 1 ≤ limb (value >>> 32)) (h₂ : brec.big.base ≤ limb (value >>> 32)) :
    splitValue brec value = [value / brec.big.base / brec.big.base,
      value / brec.big.base % brec.big.base, value % brec.big.base] := by
  have hbig := h.big_bounds.1
  obtain ⟨-, -, -, -, -, hsteps, hnorm, hnorm', hinv⟩ := h
  rw [splitValue, if_pos h₁]
  dsimp only
  rw [if_pos h₂]
  generalize brec.big.normalizationSteps = steps at *
  generalize brec.big.base = big at *
  obtain ⟨hxh, hxl, hlow⟩ := value_limbs hv hsteps
  have hpow : 2 ^ steps ≤ 2 ^ 4 := Nat.pow_le_pow_right (by omega) hsteps
  have hlimb : limb (big <<< steps) = big * 2 ^ steps := by
    rw [Nat.shiftLeft_eq, limb, Nat.mod_eq_of_lt hnorm']
  have hbound := Nat.mul_lt_mul_of_lt_of_le hv hpow (by omega)
  have hd : 0 < big * 2 ^ steps := by omega
  obtain ⟨hquo, hrem⟩ := div_limb (value * 2 ^ steps) (big * 2 ^ steps) hd
  rw [Nat.mul_div_mul_right _ _ (Nat.two_pow_pos _)] at hquo
  rw [hxh, hxl, hlow, hlimb]
  have hr := Nat.mod_lt (value * 2 ^ steps / 2 ^ 32) hd
  rw [udivQrnndPreinv_eq hnorm hnorm' hinv (by omega) (Nat.mod_lt _ (by omega)),
    Nat.div_add_mod']
  rw [udivQrnndPreinv_eq hnorm hnorm' hinv hr (Nat.mod_lt _ (by omega)), ← hrem, shifted_mod]
  have hhi : value * 2 ^ steps / 2 ^ 32 / (big * 2 ^ steps) < 2 ^ 6 :=
    Nat.div_lt_of_lt_mul (by omega)
  have hlo : (value * 2 ^ steps / 2 ^ 32 % (big * 2 ^ steps) * 2 ^ 32 +
      value * 2 ^ steps % 2 ^ 32) / (big * 2 ^ steps) < 2 ^ 32 :=
    Nat.div_lt_of_lt_mul (by omega)
  have hhi' := Nat.mul_lt_mul_of_lt_of_le hhi hpow (Nat.two_pow_pos _)
  obtain ⟨hh, hl⟩ := shifted_limbs (show steps ≤ 32 by omega) hlo (hhi'.trans (by omega))
  rw [← hquo] at hh hl
  have hlast : value / big * 2 ^ steps < big * 2 ^ steps * 2 ^ 32 := by
    rw [Nat.mul_right_comm]
    refine Nat.mul_lt_mul_of_pos_right (Nat.div_lt_of_lt_mul ?_) (Nat.two_pow_pos _)
    have := Nat.mul_le_mul hbig hbig
    rw [← Nat.mul_assoc]
    omega
  rw [hh, hl, udivQrnndPreinv_eq hnorm hnorm' hinv (by omega) (Nat.mod_lt _ (by omega)),
    Nat.div_add_mod', Nat.mul_div_mul_right _ _ (Nat.two_pow_pos _)]
  rw [shifted_mod]

def wordsValue (big : ℕ) (t : List ℕ) : ℕ := t.foldl (fun value ti => value * big + ti) 0

structure IsSplit (big value : ℕ) (t : List ℕ) : Prop where
  ne_nil : t ≠ []
  value_eq : wordsValue big t = value
  limbs : ∀ ti ∈ t, ti < 2 ^ 32
  inner : ∀ ti ∈ t.tail, ti < big
  leading : 1 < t.length → 0 < t.headD 0

lemma splitValue_isSplit (h : Sound base brec) (hv : value < 2 ^ 64) :
    IsSplit brec.big.base value (splitValue brec value) := by
  obtain ⟨hbig, hbig'⟩ := h.big_bounds
  have hpos : 0 < brec.big.base := by omega
  have hmod := Nat.mod_lt value hpos
  have hmod' := Nat.mod_lt (value / brec.big.base) hpos
  have hvalue := Nat.div_add_mod' value brec.big.base
  by_cases h₁ : 1 ≤ limb (value >>> 32)
  · have hhi : 2 ^ 32 ≤ value := by
      rw [limb, Nat.shiftRight_eq_div_pow] at h₁
      omega
    by_cases h₂ : brec.big.base ≤ limb (value >>> 32)
    · rw [split_three h hv h₁ h₂]
      rw [limb, Nat.shiftRight_eq_div_pow] at h₂
      have hlead : 0 < value / brec.big.base / brec.big.base := by
        refine Nat.div_pos ((Nat.le_div_iff_mul_le hpos).mpr ?_) hpos
        have := Nat.mul_le_mul_left brec.big.base hbig'.le
        omega
      have htop : value / brec.big.base / brec.big.base < 2 ^ 32 := by
        refine Nat.div_lt_of_lt_mul (Nat.div_lt_of_lt_mul ?_)
        have := Nat.mul_le_mul hbig hbig
        rw [← Nat.mul_assoc]
        omega
      have hvalue' := Nat.div_add_mod' (value / brec.big.base) brec.big.base
      refine ⟨by simp, ?_, ?_, by simp [hmod, hmod'], fun _ => hlead⟩
      · simp only [wordsValue, List.foldl_cons, List.foldl_nil, Nat.zero_mul, Nat.zero_add]
        rw [hvalue', hvalue]
      · simp only [List.mem_cons, List.not_mem_nil, or_false]
        rintro ti (rfl | rfl | rfl) <;> omega
    rw [split_two h hv h₁ h₂]
    rw [limb, Nat.shiftRight_eq_div_pow] at h₂
    have hlead : 0 < value / brec.big.base := Nat.div_pos (by omega) hpos
    have htop : value / brec.big.base < 2 ^ 32 := Nat.div_lt_of_lt_mul (by omega)
    refine ⟨by simp, ?_, ?_, by simp [hmod], fun _ => hlead⟩
    · simpa [wordsValue] using hvalue
    · simp only [List.mem_cons, List.not_mem_nil, or_false]
      rintro ti (rfl | rfl) <;> omega
  rw [splitValue, if_neg h₁]
  rw [limb, Nat.shiftRight_eq_div_pow] at h₁
  have hlimb : limb value = value := Nat.mod_eq_of_lt (by omega)
  rw [hlimb]
  refine ⟨by simp, by simp [wordsValue], ?_, by simp, by simp⟩
  simp
  omega

end

/-! ### The text of the value -/

section
variable {base : ℕ} {brec : BaseTable} {digits : List Char} {big : ℕ}

@[simp] lemma wordsValue_append (big : ℕ) (t : List ℕ) (ti : ℕ) :
    wordsValue big (t ++ [ti]) = wordsValue big t * big + ti := by
  simp [wordsValue]

lemma foldl_words_pos (hbig : 0 < big) (t : List ℕ) (h : 0 < value) :
    0 < t.foldl (fun value ti => value * big + ti) value := by
  induction t generalizing value with
  | nil => exact h
  | cons ti t ih => exact ih (Nat.add_pos_left (Nat.mul_pos h hbig) ti)

lemma IsSplit.init (hbig : 0 < big) (ht : t ≠ []) (h : IsSplit big value (t ++ [ti])) :
    IsSplit big (wordsValue big t) t ∧ 0 < wordsValue big t ∧ ti < big := by
  obtain ⟨x, t, rfl⟩ := List.exists_cons_of_ne_nil ht
  have hlead : 0 < x := h.leading (by simp)
  refine ⟨⟨by simp, rfl, fun y hy => h.limbs y (List.mem_append_left _ hy),
    fun y hy => h.inner y (List.mem_append_left _ hy), fun _ => hlead⟩, ?_, h.inner ti (by simp)⟩
  simpa [wordsValue] using foldl_words_pos hbig t hlead

lemma convertWords_append (t u : List ℕ) (hn : n ≤ t.length) (s : Cursor) :
    convertWords brec base digits (t ++ u) n s = convertWords brec base digits t n s := by
  induction n generalizing s with
  | zero => rfl
  | succ n ih =>
    have hload : load (t ++ u) n = load t n := by
      rw [load, load, List.getElem?_append_left hn]
    simp only [convertWords, hload, ih (by omega)]

theorem convertWords_eq (h : Sound base brec) (hb : 1 < base) (hdigits : base ≤ digits.length)
    (hzero : digits.getD 0 '?' = '0')
    (ht : IsSplit brec.big.base value t) (hroom : (base.digits value).length ≤ s.before.length) :
    convertWords brec base digits t t.length s =
      .ok (s.write (figures digits (base.digits value))) := by
  have hbig : 0 < brec.big.base := by have := h.big_bounds; omega
  have hpow : brec.big.base = base ^ brec.big.ndigits := h.2.2.2.2.1
  induction t using List.reverseRecOn generalizing value s with
  | nil => exact absurd rfl ht.ne_nil
  | append_singleton t ti ih =>
    have hti : ti < 2 ^ 32 := ht.limbs ti (by simp)
    have hload : load (t ++ [ti]) t.length = .ok ti := by
      simp [load]
    have hvalue := ht.value_eq
    rw [wordsValue_append] at hvalue
    rw [List.length_append, List.length_singleton, convertWords, hload, ok_bind]
    by_cases hnil : t = []
    · subst hnil
      obtain rfl : ti = value := by simpa [wordsValue] using hvalue
      rw [limbDigits_eq h hb hdigits hti hroom, ok_bind]
      rfl
    obtain ⟨hinit, hpos, hlt⟩ := ht.init hbig hnil
    rw [hpow] at hlt
    -- the limb and its zeros are the low digits of the value
    have hpad := digits_padded hb hlt hpos
    rw [← hpow, Nat.mul_comm, Nat.add_comm, hvalue] at hpad
    rw [← hpad, List.length_append, List.length_append, List.length_replicate] at hroom
    rw [limbDigits_eq h hb hdigits hti (by omega), ok_bind]
    dsimp only
    rw [if_pos (by simpa using hnil), padZeros_eq hzero (by simp; omega), ok_bind,
      convertWords_append _ _ le_rfl, ih hinit (by simp; omega), Cursor.write_write,
      Cursor.write_write, ← figures_append, ← figures_append, ← List.append_assoc, hpad]

end

def numeral (base value : ℕ) : List ℕ := if value = 0 then [0] else base.digits value

section
variable {bits : ℕ} {digits : List Char}

lemma and_mask (x : ℕ) : x &&& (1 <<< bits - 1) = x % 2 ^ bits := by
  rw [Nat.one_shiftLeft, Nat.and_two_pow_sub_one_eq_mod]

lemma lowLoop_eq (hdigits : 2 ^ bits ≤ digits.length) (hroom : cnt ≤ s.before.length) :
    lowLoop bits digits cnt workLo s = .ok (workLo / (2 ^ bits) ^ cnt,
      s.write (figures digits (lowDigits (2 ^ bits) cnt workLo))) := by
  induction cnt generalizing workLo s with
  | zero => simp [lowLoop, lowDigits]
  | succ cnt ih =>
    rw [lowLoop, and_mask, load_eq '?' (by omega), ok_bind, Cursor.put_eq _ (by omega), ok_bind,
      ih (by simp; omega), Cursor.write_write, lowDigits, figures_cons,
      Nat.shiftRight_eq_div_pow, Nat.div_div_eq_div_mul, ← pow_succ']

lemma numeral_of_div (hb : 1 < base) (h : value / base ≠ 0) :
    numeral base value = value % base :: numeral base (value / base) := by
  have hpos : 0 < value := by
    rcases Nat.eq_zero_or_pos value with rfl | hpos
    · simp at h
    · exact hpos
  rw [numeral, numeral, if_neg hpos.ne', if_neg h, Nat.digits_def' hb hpos]

lemma numeral_of_lt (h : value < base) : numeral base value = [value] := by
  rw [numeral]
  split_ifs with h0
  · rw [h0]
  · exact Nat.digits_of_lt base value h0 h

lemma length_numeral_pos (base value : ℕ) : 0 < (numeral base value).length := by
  rw [numeral]
  split_ifs with h0
  · simp
  · simpa [List.length_pos_iff, Nat.digits_ne_nil_iff_ne_zero] using h0

lemma highBody_eq (hdigits : 2 ^ bits ≤ digits.length) (workHi : ℕ) (hs : 0 < s.before.length) :
    highBody bits digits (workHi, s) =
      if workHi / 2 ^ bits ≠ 0 then
        .ok (.inl (workHi / 2 ^ bits, s.write (figures digits [workHi % 2 ^ bits])))
      else .ok (.inr (s.write (figures digits [workHi % 2 ^ bits]))) := by
  rw [highBody, and_mask, load_eq '?' (by omega), ok_bind, Cursor.put_eq _ hs, ok_bind,
    Nat.shiftRight_eq_div_pow]
  rfl

lemma highIterate_eq (hbits : 0 < bits) (hdigits : 2 ^ bits ≤ digits.length)
    (hbudget : (numeral (2 ^ bits) workHi).length ≤ budget)
    (hroom : (numeral (2 ^ bits) workHi).length ≤ s.before.length) :
    iterate (highBody bits digits) budget (workHi, s) =
      .ok (s.write (figures digits (numeral (2 ^ bits) workHi))) := by
  have hb : 1 < 2 ^ bits := Nat.one_lt_two_pow (by omega)
  have hlen := length_numeral_pos (2 ^ bits)
  induction budget generalizing workHi s with
  | zero => exact absurd (hlen workHi) (by omega)
  | succ budget ih =>
    have hstep := highBody_eq hdigits workHi ((hlen workHi).trans_le hroom)
    by_cases hdiv : workHi / 2 ^ bits = 0
    · have hlt : workHi < 2 ^ bits := (Nat.div_eq_zero_iff_lt (by omega)).mp hdiv
      rw [if_neg (not_not.mpr hdiv), Nat.mod_eq_of_lt hlt] at hstep
      rw [iterate_exit hstep, numeral_of_lt hlt]
    have hdef := numeral_of_div hb hdiv
    rw [hdef, List.length_cons] at hbudget hroom
    rw [if_pos hdiv] at hstep
    rw [iterate_next hstep, ih (by omega) (by simp; omega), Cursor.write_write,
      ← figures_append, hdef, List.singleton_append]

lemma highLoop_eq (hbits : 0 < bits) (hdigits : 2 ^ bits ≤ digits.length) (hhi : workHi < 2 ^ 32)
    (hroom : (numeral (2 ^ bits) workHi).length ≤ s.before.length) :
    highLoop bits digits workHi s = .ok (s.write (figures digits (numeral (2 ^ bits) workHi))) := by
  have hb : 1 < 2 ^ bits := Nat.one_lt_two_pow (by omega)
  refine highIterate_eq hbits hdigits ?_ hroom
  rw [numeral]
  split_ifs with h0
  · simp
  · have := (Nat.digits_length_le_iff hb workHi).mpr (hhi.trans_le (Nat.pow_le_pow_left hb 32))
    omega

lemma middleDigit_eq (hbits : 0 < bits) (hbits' : bits ≤ 32)
    (hdigits : 2 ^ bits ≤ digits.length) (hhi : 0 < workHi)
    (hhi' : workHi < 2 ^ 32) (hlo : workLo < 2 ^ (32 % bits))
    (hroom : ((2 ^ bits).digits (workLo + 2 ^ (32 % bits) * workHi)).length ≤ s.before.length) :
    middleDigit bits digits workHi workLo s =
      .ok (s.write (figures digits ((2 ^ bits).digits (workLo + 2 ^ (32 % bits) * workHi)))) := by
  have hb : 1 < 2 ^ bits := Nat.one_lt_two_pow (by omega)
  have hk : 32 % bits < bits := Nat.mod_lt _ hbits
  rw [middleDigit]
  generalize 32 % bits = k at *
  have hpow : 2 ^ bits = 2 ^ k * 2 ^ (bits - k) := by
    rw [← Nat.pow_add, Nat.add_sub_cancel' hk.le]
  have hlimb : 2 ^ bits ≤ 2 ^ 32 := Nat.pow_le_pow_right (by omega) hbits'
  -- the next digit has the bits left and the lowest ones of the high limb
  have hmod : (workLo + 2 ^ k * workHi) % 2 ^ bits = workLo + 2 ^ k * (workHi % 2 ^ (bits - k)) := by
    rw [hpow, Nat.mod_mul, Nat.add_mul_mod_self_left, Nat.mod_eq_of_lt hlo,
      Nat.add_mul_div_left _ _ (Nat.two_pow_pos _), Nat.div_eq_of_lt hlo, Nat.zero_add]
  have hdiv : (workLo + 2 ^ k * workHi) / 2 ^ bits = workHi / 2 ^ (bits - k) := by
    rw [hpow, ← Nat.div_div_eq_div_mul, Nat.add_mul_div_left _ _ (Nat.two_pow_pos _),
      Nat.div_eq_of_lt hlo, Nat.zero_add]
  have hlt : (workLo + 2 ^ k * workHi) % 2 ^ bits < 2 ^ bits := Nat.mod_lt _ (by omega)
  have hor : workLo ||| limb ((workHi &&& (1 <<< (bits - k) - 1)) <<< k) =
      (workLo + 2 ^ k * workHi) % 2 ^ bits := by
    rw [hmod] at hlt ⊢
    rw [and_mask, limb, Nat.mod_eq_of_lt (by rw [Nat.shiftLeft_eq, Nat.mul_comm]; omega),
      Nat.or_comm, ← Nat.shiftLeft_add_eq_or_of_lt hlo, Nat.shiftLeft_eq, Nat.add_comm,
      Nat.mul_comm]
  have hpos : 0 < workLo + 2 ^ k * workHi :=
    Nat.add_pos_right _ (Nat.mul_pos (Nat.two_pow_pos _) hhi)
  rw [hor, Nat.shiftRight_eq_div_pow, ← hdiv]
  have hnumeral : numeral (2 ^ bits) (workLo + 2 ^ k * workHi) =
      (2 ^ bits).digits (workLo + 2 ^ k * workHi) := if_neg hpos.ne'
  rw [← hnumeral] at hroom ⊢
  by_cases h0 : (workLo + 2 ^ k * workHi) / 2 ^ bits = 0
  · have hsmall := (Nat.div_eq_zero_iff_lt (by omega)).mp h0
    rw [if_pos h0, Nat.mod_eq_of_lt hsmall]
    exact highLoop_eq hbits hdigits (by omega) hroom
  have hdef := numeral_of_div hb h0
  rw [hdef, List.length_cons] at hroom
  have hhigh : (workLo + 2 ^ k * workHi) / 2 ^ bits < 2 ^ 32 := by
    rw [hdiv]
    exact (Nat.div_le_self _ _).trans_lt hhi'
  rw [if_neg h0, load_eq '?' (hlt.trans_le hdigits), ok_bind, Cursor.put_eq _ (by omega),
    ok_bind, highLoop_eq hbits hdigits hhigh (by simp; omega), Cursor.write_write, hdef,
    figures_cons]

lemma run2N_eq (hbits : 0 < bits) (hbits' : bits ≤ 32) (hdigits : 2 ^ bits ≤ digits.length)
    (hv : value < 2 ^ 64) (hroom : (numeral (2 ^ bits) value).length ≤ s.before.length) :
    run2N bits digits value s = .ok (s.write (figures digits (numeral (2 ^ bits) value))) := by
  have hb : 1 < 2 ^ bits := Nat.one_lt_two_pow (by omega)
  have hhi : limb (value >>> 32) = value / 2 ^ 32 := by
    simp [limb]
    omega
  have hlo : limb (value &&& 0xffffffff) = value % 2 ^ 32 := by
    rw [show 0xffffffff = 2 ^ 32 - 1 by rfl, Nat.and_two_pow_sub_one_eq_mod, limb, Nat.mod_mod]
  rw [run2N, hhi, hlo]
  by_cases h0 : value / 2 ^ 32 = 0
  · have hmod : value % 2 ^ 32 = value := by omega
    rw [if_neg (not_not.mpr h0), hmod]
    exact highLoop_eq hbits hdigits (by omega) hroom
  have hsplit : (2 ^ bits) ^ (32 / bits) * 2 ^ (32 % bits) = 2 ^ 32 := by
    rw [← Nat.pow_mul, ← Nat.pow_add, Nat.div_add_mod]
  -- the digits of the low limb are followed by those of what it leaves and the high limb
  have hvalue : value = value % 2 ^ 32 % (2 ^ bits) ^ (32 / bits) + (2 ^ bits) ^ (32 / bits) *
      (value % 2 ^ 32 / (2 ^ bits) ^ (32 / bits) + 2 ^ (32 % bits) * (value / 2 ^ 32)) := by
    rw [Nat.mul_add, ← Nat.add_assoc, Nat.mod_add_div, ← Nat.mul_assoc, hsplit]
    omega
  have hleft : value % 2 ^ 32 / (2 ^ bits) ^ (32 / bits) < 2 ^ (32 % bits) := by
    refine Nat.div_lt_of_lt_mul ?_
    rw [hsplit]
    exact Nat.mod_lt _ (by omega)
  have hpos : 0 < value % 2 ^ 32 / (2 ^ bits) ^ (32 / bits) + 2 ^ (32 % bits) * (value / 2 ^ 32) :=
    Nat.add_pos_right _ (Nat.mul_pos (Nat.two_pow_pos _) (Nat.pos_of_ne_zero h0))
  have hdigit := lowDigits_append hb hpos (32 / bits) (value % 2 ^ 32)
  rw [← hvalue] at hdigit
  have hnumeral : numeral (2 ^ bits) value = (2 ^ bits).digits value := if_neg (by omega)
  have hwritten : (s.write (figures digits (lowDigits (2 ^ bits) (32 / bits)
      (value % 2 ^ 32)))).before.length = s.before.length - 32 / bits := by
    simp
  rw [hnumeral, ← hdigit, List.length_append, length_lowDigits] at hroom
  rw [if_pos h0, lowLoop_eq hdigits (by omega), ok_bind, hnumeral, ← hdigit, figures_append,
    ← Cursor.write_write]
  dsimp only
  by_cases hrest : 32 % bits = 0
  · rw [hrest, Nat.pow_zero] at hleft
    rw [if_neg (not_not.mpr hrest)]
    have hsum : value % 2 ^ 32 / (2 ^ bits) ^ (32 / bits) + 2 ^ (32 % bits) * (value / 2 ^ 32) =
        value / 2 ^ 32 := by
      rw [Nat.lt_one_iff.mp hleft, hrest, Nat.pow_zero, Nat.one_mul, Nat.zero_add]
    rw [hsum] at hroom ⊢
    have hnumeral' : numeral (2 ^ bits) (value / 2 ^ 32) = (2 ^ bits).digits (value / 2 ^ 32) :=
      if_neg h0
    rw [← hnumeral'] at hroom ⊢
    exact highLoop_eq hbits hdigits (by omega) (by omega)
  · rw [if_pos hrest]
    exact middleDigit_eq hbits hbits' hdigits (by omega) (by omega) hleft (by omega)

end

lemma itoaDefault_eq (h : Sound base brec)
    (hb : 1 < base) (hdigits : base ≤ digits.length) (hzero : digits.getD 0 '?' = '0')
    (hv : value < 2 ^ 64) (hroom : (numeral base value).length ≤ s.before.length) :
    itoaDefault brec base digits value s =
      .ok (s.write (figures digits (numeral base value))) := by
  have hpos := (length_numeral_pos base value).trans_le hroom
  rw [itoaDefault]
  by_cases h0 : value = 0
  · subst h0
    rw [convertWords_eq h hb hdigits hzero (splitValue_isSplit h hv) (by simp), ok_bind,
      Nat.digits_zero, figures_nil, Cursor.write_nil, if_pos rfl, Cursor.put_eq _ hpos, ← hzero]
    rfl
  have hnumeral : numeral base value = base.digits value := if_neg h0
  have hlen := length_numeral_pos base value
  rw [hnumeral] at hroom hlen ⊢
  rw [convertWords_eq h hb hdigits hzero (splitValue_isSplit h hv) hroom, ok_bind,
    if_neg (by simp; omega)]

/-- For every 64-bit value, every base and both digit cases, the bytes right before
`buflim` become the digits of the value, the most significant one first and without
leading zeros; no other byte of the buffer changes, and the answer is the start of the text. -/
theorem itoa_writes_numeral (value : UInt64) (base : ℕ) (upperCase : Bool) (buflim : Cursor)
    (hlow : 2 ≤ base) (hhigh : base ≤ 36)
    (hroom : (numeral base value.toNat).length ≤ buflim.before.length) :
    itoa value.toNat buflim base upperCase =
      .ok (buflim.write (figures (if upperCase then itoaUpperDigits else itoaLowerDigits)
        (numeral base value.toNat))) := by
  have hlen : (if upperCase then itoaUpperDigits else itoaLowerDigits).length = 36 := by
    cases upperCase <;> rfl
  have hzero : (if upperCase then itoaUpperDigits else itoaLowerDigits).getD 0 '?' = '0' := by
    cases upperCase <;> rfl
  have hv : value.toNat < 2 ^ 64 := value.toNat_lt
  have hsound := itoaBaseTable_sound (base - 2) (by omega)
  rw [Nat.sub_add_cancel hlow] at hsound
  rw [itoa, load_eq default (show base - 2 < itoaBaseTable.length from
    Nat.sub_lt_left_of_lt_add hlow (Nat.lt_succ_of_le hhigh)), ok_bind]
  split
  · exact run2N_eq (show 0 < 3 by omega) (by omega) (by omega) hv hroom
  · exact run2N_eq (show 0 < 4 by omega) (by omega) (by omega) hv hroom
  · exact itoaDefault_eq hsound (by omega) (by omega) hzero hv hroom

/-- The largest value in base 36. -/
theorem itoa_writes_numeral_max :
    itoa (UInt64.toNat 18446744073709551615) ⟨List.replicate 13 ' ', []⟩ 36 true =
      .ok ⟨[], "3W5E11264SGSF".toList⟩ := by
  have hdigits : numeral 36 (UInt64.toNat 18446744073709551615) =
      [15, 28, 16, 28, 4, 6, 2, 1, 1, 14, 5, 32, 3] := by
    rw [show UInt64.toNat 18446744073709551615 = 18446744073709551615 from rfl]
    norm_num [numeral]
  rw [itoa_writes_numeral 18446744073709551615 36 true _ (by decide) (by decide)
    (by rw [hdigits]; decide), hdigits]
  rfl

end Eglibc.Itoa
