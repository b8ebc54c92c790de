import Eglibc.Utf8

/-!
# The two directions of UTF-8

The forms of UTF-8 as arithmetic: a lead byte and base-64 digits behind it.
-/
namespace Eglibc.Utf8
open Checked Gconv

variable {ch n wc cnt hi : ℕ}

def tails : ℕ → ℕ → List UInt8
  | 0, _ => []
  | n + 1, wc => UInt8.ofNat (0x80 + wc / 64 ^ n % 64) :: tails n wc

@[simp] lemma length_tails (n wc : ℕ) : (tails n wc).length = n := by
  induction n with
  | zero => rfl
  | succ n ih => simp [tails, ih]

lemma tails_snoc (n wc : ℕ) :
    tails (n + 1) wc = tails n (wc / 64) ++ [UInt8.ofNat (0x80 + wc % 64)] := by
  induction n with
  | zero => simp [tails]
  | succ n ih =>
    rw [tails, ih, tails, Nat.div_div_eq_div_mul, ← Nat.pow_succ']
    rfl

lemma mark_or (mark n digit : ℕ) (h : digit < 2 ^ n) : mark <<< n ||| digit = mark * 2 ^ n + digit := by
  rw [← Nat.shiftLeft_add_eq_or_of_lt h, Nat.shiftLeft_eq]

lemma and_63 (n : ℕ) : n &&& 0x3f = n % 64 := Nat.and_two_pow_sub_one_eq_mod n 6

lemma trail_or (wc : ℕ) : 0x80 ||| wc &&& 0x3f = 0x80 + wc % 64 := by
  rw [and_63]
  exact mark_or 2 6 (wc % 64) (Nat.mod_lt _ (by decide))

lemma accumulate (ch b : ℕ) : ch <<< 6 ||| b &&& 0x3f = ch * 64 + b % 64 := by
  rw [and_63]
  exact mark_or ch 6 (b % 64) (Nat.mod_lt _ (by decide))

lemma storeTrail_eq (n wc : ℕ) (bytes : List UInt8) :
    storeTrail n wc bytes = (wc / 64 ^ n, tails n wc ++ bytes) := by
  induction n generalizing wc bytes with
  | zero => simp [storeTrail, tails]
  | succ n ih =>
    have hshift : wc >>> 6 = wc / 64 := Nat.shiftRight_eq_div_pow wc 6
    rw [storeTrail, ih, trail_or, hshift, tails_snoc, Nat.div_div_eq_div_mul, List.append_assoc,
      Nat.pow_succ', List.singleton_append]

lemma isTrail_ofNat (h : digit < 64) : isTrail (UInt8.ofNat (0x80 + digit)) = true := by
  have : ∀ d < 64, isTrail (UInt8.ofNat (0x80 + d)) = true := by decide
  exact this digit h

lemma toNat_trail (h : digit < 64) : (UInt8.ofNat (0x80 + digit)).toNat = 0x80 + digit := by
  simp
  omega

lemma eq_of_isTrail (h : isTrail b = true) : b = UInt8.ofNat (0x80 + b.toNat % 64) := by
  have : ∀ n < 256, n &&& 0xc0 = 0x80 → n = 0x80 + n % 64 := by decide +kernel
  apply UInt8.toNat_inj.mp
  rw [toNat_trail (Nat.mod_lt _ (by decide))]
  exact this _ b.toNat_lt (by simpa [isTrail] using h)

lemma readTrail_tails (ch n wc : ℕ) (rest : List UInt8) :
    readTrail ch n (tails n wc ++ rest) = (n, ch * 64 ^ n + wc % 64 ^ n) := by
  induction n generalizing ch with
  | zero => simp [readTrail, Nat.mod_one]
  | succ n ih =>
    have hdigit : wc / 64 ^ n % 64 < 64 := Nat.mod_lt _ (by decide)
    have hvalue : (ch * 64 + wc / 64 ^ n % 64) * 64 ^ n + wc % 64 ^ n =
        ch * 64 ^ (n + 1) + wc % 64 ^ (n + 1) := by
      rw [Nat.mod_pow_succ]
      ring
    rw [tails, List.cons_append, readTrail, if_pos (isTrail_ofNat hdigit), accumulate,
      toNat_trail hdigit, show (0x80 + wc / 64 ^ n % 64) % 64 = wc / 64 ^ n % 64 by omega, ih, hvalue]

lemma readTrail_inv (h : (readTrail ch n bytes).1 = n) : (readTrail ch n bytes).2 / 64 ^ n = ch ∧
      bytes = tails n (readTrail ch n bytes).2 ++ bytes.drop n := by
  induction n generalizing ch bytes with
  | zero => simp [readTrail, tails]
  | succ n ih =>
    cases bytes with
    | nil => cases h
    | cons b bytes =>
      by_cases hb : isTrail b = true
      · rw [readTrail, if_pos hb] at h ⊢
        obtain ⟨hdiv, hbytes⟩ := ih (Nat.succ.inj h)
        rw [accumulate] at hdiv hbytes ⊢
        constructor
        · rw [Nat.pow_succ, ← Nat.div_div_eq_div_mul, hdiv]
          omega
        · rw [tails, hdiv, List.drop_succ_cons, List.cons_append, ← hbytes,
            show (ch * 64 + b.toNat % 64) % 64 = b.toNat % 64 by omega, ← eq_of_isTrail hb]
      · rw [readTrail, if_neg hb] at h
        cases h

lemma readTrail_le (ch n : ℕ) (bytes : List UInt8) : (readTrail ch n bytes).1 ≤ n := by
  induction n generalizing ch bytes with
  | zero => simp [readTrail]
  | succ n ih =>
    cases bytes with
    | nil => simp [readTrail]
    | cons b bytes =>
      rw [readTrail]
      split_ifs
      · exact Nat.succ_le_succ (ih _ _)
      · exact Nat.zero_le _

lemma readTrail_lt (h : ch < k) : (readTrail ch n bytes).2 < k * 64 ^ (readTrail ch n bytes).1 := by
  induction n generalizing ch k bytes with
  | zero => simpa [readTrail] using h
  | succ n ih =>
    cases bytes with
    | nil => simpa [readTrail] using h
    | cons b bytes =>
      by_cases hb : isTrail b = true
      · rw [readTrail, if_pos hb, accumulate]
        have hstep : ch * 64 + b.toNat % 64 < k * 64 := by omega
        rw [Nat.pow_succ']
        calc _ < k * 64 * 64 ^ _ := ih hstep
          _ = _ := Nat.mul_assoc _ _ _
      · rw [readTrail, if_neg hb]
        simpa using h

theorem and_high_mask (hwc : wc < 2 ^ 32) :
    wc &&& (0xffffffff <<< n) % 2 ^ 32 = 0 ↔ wc < 2 ^ n := by
  have hand : wc &&& (0xffffffff <<< n) % 2 ^ 32 = wc >>> n <<< n := by
    apply Nat.eq_of_testBit_eq
    intro i
    have hones : (0xffffffff : ℕ) = 2 ^ 32 - 1 := rfl
    simp only [Nat.testBit_and, Nat.testBit_mod_two_pow, Nat.testBit_shiftLeft,
      Nat.testBit_shiftRight, hones, Nat.testBit_two_pow_sub_one]
    by_cases hi : i < 32
    · by_cases hn : n ≤ i
      · simp [hi, hn, show n + (i - n) = i by omega, show i - n < 32 by omega]
      · simp [hn]
    have : wc.testBit i = false :=
      Nat.testBit_lt_two_pow (lt_of_lt_of_le hwc (Nat.pow_le_pow_right (by decide) (by omega)))
    simp [hi, this]
    intro hn
    rw [show n + (i - n) = i by omega, this]
  rw [hand, Nat.shiftLeft_eq, Nat.shiftRight_eq_div_pow, Nat.mul_eq_zero, Nat.div_eq_zero_iff]
  have : 0 < 2 ^ n := Nat.two_pow_pos n
  omega

lemma stepOf_spec (h : wc ≤ 0x7fffffff) :
    2 ≤ stepOf wc ∧ stepOf wc ≤ 6 ∧ wc < 2 ^ (5 * stepOf wc + 1) ∧
      (2 < stepOf wc → 2 ^ (5 * stepOf wc - 4) ≤ wc) := by
  have hmask (n : ℕ) : decide (wc &&& (0xffffffff <<< n) % 2 ^ 32 = 0) = decide (wc < 2 ^ n) :=
    decide_eq_decide.mpr (and_high_mask (by omega))
  unfold stepOf
  simp only [hmask, List.find?_cons, List.find?_nil]
  by_cases h₂ : wc < 2048
  · simp [h₂]
  by_cases h₃ : wc < 65536
  · simp [h₂, h₃]
    omega
  by_cases h₄ : wc < 2097152
  · simp [h₂, h₃, h₄]
    omega
  by_cases h₅ : wc < 67108864
  · simp [h₂, h₃, h₄, h₅]
    omega
  · simp [h₂, h₃, h₄, h₅]
    omega

lemma stepOf_eq (hwc : wc ≤ 0x7fffffff) (hcnt : 2 ≤ cnt)
    (hlt : wc < 2 ^ (5 * cnt + 1)) (hle : 2 < cnt → 2 ^ (5 * cnt - 4) ≤ wc) : stepOf wc = cnt := by
  obtain ⟨htwo, -, hlt', hle'⟩ := stepOf_spec hwc
  have hmono {a b : ℕ} (hb : 2 < b) (hab : a < b) (h₁ : wc < 2 ^ (5 * a + 1))
      (h₂ : 2 ^ (5 * b - 4) ≤ wc) : False := by
    have : 2 ^ (5 * a + 1) ≤ 2 ^ (5 * b - 4) := Nat.pow_le_pow_right (by decide) (by omega)
    omega
  rcases Nat.lt_trichotomy (stepOf wc) cnt with h | h | h
  · exact (hmono (by omega) h hlt' (hle (by omega))).elim
  · exact h
  · exact (hmono (by omega) h hlt (hle' (by omega))).elim

lemma leadForm_lead (hstep : 2 ≤ step ∧ step ≤ 6) (hhi : hi < 2 ^ (7 - step))
    (htwo : step = 2 → 2 ≤ hi) :
    leadForm (leadByte step ||| hi) = some (step, hi) ∧ 0x80 ≤ leadByte step ||| hi ∧
      leadByte step ||| hi < 256 := by
  have hform : ∀ step < 7, ∀ hi < 32, 2 ≤ step ∧ hi < 2 ^ (7 - step) ∧ (step = 2 → 2 ≤ hi) →
      leadForm (leadByte step ||| hi) = some (step, hi) := by decide +kernel
  have hrange : ∀ step < 7, ∀ hi < 32, 2 ≤ step →
      0x80 ≤ leadByte step ||| hi ∧ leadByte step ||| hi < 256 := by decide +kernel
  have hle : 2 ^ (7 - step) ≤ 2 ^ 5 := Nat.pow_le_pow_right (by decide) (by omega)
  exact ⟨hform step (by omega) hi (by omega) ⟨hstep.1, hhi, htwo⟩,
    hrange step (by omega) hi (by omega) hstep.1⟩

lemma leadForm_inv (hch : ch < 256) (h : leadForm ch = some (cnt, hi)) :
    2 ≤ cnt ∧ cnt ≤ 6 ∧ hi < 2 ^ (7 - cnt) ∧ (cnt = 2 → 2 ≤ hi) ∧ ch = leadByte cnt ||| hi := by
  have : ∀ ch < 256, ∀ form ∈ leadForm ch, 2 ≤ form.1 ∧ form.1 ≤ 6 ∧ form.2 < 2 ^ (7 - form.1) ∧
      (form.1 = 2 → 2 ≤ form.2) ∧ ch = leadByte form.1 ||| form.2 := by
    decide +kernel
  exact this ch hch (cnt, hi) h

def encode (c : UInt32) : List UInt8 :=
  if c.toNat < 0x80 then [UInt8.ofNat c.toNat] else sequence (stepOf c.toNat) c.toNat

lemma sequence_eq (step wc : ℕ) : sequence step wc =
    UInt8.ofNat (leadByte step ||| wc / 64 ^ (step - 1)) :: tails (step - 1) wc := by
  rw [sequence, storeTrail_eq, List.append_nil]

lemma length_sequence (h : 0 < step) : (sequence step wc).length = step := by
  simp [sequence_eq, length_tails]
  omega

def Accepted (c : UInt32) : Prop := c.toNat ≤ 0x7fffffff

def Surrogate (c : UInt32) : Prop := 0xd800 ≤ c.toNat ∧ c.toNat ≤ 0xdfff

instance (c : UInt32) : Decidable (Surrogate c) := inferInstanceAs (Decidable (_ ∧ _))

lemma length_encode (h : Accepted c) :
    (encode c).length = if c.toNat < 0x80 then 1 else stepOf c.toNat := by
  have := (stepOf_spec h).1
  unfold encode
  by_cases hascii : c.toNat < 0x80
  · simp [hascii]
  · rw [if_neg hascii, if_neg hascii, length_sequence (by omega)]

lemma encode_ne_nil (c : UInt32) : encode c ≠ [] := by
  unfold encode
  split_ifs
  · exact List.cons_ne_nil _ _
  · exact List.cons_ne_nil _ _

theorem codes_internalUtf8 : Codes internalUtf8 Accepted (fun c => [c]) encode where
  nonempty _ := List.cons_ne_nil _ _
  input_le _ := le_rfl
  output_le {c} _ := by
    show 1 ≤ 1 * (encode c).length
    have := List.length_pos_of_ne_nil (encode_ne_nil c)
    omega
  emits {c rest room} hc hroom := by
    rw [show internalUtf8.unit = 1 from rfl, Nat.one_mul, length_encode hc] at hroom
    show Except.ok (internalUtf8Body (c :: rest) room) = _
    rw [encode, internalUtf8Body]
    by_cases hascii : c.toNat < 0x80
    · simp [hascii]
    rw [if_neg hascii] at hroom
    rw [if_neg hascii, if_neg hascii, if_pos (show c.toNat ≤ 0x7fffffff from hc),
      if_neg (by omega)]
    rfl
  stops {c rest room} hc hmin hroom := by
    rw [show internalUtf8.unit = 1 from rfl, Nat.one_mul, length_encode hc] at hroom
    have hmin : 1 ≤ room := hmin
    show Except.ok (internalUtf8Body (c :: rest) room) = _
    rw [internalUtf8Body]
    by_cases hascii : c.toNat < 0x80
    · rw [if_pos hascii] at hroom
      omega
    · rw [if_neg hascii] at hroom
      simp [hascii, if_pos (show c.toNat ≤ 0x7fffffff from hc), hroom]

lemma reads_internalUtf8 : Reads internalUtf8 Accepted (fun c => [c]) encode where
  emitted {input room taken o} h := by
    have h : internalUtf8Body input room = .emit taken o () := Except.ok.inj h
    cases input with
    | nil => cases h
    | cons c rest =>
      rw [internalUtf8Body] at h
      by_cases hascii : c.toNat < 0x80
      · rw [if_pos hascii] at h
        cases h
        exact ⟨c, by unfold Accepted; omega, rfl, (if_pos hascii).symm⟩
      rw [if_neg hascii] at h
      by_cases hc : c.toNat ≤ 0x7fffffff
      · split_ifs at h
        cases h
        exact ⟨c, hc, rfl, (if_neg hascii).symm⟩
      · rw [if_neg hc] at h
        cases h
  stopped {input room result} hne h := by
    have h : internalUtf8Body input room = .stop result := Except.ok.inj h
    cases input with
    | nil => exact absurd rfl hne
    | cons c rest =>
      rw [internalUtf8Body] at h
      split_ifs at h
      cases h
      decide

def Plain (c : UInt32) : Prop := Accepted c ∧ ¬Surrogate c

lemma lead_lt (h : wc ≤ 0x7fffffff) : wc / 64 ^ (stepOf wc - 1) < 2 ^ (7 - stepOf wc) := by
  obtain ⟨htwo, hsix, hlt, -⟩ := stepOf_spec h
  rw [Nat.div_lt_iff_lt_mul (by positivity), show (64 : ℕ) = 2 ^ 6 from rfl, ← Nat.pow_mul,
    ← Nat.pow_add]
  rwa [show 7 - stepOf wc + 6 * (stepOf wc - 1) = 5 * stepOf wc + 1 by omega]

lemma lead_ge (h : 0x80 ≤ wc) (hstep : stepOf wc = 2) : 2 ≤ wc / 64 ^ (stepOf wc - 1) := by
  rw [hstep]
  omega

theorem utf8InternalBody_sequence (hlow : 0x80 ≤ wc) (h : wc ≤ 0x7fffffff)
    (hsur : ¬(0xd800 ≤ wc ∧ wc ≤ 0xdfff)) (rest : List UInt8) :
    utf8InternalBody (sequence (stepOf wc) wc ++ rest) =
      .emit (stepOf wc) [UInt32.ofNat wc] () := by
  obtain ⟨htwo, hsix, -, hge⟩ := stepOf_spec h
  obtain ⟨hlead, hge80, hlt⟩ := leadForm_lead ⟨htwo, hsix⟩ (lead_lt h) (lead_ge hlow)
  have hbyte := UInt8.toNat_ofNat_of_lt' (n := leadByte (stepOf wc) ||| wc / 64 ^ (stepOf wc - 1)) hlt
  have hvalue : wc / 64 ^ (stepOf wc - 1) * 64 ^ (stepOf wc - 1) + wc % 64 ^ (stepOf wc - 1) = wc :=
    Nat.div_add_mod' _ _
  have hsound : unsound (stepOf wc) wc = false := by
    rw [unsound, Bool.or_eq_false_iff]
    refine ⟨?_, by simpa using hsur⟩
    by_cases hlong : stepOf wc > 2
    · have : wc >>> (5 * stepOf wc - 4) ≠ 0 := by
        rw [Nat.shiftRight_eq_div_pow]
        exact (Nat.div_pos (hge hlong) (by positivity)).ne'
      simp [this]
    · simp [hlong]
  rw [sequence_eq, List.cons_append, utf8InternalBody, hbyte, if_neg (by omega), hlead]
  dsimp only
  rw [longForm, if_neg (by simp; omega)]
  rw [readTrail_tails, hvalue, if_neg (by simp [hsound]; omega)]

lemma codes_utf8Internal : Codes utf8Internal Plain encode (fun c => [c]) where
  nonempty {c} _ := encode_ne_nil c
  input_le {c} _ := List.length_pos_of_ne_nil (encode_ne_nil c)
  output_le _ := le_rfl
  emits {c rest room} hc _ := by
    show Except.ok (utf8InternalBody (encode c ++ rest)) = _
    rw [length_encode hc.1]
    unfold encode
    by_cases hascii : c.toNat < 0x80
    · have hbyte := UInt8.toNat_ofNat_of_lt' (n := c.toNat) (by show c.toNat < 256; omega)
      rw [if_pos hascii, if_pos hascii, List.singleton_append, utf8InternalBody, hbyte,
        if_pos hascii, UInt32.ofNat_toNat]
    · simp [hascii, utf8InternalBody_sequence (by omega) hc.1 hc.2]
  stops _ hmin hroom := absurd hroom (Nat.not_lt.mpr hmin)

theorem longForm_encode (hlead : leadForm b.toNat = some (cnt, hi))
    (h : longForm rest cnt hi = .emit taken out ()) :
    ∃ c, Plain c ∧ b :: rest = encode c ++ (b :: rest).drop taken ∧ out = [c] := by
  obtain ⟨htwo, hsix, hhi, hhi2, hb⟩ := leadForm_inv b.toNat_lt hlead
  obtain ⟨hlen, hcount, hsound, rfl, rfl⟩ := longForm_emit h
  have hread : (readTrail hi (taken - 1) rest).1 = taken - 1 :=
    le_antisymm (readTrail_le _ _ _) (by omega)
  obtain ⟨hdiv, hrest⟩ := readTrail_inv hread
  have hlt : (readTrail hi (taken - 1) rest).2 <
      2 ^ (7 - taken) * 64 ^ (readTrail hi (taken - 1) rest).1 := readTrail_lt hhi
  rw [hread] at hlt
  generalize (readTrail hi (taken - 1) rest).2 = wc at hsound hdiv hrest hlt
  have hbound : wc < 2 ^ (5 * taken + 1) := by
    rw [show (64 : ℕ) = 2 ^ 6 from rfl, ← Nat.pow_mul, ← Nat.pow_add] at hlt
    rwa [show 7 - taken + 6 * (taken - 1) = 5 * taken + 1 by omega] at hlt
  have hmax : wc ≤ 0x7fffffff := by
    have : 2 ^ (5 * taken + 1) ≤ 2 ^ 31 := Nat.pow_le_pow_right (by decide) (by omega)
    omega
  unfold unsound at hsound
  rw [Bool.or_eq_false_iff] at hsound
  obtain ⟨hshort, hsur⟩ := hsound
  have hleast : 2 < taken → 2 ^ (5 * taken - 4) ≤ wc := by
    intro hlong
    by_contra hsmall
    have : wc >>> (5 * taken - 4) = 0 := by
      rw [Nat.shiftRight_eq_div_pow]
      exact Nat.div_eq_of_lt (by omega)
    simp [hlong, this] at hshort
  have hstep : stepOf wc = taken := stepOf_eq hmax htwo hbound hleast
  have hlow : 0x80 ≤ wc := by
    by_cases hlong : 2 < taken
    · have : 2 ^ 11 ≤ 2 ^ (5 * taken - 4) := Nat.pow_le_pow_right (by decide) (by omega)
      omega
    · obtain rfl : taken = 2 := by omega
      omega
  have hvalue := UInt32.toNat_ofNat_of_lt' (n := wc) (by show wc < 2 ^ 32; omega)
  refine ⟨UInt32.ofNat wc, ⟨?_, ?_⟩, ?_, rfl⟩
  · unfold Accepted
    omega
  · unfold Surrogate
    rw [hvalue]
    simpa using hsur
  · rw [encode, hvalue, if_neg (by omega), hstep, sequence_eq, hdiv, ← hb, UInt8.ofNat_toNat,
      List.cons_append]
    obtain ⟨k, rfl⟩ : ∃ k, taken = k + 1 := ⟨taken - 1, by omega⟩
    exact congrArg (b :: ·) hrest

lemma reads_utf8Internal : Reads utf8Internal Plain encode (fun c => [c]) where
  emitted {input room taken o} h := by
    obtain ⟨b, rest, rfl, ⟨hascii, rfl, rfl⟩ | ⟨-, cnt, hi, hlead, hlong⟩⟩ :=
      utf8InternalBody_emit (Except.ok.inj h)
    · have hvalue := UInt32.toNat_ofNat_of_lt' (n := b.toNat) (by show b.toNat < 2 ^ 32; omega)
      refine ⟨UInt32.ofNat b.toNat, ⟨?_, ?_⟩, ?_, rfl⟩
      · unfold Accepted
        omega
      · unfold Surrogate
        omega
      · simp [encode, hascii]
    · exact longForm_encode hlead hlong
  stopped {input room result} hne h := by
    have h : utf8InternalBody input = .stop result := Except.ok.inj h
    cases input with
    | nil => exact absurd rfl hne
    | cons b rest =>
      rw [utf8InternalBody] at h
      split_ifs at h
      cases hlead : leadForm b.toNat with
      | none =>
        rw [hlead] at h
        cases h
      | some form =>
        rw [hlead] at h
        rw [longForm_stop h]
        decide

lemma utf8Internal_total (ignoreErrors : Bool) (input : List UInt8) (room : ℕ) :
    Returns (convert utf8Internal ignoreErrors () input room) fun _ => True := by
  refine loop_returns (I := fun _ => True) ?_ trivial
  intro state input room _ _ hroom
  refine returns_ok ?_
  cases h : utf8InternalBody input with
  | stop result | illegal taken state' => trivial
  | emit taken out state' =>
    refine ⟨?_, trivial⟩
    obtain ⟨b, rest, -, ⟨-, -, rfl⟩ | ⟨-, cnt, hi, -, hlong⟩⟩ := utf8InternalBody_emit h
    · exact hroom
    · obtain ⟨-, -, -, -, rfl⟩ := longForm_emit hlong
      exact hroom

theorem convert_utf8Internal (ignoreErrors : Bool) (hws : ∀ c ∈ ws, Plain c)
    (hroom : 4 * ws.length ≤ room) : convert utf8Internal ignoreErrors () (ws.flatMap encode) room =
      .ok ⟨[], ws, room - 4 * ws.length, (), 0, .emptyInput⟩ := by
  have hfit : utf8Internal.unit * (ws.flatMap fun c => [c]).length ≤ room := by
    rwa [List.flatMap_singleton']
  rw [convert, codes_utf8Internal.loop_append hws (List.append_nil _).symm hfit, loop_end rfl,
    List.flatMap_singleton']
  rfl

lemma convert_internalUtf8 (ignoreErrors : Bool) (hws : ∀ c ∈ ws, Accepted c)
    (hroom : (ws.flatMap encode).length ≤ room) : convert internalUtf8 ignoreErrors () ws room =
      .ok ⟨[], ws.flatMap encode, room - (ws.flatMap encode).length, (), 0, .emptyInput⟩ := by
  have hfit : internalUtf8.unit * (ws.flatMap encode).length ≤ room := by
    rwa [show internalUtf8.unit = 1 from rfl, Nat.one_mul]
  have hin : ws = (ws.flatMap fun c => [c]) ++ [] := by simp
  rw [convert, codes_internalUtf8.loop_append hws hin hfit, loop_end rfl,
    show internalUtf8.unit = 1 from rfl, Nat.one_mul]
  rfl

/-- Characters that the encoder accepts come back from the decoder exactly when none of
them is a surrogate; bytes that the decoder accepts always come back from the encoder. -/
theorem utf8_inverse (ignoreErrors : Bool) :
    (∀ (ws : List UInt32) (room : ℕ) (r : Loop Unit UInt32 UInt8),
      convert internalUtf8 ignoreErrors () ws room = .ok r → r.result = .emptyInput →
      ∀ room', 4 * ws.length ≤ room' →
        Returns (convert utf8Internal ignoreErrors () r.output room') fun r' =>
          (r'.result = .emptyInput ∧ r'.output = ws) ↔ ∀ c ∈ ws, ¬Surrogate c) ∧
    ∀ (bytes : List UInt8) (room : ℕ) (r : Loop Unit UInt8 UInt32),
      convert utf8Internal ignoreErrors () bytes room = .ok r → r.result = .emptyInput →
      ∀ room', bytes.length ≤ room' →
        Returns (convert internalUtf8 ignoreErrors () r.output room') fun r' =>
          r'.result = .emptyInput ∧ r'.output = bytes := by
  constructor
  · intro ws room r hr hempty room' hroom'
    obtain ⟨gs, hgs, hin, hout⟩ := reads_internalUtf8.loop_inv hr hempty
    obtain rfl : ws = gs := hin.trans (List.flatMap_singleton' gs)
    rw [List.nil_append] at hout
    by_cases hplain : ∀ c ∈ ws, ¬Surrogate c
    · rw [hout, convert_utf8Internal ignoreErrors (fun c hc => ⟨hgs c hc, hplain c hc⟩) hroom']
      exact returns_ok (iff_of_true ⟨rfl, rfl⟩ hplain)
    obtain ⟨r', hr', -⟩ := utf8Internal_total ignoreErrors r.output room'
    refine ⟨r', hr', iff_of_false ?_ hplain⟩
    rintro ⟨hempty', hws⟩
    obtain ⟨cs, hcs, -, hout'⟩ := reads_utf8Internal.loop_inv hr' hempty'
    rw [List.nil_append, List.flatMap_singleton', hws] at hout'
    exact hplain fun c hc => (hcs c (hout' ▸ hc)).2
  · intro bytes room r hr hempty room' hroom'
    obtain ⟨cs, hcs, hin, hout⟩ := reads_utf8Internal.loop_inv hr hempty
    rw [List.nil_append, List.flatMap_singleton'] at hout
    have hbytes : bytes = cs.flatMap encode := hin
    rw [hout, convert_internalUtf8 ignoreErrors (fun c hc => (hcs c hc).1) (by rwa [← hbytes])]
    exact returns_ok ⟨rfl, hbytes.symm⟩

/-- The surrogate U+D800 is encoded as three bytes, which the decoder refuses. -/
theorem surrogate_not_inverse : convert internalUtf8 false () [0xd800] 6 =
      .ok ⟨[], [0xed, 0xa0, 0x80], 3, (), 0, .emptyInput⟩ ∧
    convert utf8Internal false () [0xed, 0xa0, 0x80] 4 =
      .ok ⟨[0xed, 0xa0, 0x80], [], 4, (), 0, .illegalInput⟩ := by
  decide +kernel

end Eglibc.Utf8
