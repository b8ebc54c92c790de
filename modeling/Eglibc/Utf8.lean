import Eglibc.Gconv

/-!
# UTF-8

The loop bodies `internal_utf8_loop` and `utf8_internal_loop` of
`iconv/gconv_simple.c`. Characters of the internal format are 32-bit values; the
forms of UTF-8 have one to six bytes.
-/
namespace Eglibc.Utf8
open Gconv

/-- The length of the encoding of a character that is not ASCII: the least `step` below
6 such that no bit of `wc` stands above the `5 * step + 1` lowest. -/
def stepOf (wc : ℕ) : ℕ :=
  ([2, 3, 4, 5].find? fun step => wc &&& (0xffffffff <<< (5 * step + 1)) % 2 ^ 32 = 0).getD 6

/-- `(unsigned char) (~0xff >> step)`. -/
def leadByte (step : ℕ) : ℕ := (((-256 : ℤ) >>> step) % 256).toNat

/-- The `do` loop that stores the last `n` bytes, from the end: what is left of `wc`,
and the bytes. -/
def storeTrail : ℕ → ℕ → List UInt8 → ℕ × List UInt8
  | 0, wc, bytes => (wc, bytes)
  | n + 1, wc, bytes => storeTrail n (wc >>> 6) (UInt8.ofNat (0x80 ||| wc &&& 0x3f) :: bytes)

def sequence (step wc : ℕ) : List UInt8 :=
  let r := storeTrail (step - 1) wc []
  UInt8.ofNat (leadByte step ||| r.1) :: r.2

def internalUtf8Body (input : List UInt32) (room : ℕ) : Turn Unit UInt8 :=
  match input with
  | [] => .stop .emptyInput
  | c :: _ =>
    let wc := c.toNat
    if wc < 0x80 then .emit 1 [UInt8.ofNat wc] ()
    else if wc ≤ 0x7fffffff then
      if room < stepOf wc then .stop .fullOutput
      else .emit 1 (sequence (stepOf wc) wc) ()
    else .illegal 1 ()

def isTrail (b : UInt8) : Bool := b.toNat &&& 0xc0 = 0x80

/-- The length of the sequence a first byte announces, and the bits it contributes. -/
def leadForm (ch : ℕ) : Option (ℕ × ℕ) :=
  if 0xc2 ≤ ch ∧ ch < 0xe0 then some (2, ch &&& 0x1f)
  else if ch &&& 0xf0 = 0xe0 then some (3, ch &&& 0x0f)
  else if ch &&& 0xf8 = 0xf0 then some (4, ch &&& 0x07)
  else if ch &&& 0xfc = 0xf8 then some (5, ch &&& 0x03)
  else if ch &&& 0xfe = 0xfc then some (6, ch &&& 0x01)
  else none

def readTrail (ch : ℕ) : ℕ → List UInt8 → ℕ × ℕ
  | n + 1, b :: bytes =>
      if isTrail b then
        let r := readTrail (ch <<< 6 ||| b.toNat &&& 0x3f) n bytes
        (r.1 + 1, r.2)
      else (0, ch)
  | _, _ => (0, ch)

/-- How many bytes of the form `10xxxxxx` a list starts with. -/
def trailCount (bytes : List UInt8) : ℕ := (bytes.takeWhile isTrail).length

/-- The value may not have a shorter form and may not be a surrogate. -/
def unsound (cnt ch : ℕ) : Bool :=
  (decide (cnt > 2) && decide (ch >>> (5 * cnt - 4) = 0)) ||
    (decide (0xd800 ≤ ch) && decide (ch ≤ 0xdfff))

/-- What follows a first byte that announces `cnt` bytes. -/
def longForm (rest : List UInt8) (cnt ch : ℕ) : Turn Unit UInt32 :=
  if rest.length + 1 < cnt then
    -- not enough input, but the bytes that are there must be right
    if trailCount rest = rest.length then .stop .incompleteInput
    else .illegal (1 + trailCount rest) ()
  else
    let r := readTrail ch (cnt - 1) rest
    if r.1 + 1 < cnt ∨ unsound cnt r.2 = true then .illegal (1 + r.1) ()
    else .emit cnt [UInt32.ofNat r.2] ()

def utf8InternalBody (input : List UInt8) : Turn Unit UInt32 :=
  match input with
  | [] => .stop .emptyInput
  | b :: rest =>
    if b.toNat < 0x80 then .emit 1 [UInt32.ofNat b.toNat] ()
    else match leadForm b.toNat with
      | none => .illegal (1 + min 4 (trailCount rest)) ()
      | some (cnt, ch) => longForm rest cnt ch

section
variable {input : List UInt8} {taken cnt ch hi : ℕ} {out : List UInt32} {rest : List UInt8}

lemma two_le_of_leadForm (h : leadForm ch = some (cnt, hi)) : 2 ≤ cnt := by
  unfold leadForm at h
  split_ifs at h
  all_goals
    cases h
    decide

lemma longForm_emit (h : longForm rest cnt hi = .emit taken out ()) :
    cnt ≤ rest.length + 1 ∧ cnt ≤ (readTrail hi (cnt - 1) rest).1 + 1 ∧
      unsound cnt (readTrail hi (cnt - 1) rest).2 = false ∧ taken = cnt ∧
      out = [UInt32.ofNat (readTrail hi (cnt - 1) rest).2] := by
  unfold longForm at h
  by_cases hshort : rest.length + 1 < cnt
  · split_ifs at h
  dsimp only at h
  split_ifs at h with hbad
  rw [not_or] at hbad
  cases h
  exact ⟨by omega, by omega, by simpa using hbad.2, rfl, rfl⟩

lemma longForm_illegal (h : longForm rest cnt hi = .illegal taken ()) : 0 < taken := by
  unfold longForm at h
  by_cases hshort : rest.length + 1 < cnt
  · split_ifs at h
    cases h
    omega
  dsimp only at h
  split_ifs at h
  cases h
  omega

lemma longForm_stop {result : Status} (h : longForm rest cnt hi = .stop result) :
    result = .incompleteInput := by
  unfold longForm at h
  by_cases hshort : rest.length + 1 < cnt
  · split_ifs at h
    cases h
    rfl
  · dsimp only at h
    split_ifs at h

theorem utf8InternalBody_emit (h : utf8InternalBody input = .emit taken out ()) :
    ∃ b rest, input = b :: rest ∧
      (b.toNat < 0x80 ∧ taken = 1 ∧ out = [UInt32.ofNat b.toNat] ∨
        0x80 ≤ b.toNat ∧ ∃ cnt hi, leadForm b.toNat = some (cnt, hi) ∧
          longForm rest cnt hi = .emit taken out ()) := by
  cases input with
  | nil => cases h
  | cons b rest =>
    refine ⟨b, rest, rfl, ?_⟩
    rw [utf8InternalBody] at h
    by_cases hascii : b.toNat < 0x80
    · rw [if_pos hascii] at h
      cases h
      exact .inl ⟨hascii, rfl, rfl⟩
    rw [if_neg hascii] at h
    cases hlead : leadForm b.toNat with
    | none =>
      rw [hlead] at h
      cases h
    | some form =>
      rw [hlead] at h
      exact .inr ⟨by omega, form.1, form.2, rfl, h⟩

lemma utf8InternalBody_illegal (h : utf8InternalBody input = .illegal taken ()) : 0 < taken := by
  cases input with
  | nil => cases h
  | cons b rest =>
    rw [utf8InternalBody] at h
    split_ifs at h
    cases hlead : leadForm b.toNat with
    | none =>
      rw [hlead] at h
      cases h
      omega
    | some form =>
      rw [hlead] at h
      exact longForm_illegal h

end

def internalUtf8 : Converter Unit UInt32 UInt8 where
  minInput := 1
  minOutput := 1
  unit := 1
  body _ input room := .ok (internalUtf8Body input room)
  rank _ := 0
  rank_le := unit_rank_le
  advances := by
    intro state input room taken out state' h
    cases input with
    | nil => cases h
    | cons c rest =>
      rw [internalUtf8Body] at h
      split_ifs at h
      · cases h
        exact .inl Nat.one_pos
      · cases h
      · cases h
        exact .inl Nat.one_pos
      · cases h
  skips := by
    intro state input room taken state' h
    cases input with
    | nil => cases h
    | cons c rest =>
      rw [internalUtf8Body] at h
      split_ifs at h
      · cases h
      · cases h
      · cases h
      · cases h
        exact Nat.one_pos

def utf8Internal : Converter Unit UInt8 UInt32 where
  minInput := 1
  minOutput := 4
  unit := 4
  body _ input _ := .ok (utf8InternalBody input)
  rank _ := 0
  rank_le := unit_rank_le
  advances := by
    intro state input room taken out state' h
    obtain ⟨b, rest, -, ⟨-, rfl, -⟩ | ⟨-, cnt, hi, hlead, hlong⟩⟩ :=
      utf8InternalBody_emit (Except.ok.inj h)
    · exact .inl Nat.one_pos
    · have := two_le_of_leadForm hlead
      obtain ⟨-, -, -, rfl, -⟩ := longForm_emit hlong
      exact .inl (by omega)
  skips := by
    intro state input room taken state' h
    exact utf8InternalBody_illegal (Except.ok.inj h)

end Eglibc.Utf8
