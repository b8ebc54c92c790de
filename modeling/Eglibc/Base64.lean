import Eglibc.Segments
import Eglibc.Signed

/-!
# Base 64

Model of `b64_ntop` and `b64_pton` of `resolv/base64.c`, the latter for a target that is
not `NULL`. A pointer is the part of the memory that follows. Lengths are returned as an
`int`, and the `-1` of a failure is `none`.
-/
namespace Eglibc.Base64
open Checked Signed

def base64 : List UInt8 :=
  ['A', 'B', 'C', 'D', 'E', 'F', 'G', 'H', 'I', 'J', 'K', 'L', 'M', 'N', 'O', 'P', 'Q', 'R', 'S', 'T', 'U',
    'V', 'W', 'X', 'Y', 'Z', 'a', 'b', 'c', 'd', 'e', 'f', 'g', 'h', 'i', 'j', 'k', 'l', 'm', 'n', 'o', 'p',
    'q', 'r', 's', 't', 'u', 'v', 'w', 'x', 'y', 'z', '0', '1', '2', '3', '4', '5', '6', '7', '8', '9', '+',
    '/'].map fun c => UInt8.ofNat c.toNat

def pad64 : UInt8 := 61

def isspace (c : UInt8) : Bool := c = 32 ∨ (9 ≤ c ∧ c ≤ 13)

def symbol (d : ℕ) : UInt8 := base64.getD d 0

def output (a b c : UInt8) : List ℕ :=
  [a.toNat >>> 2, ((a.toNat &&& 0x03) <<< 4) + (b.toNat >>> 4),
    ((b.toNat &&& 0x0f) <<< 2) + (c.toNat >>> 6), c.toNat &&& 0x3f]

def quantum (srclength : ℕ) (a b c : UInt8) : List UInt8 :=
  ((output a b c).take (srclength + 1)).map symbol ++ List.replicate (3 - srclength) pad64

def putQuantum (targsize srclength : ℕ) (a b c : UInt8) (target : List UInt8) (datalength : ℕ)
    (next : List UInt8 → Run (Option ℤ × List UInt8)) : Run (Option ℤ × List UInt8) := do
  ensure (∀ x ∈ output a b c, x < 64)
  if datalength + 4 > targsize then .ok (none, target)
  else do
    let target ← storeRange target datalength (quantum srclength a b c)
    next target

def ntopEnd (targsize datalength : ℕ) (target : List UInt8) : Run (Option ℤ × List UInt8) :=
  if datalength ≥ targsize then .ok (none, target)
  else do
    let target ← store target datalength 0
    .ok (some (wrap 32 datalength), target)

def b64Ntop (targsize : ℕ) : List UInt8 → ℕ → List UInt8 → Run (Option ℤ × List UInt8)
  | a :: b :: c :: src, datalength, target =>
    putQuantum targsize 3 a b c target datalength (b64Ntop targsize src (datalength + 4))
  | [a, b], datalength, target =>
    putQuantum targsize 2 a b 0 target datalength (ntopEnd targsize (datalength + 4))
  | [a], datalength, target =>
    putQuantum targsize 1 a 0 0 target datalength (ntopEnd targsize (datalength + 4))
  | [], datalength, target => ntopEnd targsize datalength target

structure Decoding where
  state : ℕ
  tarindex : ℕ
  target : List UInt8
  deriving DecidableEq, Repr

/-- The cases 1 and 2 of the switch: the digit belongs to two bytes. -/
def acrossBytes (targsize state high low : ℕ) (s : Decoding) : Run (Option Decoding) :=
  if s.tarindex + 1 ≥ targsize then .ok none
  else do
    let byte ← load s.target s.tarindex
    let target ← store s.target s.tarindex (byte ||| UInt8.ofNat high)
    let next ← addInt s.tarindex 1
    let target ← store target next (UInt8.ofNat low)
    .ok (some ⟨state, next, target⟩)

def putDigit (targsize d : ℕ) (s : Decoding) : Run (Option Decoding) :=
  match s.state with
  | 0 =>
    if s.tarindex ≥ targsize then .ok none
    else do
      let target ← store s.target s.tarindex (UInt8.ofNat (d <<< 2))
      .ok (some ⟨1, s.tarindex, target⟩)
  | 1 => acrossBytes targsize 2 (d >>> 4) ((d &&& 0x0f) <<< 4) s
  | 2 => acrossBytes targsize 3 (d >>> 2) ((d &&& 0x03) <<< 6) s
  | 3 =>
    if s.tarindex ≥ targsize then .ok none
    else do
      let byte ← load s.target s.tarindex
      let target ← store s.target s.tarindex (byte ||| UInt8.ofNat d)
      let next ← addInt s.tarindex 1
      .ok (some ⟨0, next, target⟩)
  | _ => .error .assertion

def skipSpaces : List UInt8 → Run (UInt8 × List UInt8)
  | [] => .error (.read 0)
  | ch :: src => if isspace ch then skipSpaces src else .ok (ch, src)

/-- What follows the last pad character: white space only, and no bits are left over. -/
def trailing (s : Decoding) (src : List UInt8) : Run (Option ℕ × List UInt8) := do
  let (ch, _) ← skipSpaces src
  if ch ≠ 0 then .ok (none, s.target)
  else do
    let byte ← load s.target s.tarindex
    .ok (if byte ≠ 0 then none else some s.tarindex, s.target)

def padding (s : Decoding) (src : List UInt8) : Run (Option ℕ × List UInt8) := do
  let _ ← load src 0
  match s.state with
  | 2 => do
    let (ch, src) ← skipSpaces src
    if ch ≠ pad64 then .ok (none, s.target) else trailing s src
  | 3 => trailing s src
  | _ => .ok (none, s.target)

def decodeFrom (targsize : ℕ) : List UInt8 → Decoding → Run (Option ℕ × List UInt8)
  | [], _ => .error (.read 0)
  | ch :: src, s =>
    if ch = 0 then .ok (if s.state ≠ 0 then none else some s.tarindex, s.target)
    else if isspace ch then decodeFrom targsize src s
    else if ch = pad64 then padding s src
    else
      match base64.idxOf? ch with
      | none => .ok (none, s.target)
      | some d => do
        match ← putDigit targsize d s with
        | none => .ok (none, s.target)
        | some s => decodeFrom targsize src s

def b64Pton (src target : List UInt8) (targsize : ℕ) : Run (Option ℕ × List UInt8) :=
  decodeFrom targsize src ⟨0, 0, target⟩

/-! ## The text of a byte string -/

def encode : List UInt8 → List UInt8
  | a :: b :: c :: src => quantum 3 a b c ++ encode src
  | [a, b] => quantum 2 a b 0
  | [a] => quantum 1 a 0 0
  | [] => []

section

variable {a b c : UInt8} {data target : List UInt8} {targsize datalength : ℕ}

lemma output_eq (a b c : UInt8) :
    output a b c = [a.toNat / 4, a.toNat % 4 * 16 + b.toNat / 16, b.toNat % 16 * 4 + c.toNat / 64,
      c.toNat % 64] := by
  simp [output, Nat.shiftRight_eq_div_pow, Nat.shiftLeft_eq, Nat.and_two_pow_sub_one_eq_mod _ 2,
    Nat.and_two_pow_sub_one_eq_mod _ 4, Nat.and_two_pow_sub_one_eq_mod _ 6]

lemma output_lt (a b c : UInt8) : ∀ x ∈ output a b c, x < 64 := by
  have ha := a.toNat_lt
  have hb := b.toNat_lt
  have hc := c.toNat_lt
  simp [output_eq, forall_eq_or_imp, forall_eq]
  omega

lemma length_quantum {srclength : ℕ} (h : srclength ≤ 3) : (quantum srclength a b c).length = 4 := by
  simp [quantum, output]
  omega

@[simp] lemma length_encode (data : List UInt8) : (encode data).length = 4 * ((data.length + 2) / 3) := by
  induction data using encode.induct with
  | case1 a b c src ih => simp [encode, length_quantum, ih]; omega
  | case2 a b | case3 a => simp [encode, length_quantum]
  | case4 => simp [encode]

lemma encode_append (r : List UInt8) (h : 3 ∣ data.length) : encode (data ++ r) = encode data ++ encode r := by
  induction data using encode.induct with
  | case1 a b c src ih => simp [encode, ih (by simpa using h)]
  | case2 a b | case3 a => simp at h
  | case4 => simp [encode]

def Stored (target : List UInt8) (datalength : ℕ) (text : List UInt8) (out : Option ℤ × List UInt8) : Prop :=
  out.1 = some (wrap 32 (datalength + text.length : ℕ)) ∧
    ∃ more, out.2 = target.take datalength ++ (text ++ 0 :: more)

lemma putQuantum_returns {srclength : ℕ} {text : List UInt8}
    {next : List UInt8 → Run (Option ℤ × List UInt8)}
    (h3 : srclength ≤ 3) (hroom : datalength + 4 ≤ targsize) (hsize : targsize ≤ target.length)
    (hnext : ∀ target', targsize ≤ target'.length →
      Returns (next target') (Stored target' (datalength + 4) text)) :
    Returns (putQuantum targsize srclength a b c target datalength next)
      (Stored target datalength (quantum srclength a b c ++ text)) := by
  have hq := length_quantum (a := a) (b := b) (c := c) h3
  rw [putQuantum, ensure, if_pos (output_lt a b c), ok_bind, if_neg (by omega), storeRange,
    if_pos (by omega), ok_bind]
  refine (hnext _ (by simp; omega)).mono fun out hout => ⟨?_, ?_⟩
  · rw [hout.1, List.length_append, hq, Nat.add_assoc]
  obtain ⟨more, hmore⟩ := hout.2
  have htake : (target.take datalength ++ quantum srclength a b c).length = datalength + 4 := by
    simp [hq]
    omega
  exact ⟨more, by rw [hmore, List.take_left' htake, List.append_assoc, List.append_assoc]⟩

lemma ntopEnd_returns (hroom : datalength < targsize) (hsize : targsize ≤ target.length) :
    Returns (ntopEnd targsize datalength target) (Stored target datalength []) := by
  rw [ntopEnd, if_neg (by omega), store_eq (by omega), ok_bind]
  refine returns_ok ⟨rfl, target.drop (datalength + 1), ?_⟩
  rw [List.set_eq_take_append_cons_drop, if_pos (by omega), List.nil_append]

lemma b64Ntop_returns (hroom : datalength + (encode data).length < targsize)
    (hsize : targsize ≤ target.length) :
    Returns (b64Ntop targsize data datalength target) (Stored target datalength (encode data)) := by
  induction data using encode.induct generalizing datalength target with
  | case1 a b c src ih =>
    rw [encode, List.length_append, length_quantum le_rfl] at hroom
    exact putQuantum_returns le_rfl (by omega) hsize fun target' hsize' => ih (by omega) hsize'
  | case2 a b =>
    rw [encode, length_quantum (by omega)] at hroom
    exact putQuantum_returns (by omega) (by omega) hsize fun target' hsize' => ntopEnd_returns hroom hsize'
  | case3 a =>
    rw [encode, length_quantum (by omega)] at hroom
    exact putQuantum_returns (by omega) (by omega) hsize fun target' hsize' => ntopEnd_returns hroom hsize'
  | case4 => exact ntopEnd_returns hroom hsize

end

/-! ## Decoding -/

section

variable {a b c d targsize : ℕ} {bytes target src : List UInt8} {ds : List ℕ}

/-- A byte of the upper bits of one digit and the lower bits of the next one. -/
def join (high low : ℕ) : UInt8 := UInt8.ofNat high ||| UInt8.ofNat low

/-- What the target holds of the digits of a quantum that is not complete. -/
def pending : List ℕ → List UInt8
  | [a] => [UInt8.ofNat (a <<< 2)]
  | [a, b] => [join (a <<< 2) (b >>> 4), UInt8.ofNat ((b &&& 0x0f) <<< 4)]
  | [a, b, c] =>
    [join (a <<< 2) (b >>> 4), join ((b &&& 0x0f) <<< 4) (c >>> 2), UInt8.ofNat ((c &&& 0x03) <<< 6)]
  | _ => []

def joined (a b c d : ℕ) : List UInt8 :=
  [join (a <<< 2) (b >>> 4), join ((b &&& 0x0f) <<< 4) (c >>> 2), join ((c &&& 0x03) <<< 6) d]

/-- The variables after `bytes` and the digits `ds`, with everything else in the target as it was. -/
def reached (target bytes : List UInt8) (ds : List ℕ) : Decoding :=
  ⟨ds.length, bytes.length + (ds.length - 1),
    bytes ++ (pending ds ++ target.drop (bytes.length + (pending ds).length))⟩

lemma drop_eq_cons (target : List UInt8) {n : ℕ} (h : n < target.length) :
    ∃ x, target.drop n = x :: target.drop (n + 1) :=
  ⟨_, List.drop_eq_getElem_cons h⟩

lemma putDigit_first (hsize : targsize ≤ target.length) (d : ℕ) :
    putDigit targsize d (reached target bytes []) =
      .ok (if bytes.length < targsize then some (reached target bytes [d]) else none) := by
  by_cases h : bytes.length < targsize
  · obtain ⟨x, hx⟩ := drop_eq_cons target (n := bytes.length) (by omega)
    simp [putDigit, reached, pending, h, store, hx]
  · simp [putDigit, reached, h, show targsize ≤ bytes.length by omega]

lemma putDigit_second (hsize : targsize ≤ target.length)
    (hint : bytes.length + 1 < targsize → bytes.length + 1 < 2 ^ 31) (a d : ℕ) :
    putDigit targsize d (reached target bytes [a]) =
      .ok (if bytes.length + 1 < targsize then some (reached target bytes [a, d]) else none) := by
  by_cases h : bytes.length + 1 < targsize
  · obtain ⟨x, hx⟩ := drop_eq_cons target (n := bytes.length + 1) (by omega)
    simp [putDigit, acrossBytes, reached, pending, join, h, load, store, hx, addInt_eq (hint h)]
  · simp [putDigit, acrossBytes, reached, h, show targsize ≤ bytes.length + 1 by omega]

lemma putDigit_third (hsize : targsize ≤ target.length)
    (hint : bytes.length + 2 < targsize → bytes.length + 2 < 2 ^ 31) (a b d : ℕ) :
    putDigit targsize d (reached target bytes [a, b]) =
      .ok (if bytes.length + 2 < targsize then some (reached target bytes [a, b, d]) else none) := by
  by_cases h : bytes.length + 2 < targsize
  · obtain ⟨x, hx⟩ := drop_eq_cons target (n := bytes.length + 2) (by omega)
    have hadd : addInt (bytes.length + 1) 1 = .ok (bytes.length + 2) := addInt_eq (hint h)
    simp [putDigit, acrossBytes, reached, pending, join, load, store, hx, Nat.add_assoc, not_le.mpr h, h,
      hadd]
  · simp [putDigit, acrossBytes, reached, h, show targsize ≤ bytes.length + 2 by omega]

lemma putDigit_fourth (target : List UInt8)
    (hint : bytes.length + 2 < targsize → bytes.length + 3 < 2 ^ 31) (a b c d : ℕ) :
    putDigit targsize d (reached target bytes [a, b, c]) =
      .ok (if bytes.length + 2 < targsize then some (reached target (bytes ++ joined a b c d) [])
        else none) := by
  by_cases h : bytes.length + 2 < targsize
  · have hadd : addInt (bytes.length + 2) 1 = .ok (bytes.length + 3) := addInt_eq (hint h)
    simp [putDigit, reached, pending, join, joined, load, store, not_le.mpr h, h, hadd]
  · simp [putDigit, reached, h, show targsize ≤ bytes.length + 2 by omega]

lemma toNat_join {high low k p : ℕ} (hp : 2 ^ k = p) (hlow : low < p) (h : high * p + low < 256) :
    (join (high <<< k) low).toNat = high * p + low := by
  subst hp
  have hor := Nat.shiftLeft_add_eq_or_of_lt hlow high
  have hsize : UInt8.size = 256 := rfl
  rw [Nat.shiftLeft_eq] at hor ⊢
  rw [join, UInt8.toNat_or, UInt8.toNat_ofNat_of_lt' (by omega), UInt8.toNat_ofNat_of_lt' (by omega), hor]

lemma toNat_joined (ha : a < 64) (hb : b < 64) (hc : c < 64) (hd : d < 64) :
    (joined a b c d).map UInt8.toNat = [a * 4 + b / 16, b % 16 * 16 + c / 4, c % 4 * 64 + d] := by
  have hb' : b >>> 4 = b / 16 := Nat.shiftRight_eq_div_pow b 4
  have hc' : c >>> 2 = c / 4 := Nat.shiftRight_eq_div_pow c 2
  have hb₁ : b &&& 0x0f = b % 16 := Nat.and_two_pow_sub_one_eq_mod b 4
  have hc₁ : c &&& 0x03 = c % 4 := Nat.and_two_pow_sub_one_eq_mod c 2
  have hx : (join (a <<< 2) (b / 16)).toNat = a * 4 + b / 16 := toNat_join (k := 2) rfl (by omega) (by omega)
  have hy : (join ((b % 16) <<< 4) (c / 4)).toNat = b % 16 * 16 + c / 4 :=
    toNat_join (k := 4) rfl (by omega) (by omega)
  have hz : (join ((c % 4) <<< 6) d).toNat = c % 4 * 64 + d := toNat_join (k := 6) rfl (by omega) (by omega)
  simp [joined, hb', hc', hb₁, hc₁, hx, hy, hz]

lemma output_joined {x y z : UInt8} (ha : a < 64) (hb : b < 64) (hc : c < 64) (hd : d < 64)
    (h : joined a b c d = [x, y, z]) : output x y z = [a, b, c, d] := by
  have hvalues := toNat_joined ha hb hc hd
  rw [h] at hvalues
  simp at hvalues
  obtain ⟨hx, hy, hz⟩ := hvalues
  rw [output_eq, hx, hy, hz]
  simp
  omega

lemma joined_output {x y z : UInt8} (h : output x y z = [a, b, c, d]) : joined a b c d = [x, y, z] := by
  have hlt := output_lt x y z
  have hy := y.toNat_lt
  have hz := z.toNat_lt
  rw [h] at hlt
  simp at hlt
  rw [output_eq] at h
  simp only [List.cons.injEq, and_true] at h
  apply List.map_injective_iff.mpr fun _ _ => UInt8.toNat_inj.mp
  rw [toNat_joined hlt.1 hlt.2.1 hlt.2.2.1 hlt.2.2.2]
  simp
  omega

lemma idxOf_symbol (h : d < 64) : base64.idxOf? (symbol d) = some d := by
  have hall : ∀ d < 64, base64.idxOf? (symbol d) = some d := by decide +kernel
  exact hall d h

lemma symbol_mem (h : d < 64) : symbol d ∈ base64 := by
  rw [symbol, List.getD_eq_getElem _ _ h]
  exact List.getElem_mem h

lemma symbol_of_idxOf {ch : UInt8} (h : base64.idxOf? ch = some d) : d < 64 ∧ ch = symbol d := by
  obtain ⟨hlt, heq, -⟩ := List.idxOf?_eq_some_iff.mp h
  exact ⟨hlt, by simp [symbol, heq, List.getElem?_eq_getElem hlt]⟩

structure Good (targsize : ℕ) (bytes : List UInt8) (ds : List ℕ) : Prop where
  whole : 3 ∣ bytes.length
  few : ds.length < 4
  small : ∀ d ∈ ds, d < 64
  fits : bytes.length + (pending ds).length ≤ targsize

def read (bytes : List UInt8) (ds : List ℕ) : List UInt8 := encode bytes ++ ds.map symbol

lemma read_joined (hw : 3 ∣ bytes.length) (ha : a < 64) (hb : b < 64) (hc : c < 64) (hd : d < 64) :
    read (bytes ++ joined a b c d) [] = read bytes [a, b, c] ++ [symbol d] := by
  obtain ⟨x, y, z, hxyz⟩ : ∃ x y z, joined a b c d = [x, y, z] := ⟨_, _, _, rfl⟩
  simp [read, hxyz, encode_append _ hw, encode, quantum, output_joined ha hb hc hd hxyz]

section
variable (h : Good targsize bytes ds)
include h

lemma putDigit_good (hsize : targsize ≤ target.length) (hd : d < 64)
    (hint : targsize < 2 ^ 31 ∨ 6 * ((read bytes ds).length + 1) < 2 ^ 34) :
    putDigit targsize d (reached target bytes ds) = .ok none ∨
      ∃ bytes' ds', putDigit targsize d (reached target bytes ds) = .ok (some (reached target bytes' ds')) ∧
        Good targsize bytes' ds' ∧ read bytes' ds' = read bytes ds ++ [symbol d] := by
  have hsmall := h.small
  have hwhole := h.whole
  match ds, h.few with
  | [], _ =>
    rw [putDigit_first hsize]
    split_ifs with hroom
    · exact .inr ⟨bytes, [d], rfl, ⟨h.whole, by simp, by simp [hd], by simp [pending]; omega⟩, by simp [read]⟩
    · exact .inl rfl
  | [a], _ =>
    rw [putDigit_second hsize (by simp [read] at hint; omega)]
    split_ifs with hroom
    · exact .inr ⟨bytes, [a, d], rfl, ⟨h.whole, by simp, by simp_all, by simp [pending]; omega⟩, by simp [read]⟩
    · exact .inl rfl
  | [a, b], _ =>
    rw [putDigit_third hsize (by simp [read] at hint; omega)]
    split_ifs with hroom
    · exact .inr ⟨bytes, [a, b, d], rfl, ⟨h.whole, by simp, by simp_all, by simp [pending]; omega⟩,
        by simp [read]⟩
    · exact .inl rfl
  | [a, b, c], _ =>
    rw [putDigit_fourth target (by simp [read] at hint; omega)]
    split_ifs with hroom
    · refine .inr ⟨bytes ++ joined a b c d, [], rfl, ⟨?_, by simp, by simp, ?_⟩, ?_⟩
      · simpa [joined] using h.whole
      · simp [pending, joined]
        omega
      · simp at hsmall
        exact read_joined h.whole hsmall.1 hsmall.2.1 hsmall.2.2 hd
    · exact .inl rfl

/-! ### What is accepted -/

variable {text rest : List UInt8}

def strip (text : List UInt8) : List UInt8 := text.filter fun c => !isspace c

/-- The target has changed inside of its size only, and what is accepted is the text of the
bytes in it. -/
def Sound (target : List UInt8) (targsize : ℕ) (text : List UInt8) (out : Option ℕ × List UInt8) : Prop :=
  (∃ x, x.length ≤ targsize ∧ out.2 = x ++ target.drop x.length) ∧
    ∀ n, out.1 = some n → n ≤ targsize ∧ encode (out.2.take n) = text

lemma Good.sound {o : Option ℕ} (ho : ∀ n, o = some n → n ≤ bytes.length + (pending ds).length ∧
      encode ((bytes ++ pending ds).take n) = text) :
    Sound target targsize text (o, (reached target bytes ds).target) := by
  have hfits : (bytes ++ pending ds).length ≤ targsize := by simpa using h.fits
  refine ⟨⟨bytes ++ pending ds, hfits, by simp [reached]⟩, fun n hn => ?_⟩
  obtain ⟨hle, heq⟩ := ho n hn
  have htake : (reached target bytes ds).target.take n = (bytes ++ pending ds).take n := by
    rw [reached, ← List.append_assoc, List.take_append_of_le_length (by simpa using hle)]
  exact ⟨hle.trans h.fits, by rw [htake, heq]⟩

lemma Good.refuses : Sound target targsize text (none, (reached target bytes ds).target) :=
  h.sound (by simp)

omit h in
lemma skipSpaces_returns (h : 0 ∉ text) :
    Returns (skipSpaces (text ++ 0 :: rest)) fun p => (p.1 = 0 ∧ strip text = []) ∨
      (p.1 ≠ 0 ∧ ∃ text', p.2 = text' ++ 0 :: rest ∧ 0 ∉ text' ∧ strip text = p.1 :: strip text') := by
  induction text with
  | nil => exact returns_ok (.inl ⟨rfl, rfl⟩)
  | cons ch text ih =>
    rw [List.mem_cons, not_or] at h
    by_cases hspace : isspace ch
    · simpa [skipSpaces, strip, hspace] using ih h.2
    · simpa [skipSpaces, hspace] using returns_ok (.inr ⟨Ne.symm h.1, text, rfl, h.2, by simp [strip, hspace]⟩)

lemma trailing_sound (h2 : 2 ≤ ds.length) (htext : 0 ∉ text) :
    Returns (trailing (reached target bytes ds) (text ++ 0 :: rest))
      (Sound target targsize (read bytes ds ++ List.replicate (4 - ds.length) pad64 ++ strip text)) := by
  have hsmall := h.small
  refine (skipSpaces_returns htext).bind ?_
  rintro ⟨ch, src⟩ (⟨hnul, hstrip⟩ | ⟨hne, -⟩)
  · dsimp only at hnul ⊢
    rw [hnul, if_neg (by simp), hstrip, List.append_nil]
    match ds, h.few with
    | [a, b], _ =>
      have hload : load (reached target bytes [a, b]).target (reached target bytes [a, b]).tarindex =
          .ok (UInt8.ofNat ((b &&& 0x0f) <<< 4)) := by simp [load, reached, pending]
      rw [hload, ok_bind]
      refine returns_ok (h.sound fun n hn => ?_)
      simp only [List.mem_cons, List.not_mem_nil, or_false, forall_eq_or_imp, forall_eq] at hsmall
      split_ifs at hn with hzero
      obtain rfl := Option.some.inj hn
      have hj : joined a b 0 0 = [join (a <<< 2) (b >>> 4), 0, 0] := by
        simp only [joined, join, not_not.mp hzero]
        rfl
      have hout := output_joined hsmall.1 hsmall.2 (by omega) (by omega) hj
      simp [reached, pending, read, List.take_length_add_append, encode_append _ h.whole, encode, quantum, hout]
    | [a, b, c], _ =>
      have hload : load (reached target bytes [a, b, c]).target (reached target bytes [a, b, c]).tarindex =
          .ok (UInt8.ofNat ((c &&& 0x03) <<< 6)) := by simp [load, reached, pending]
      rw [hload, ok_bind]
      refine returns_ok (h.sound fun n hn => ?_)
      simp at hsmall
      split_ifs at hn with hzero
      obtain rfl := Option.some.inj hn
      have hj : joined a b c 0 = [join (a <<< 2) (b >>> 4), join ((b &&& 0x0f) <<< 4) (c >>> 2), 0] := by
        simp only [joined, join, not_not.mp hzero]
        rfl
      have hout := output_joined hsmall.1 hsmall.2.1 hsmall.2.2 (by omega) hj
      simp [reached, pending, read, List.take_length_add_append, encode_append _ h.whole, encode, quantum, hout]
  · dsimp only at hne ⊢
    rw [if_pos hne]
    exact returns_ok h.refuses

lemma padding_sound (htext : 0 ∉ text) :
    Returns (padding (reached target bytes ds) (text ++ 0 :: rest))
      (Sound target targsize (read bytes ds ++ pad64 :: strip text)) := by
  obtain ⟨ch, hload⟩ : ∃ ch, load (text ++ 0 :: rest) 0 = .ok ch := by cases text <;> exact ⟨_, rfl⟩
  rw [padding, hload, ok_bind]
  match ds, h.few with
  | [], _ => exact returns_ok h.refuses
  | [a], _ => exact returns_ok h.refuses
  | [a, b], _ =>
    refine (skipSpaces_returns htext).bind ?_
    rintro ⟨ch, src⟩ hp
    dsimp only at hp ⊢
    by_cases hpad : ch = pad64
    · obtain ⟨hnul, -⟩ | ⟨-, text', hsrc, htext', hstrip⟩ := hp
      · exact absurd (hnul.symm.trans hpad) (by decide)
      · rw [if_neg (not_not.mpr hpad), hsrc, hstrip, hpad]
        simpa [List.replicate] using trailing_sound h (by simp) htext'
    · rw [if_pos hpad]
      exact returns_ok h.refuses
  | [a, b, c], _ =>
    change Returns (trailing _ _) _
    simpa [List.replicate] using trailing_sound h (by simp) htext

end

/-- How many characters of the text are digits. -/
def digits (text : List UInt8) : ℕ := text.countP (· ∈ base64)

lemma decodeFrom_sound (hsize : targsize ≤ target.length) (h : Good targsize bytes ds) (htext : 0 ∉ text)
    (hint : targsize < 2 ^ 31 ∨ 6 * ((read bytes ds).length + digits text) < 2 ^ 34) :
    Returns (decodeFrom targsize (text ++ 0 :: rest) (reached target bytes ds))
      (Sound target targsize (read bytes ds ++ strip text)) := by
  induction text generalizing bytes ds with
  | nil =>
    refine returns_ok (h.sound fun n hn => ?_)
    split_ifs at hn with hstate
    obtain rfl := Option.some.inj hn
    obtain rfl : ds = [] := List.length_eq_zero_iff.mp (not_not.mp hstate)
    simp [reached, pending, read, strip]
  | cons ch text ih =>
    rw [List.mem_cons, not_or] at htext
    rw [List.cons_append, decodeFrom, if_neg (Ne.symm htext.1)]
    by_cases hspace : isspace ch
    · have hfewer : digits text ≤ digits (ch :: text) := (List.sublist_cons_self ch text).countP_le
      simpa [strip, hspace] using ih h htext.2 (by omega)
    have hstrip : strip (ch :: text) = ch :: strip text := by simp [strip, hspace]
    rw [if_neg hspace, hstrip]
    split_ifs with hpad
    · rw [hpad]
      exact padding_sound h htext.2
    cases hpos : base64.idxOf? ch with
    | none => exact returns_ok h.refuses
    | some d =>
      obtain ⟨hd, rfl⟩ := symbol_of_idxOf hpos
      have hdigits : digits (symbol d :: text) = digits text + 1 :=
        List.countP_cons_of_pos (by simpa using symbol_mem hd)
      rw [hdigits] at hint
      obtain hnone | ⟨bytes', ds', hput, hgood, hread⟩ := putDigit_good h hsize hd (by omega)
      · dsimp only
        rw [hnone, ok_bind]
        exact returns_ok h.refuses
      · dsimp only
        rw [hput, ok_bind]
        simpa [hread] using ih hgood htext.2 (by simp [hread]; omega)

/-! ### The text of a byte string is decoded -/

lemma decodeFrom_symbol (hd : d < 64) {s s' : Decoding} (h : putDigit targsize d s = .ok (some s')) :
    decodeFrom targsize (symbol d :: src) s = decodeFrom targsize src s' := by
  have hall : ∀ d < 64, symbol d ≠ 0 ∧ ¬ isspace (symbol d) ∧ symbol d ≠ pad64 := by decide +kernel
  obtain ⟨hnul, hspace, hpad⟩ := hall d hd
  rw [decodeFrom, if_neg hnul, if_neg hspace, if_neg hpad, idxOf_symbol hd]
  dsimp only
  rw [h, ok_bind]

lemma decodeFrom_two (hsize : targsize ≤ target.length) (ha : a < 64) (hb : b < 64)
    (hroom : bytes.length + 1 < targsize) (hint : bytes.length + 1 < 2 ^ 31) :
    decodeFrom targsize (symbol a :: symbol b :: src) (reached target bytes []) =
      decodeFrom targsize src (reached target bytes [a, b]) := by
  have hfirst : putDigit targsize a (reached target bytes []) = .ok (some (reached target bytes [a])) := by
    rw [putDigit_first hsize, if_pos (by omega)]
  have hsecond : putDigit targsize b (reached target bytes [a]) = .ok (some (reached target bytes [a, b])) := by
    rw [putDigit_second hsize (fun _ => hint), if_pos hroom]
  rw [decodeFrom_symbol ha hfirst, decodeFrom_symbol hb hsecond]

lemma decodeFrom_three (hsize : targsize ≤ target.length) (ha : a < 64) (hb : b < 64) (hc : c < 64)
    (hroom : bytes.length + 2 < targsize) (hint : bytes.length + 2 < 2 ^ 31) :
    decodeFrom targsize (symbol a :: symbol b :: symbol c :: src) (reached target bytes []) =
      decodeFrom targsize src (reached target bytes [a, b, c]) := by
  rw [decodeFrom_two hsize ha hb (by omega) (by omega), decodeFrom_symbol hc]
  rw [putDigit_third hsize (fun _ => hint), if_pos hroom]

lemma trailing_end {s : Decoding} (h : load s.target s.tarindex = .ok 0) :
    trailing s (0 :: rest) = .ok (some s.tarindex, s.target) := by
  simp [trailing, skipSpaces, show isspace 0 = false from rfl, h]

lemma decodeFrom_encode (data rest : List UInt8) (hsize : targsize ≤ target.length)
    (hroom : bytes.length + data.length < targsize) (hint : bytes.length + data.length < 2 ^ 31) :
    Returns (decodeFrom targsize (encode data ++ 0 :: rest) (reached target bytes [])) fun out =>
      out.1 = some (bytes.length + data.length) ∧ out.2.take (bytes.length + data.length) = bytes ++ data := by
  induction data using encode.induct generalizing bytes with
  | case1 x y z data ih =>
    obtain ⟨a, b, c, d, hout⟩ : ∃ a b c d, output x y z = [a, b, c, d] := ⟨_, _, _, _, rfl⟩
    have hlt := output_lt x y z
    simp at hroom hint
    simp [hout] at hlt
    have hput : putDigit targsize d (reached target bytes [a, b, c]) =
        .ok (some (reached target (bytes ++ [x, y, z]) [])) := by
      rw [putDigit_fourth target (by omega), if_pos (by omega), joined_output hout]
    have hrest := @ih (bytes ++ [x, y, z]) (by simp; omega) (by simp; omega)
    rw [encode, quantum, hout]
    change Returns (decodeFrom targsize (symbol a :: symbol b :: symbol c :: symbol d :: _) _) _
    rw [decodeFrom_three hsize hlt.1 hlt.2.1 hlt.2.2.1 (by omega) (by omega), decodeFrom_symbol hlt.2.2.2 hput]
    simpa [Nat.add_assoc, Nat.add_comm 3] using hrest
  | case2 x y =>
    obtain ⟨a, b, c, hout⟩ : ∃ a b c, output x y 0 = [a, b, c, 0] := ⟨_, _, _, rfl⟩
    have hlt := output_lt x y 0
    have hj := joined_output hout
    simp only [hout, List.mem_cons, List.not_mem_nil, or_false, forall_eq_or_imp, forall_eq] at hlt
    simp [joined] at hj
    have hlast : UInt8.ofNat ((c &&& 0x03) <<< 6) = 0 := by simpa [join] using hj.2.2
    rw [encode, quantum, hout]
    change Returns (decodeFrom targsize (symbol a :: symbol b :: symbol c :: pad64 :: 0 :: _) _) _
    rw [decodeFrom_three hsize hlt.1 hlt.2.1 hlt.2.2.1 (by simpa using hroom) (by simpa using hint)]
    change Returns (trailing _ (0 :: rest)) _
    rw [trailing_end (by simp [load, reached, pending, hlast])]
    exact returns_ok ⟨rfl, by simp [reached, pending, hj, List.take_length_add_append]⟩
  | case3 x =>
    obtain ⟨a, b, hout⟩ : ∃ a b, output x 0 0 = [a, b, 0, 0] := ⟨_, _, rfl⟩
    have hlt := output_lt x 0 0
    have hj := joined_output hout
    simp only [hout, List.mem_cons, List.not_mem_nil, or_false, forall_eq_or_imp, forall_eq] at hlt
    simp [joined] at hj
    have hlast : UInt8.ofNat ((b &&& 0x0f) <<< 4) = 0 := by simpa [join] using hj.2.1
    rw [encode, quantum, hout]
    change Returns (decodeFrom targsize (symbol a :: symbol b :: pad64 :: pad64 :: 0 :: _) _) _
    rw [decodeFrom_two hsize hlt.1 hlt.2.1 (by simpa using hroom) (by simpa using hint)]
    change Returns (trailing _ (0 :: rest)) _
    rw [trailing_end (by simp [load, reached, pending, hlast])]
    exact returns_ok ⟨rfl, by simp [reached, pending, hj, List.take_length_add_append]⟩
  | case4 => exact returns_ok ⟨by simp [reached], by simp [reached]⟩

end

/-! ### Lengths are values of an `int` -/

section
variable {targsize d state high low n : ℕ} {s s' : Decoding} {src target : List UInt8}

lemma acrossBytes_lt (h : acrossBytes targsize state high low s = .ok (some s')) :
    s'.tarindex < 2 ^ 31 := by
  unfold acrossBytes at h
  split_ifs at h
  · cases h
  obtain ⟨_, -, h⟩ := ok_of_bind h
  obtain ⟨_, -, h⟩ := ok_of_bind h
  obtain ⟨next, hnext, h⟩ := ok_of_bind h
  obtain ⟨_, -, h⟩ := ok_of_bind h
  rw [← Option.some.inj (Except.ok.inj h)]
  exact (addInt_ok hnext).1

lemma putDigit_lt (hs : s.tarindex < 2 ^ 31) (h : putDigit targsize d s = .ok (some s')) :
    s'.tarindex < 2 ^ 31 := by
  unfold putDigit at h
  split at h
  · split_ifs at h
    · cases h
    obtain ⟨_, -, h⟩ := ok_of_bind h
    rwa [← Option.some.inj (Except.ok.inj h)]
  · exact acrossBytes_lt h
  · exact acrossBytes_lt h
  · split_ifs at h
    · cases h
    obtain ⟨_, -, h⟩ := ok_of_bind h
    obtain ⟨_, -, h⟩ := ok_of_bind h
    obtain ⟨next, hnext, h⟩ := ok_of_bind h
    rw [← Option.some.inj (Except.ok.inj h)]
    exact (addInt_ok hnext).1
  · cases h

lemma trailing_lt (hs : s.tarindex < 2 ^ 31) (h : trailing s src = .ok (some n, target)) : n < 2 ^ 31 := by
  obtain ⟨⟨ch, src⟩, -, h⟩ := ok_of_bind h
  dsimp only at h
  split_ifs at h
  · cases h
  obtain ⟨_, -, h⟩ := ok_of_bind h
  split_ifs at h
  · cases h
  · cases h
    exact hs

lemma padding_lt (hs : s.tarindex < 2 ^ 31) (h : padding s src = .ok (some n, target)) : n < 2 ^ 31 := by
  obtain ⟨_, -, h⟩ := ok_of_bind h
  dsimp only at h
  split at h
  · obtain ⟨⟨ch, src⟩, -, h⟩ := ok_of_bind h
    dsimp only at h
    split_ifs at h
    · cases h
    · exact trailing_lt hs h
  · exact trailing_lt hs h
  · cases h

lemma decodeFrom_lt (hs : s.tarindex < 2 ^ 31) (h : decodeFrom targsize src s = .ok (some n, target)) :
    n < 2 ^ 31 := by
  induction src generalizing s with
  | nil => cases h
  | cons ch src ih =>
    rw [decodeFrom] at h
    split_ifs at h
    · cases h
    · cases h
      exact hs
    · exact ih hs h
    · exact padding_lt hs h
    · split at h
      · cases h
      · obtain ⟨o, ho, h⟩ := ok_of_bind h
        cases o with
        | none => cases h
        | some s' => exact ih (putDigit_lt hs ho) h

end

/-- `b64_pton` gives back the bytes of what `b64_ntop` has stored, if their number fits an
`int`. For every text it leaves the memory behind the target as it was, and a text that it
accepts is what `b64_ntop` stores for the bytes, apart from white space, if the target or
the bytes that the digits of the text stand for are fewer than `2 ^ 31`. -/
theorem b64Pton_b64Ntop (target : List UInt8) (targsize : ℕ) (hsize : targsize ≤ target.length) :
    (∀ (data buffer : List UInt8) (size : ℕ), data.length < 2 ^ 31 → data.length < targsize →
      4 * ((data.length + 2) / 3) < size → size ≤ buffer.length →
      ∃ n text, b64Ntop size data 0 buffer = .ok (some n, text) ∧
        Returns (b64Pton text target targsize) fun out =>
          out.1 = some data.length ∧ out.2.take data.length = data) ∧
    ∀ text rest : List UInt8, 0 ∉ text → targsize < 2 ^ 31 ∨ 6 * digits text < 8 * 2 ^ 31 →
      Returns (b64Pton (text ++ 0 :: rest) target targsize) fun out =>
        out.2.length = target.length ∧ out.2.drop targsize = target.drop targsize ∧
          ∀ n, out.1 = some n → ∀ (buffer : List UInt8) (size : ℕ), 4 * ((n + 2) / 3) < size →
            size ≤ buffer.length → ∃ m more, b64Ntop size (out.2.take n) 0 buffer =
              .ok (some m, (text.filter fun c => !isspace c) ++ 0 :: more) := by
  constructor
  · intro data buffer size hint hroom hlong hbuffer
    have hstored : Returns (b64Ntop size data 0 buffer) (Stored buffer 0 (encode data)) :=
      b64Ntop_returns (by simpa using hlong) hbuffer
    obtain ⟨⟨o, text⟩, hntop, ho, more, htext⟩ := hstored
    dsimp only at ho htext
    refine ⟨_, text, by rw [hntop, ho], ?_⟩
    have hdecode : Returns (decodeFrom targsize _ (reached target [] [])) _ :=
      decodeFrom_encode data more hsize (by simpa using hroom) (by simpa using hint)
    rw [htext]
    simpa [b64Pton, reached, pending] using hdecode
  · intro text rest htext hint
    have hgood : Good targsize [] [] := ⟨by simp, by simp, by simp, by simp [pending]⟩
    have hsound : Returns (b64Pton (text ++ 0 :: rest) target targsize) _ :=
      decodeFrom_sound hsize hgood htext (by simpa [read, encode] using hint)
    refine hsound.mono fun out hout => ?_
    obtain ⟨⟨x, hx, htarget⟩, haccept⟩ := hout
    refine ⟨?_, ?_, ?_⟩
    · simp [htarget]
      omega
    · rw [htarget, List.drop_append, List.drop_eq_nil_of_le hx, List.drop_drop, List.nil_append]
      congr 1
      omega
    · intro n hn buffer size hlong hbuffer
      obtain ⟨hle, hencode⟩ := haccept n hn
      have hlength : (out.2.take n).length = n := by
        rw [List.length_take, htarget, List.length_append, List.length_drop]
        omega
      have hstored : Returns (b64Ntop size (out.2.take n) 0 buffer) (Stored buffer 0 (encode (out.2.take n))) :=
        b64Ntop_returns (by simpa [hlength] using hlong) hbuffer
      obtain ⟨⟨o, text'⟩, hntop, ho, more, htext'⟩ := hstored
      dsimp only at ho htext'
      obtain ⟨m, hm⟩ : ∃ m, o = some m := ⟨_, ho⟩
      refine ⟨m, more, ?_⟩
      rw [hntop, hm, htext', hencode]
      simp [read, encode, strip]

/-- A single byte. -/
theorem b64Pton_b64Ntop_one : ∃ n text, b64Ntop 5 [255] 0 [0, 0, 0, 0, 0] = .ok (some n, text) ∧
      Returns (b64Pton text [7, 7] 2) fun out => out.1 = some 1 ∧ out.2.take 1 = [255] :=
  (b64Pton_b64Ntop [7, 7] 2 (by decide)).1 [255] [0, 0, 0, 0, 0] 5 (by decide) (by decide) (by decide)
    (by decide)

/-- The length of `2 ^ 31` bytes is never returned, though the target has room for them. -/
theorem b64Pton_int : ¬ ∃ n text,
    b64Ntop (2 ^ 32) (List.replicate (2 ^ 31) 0) 0 (List.replicate (2 ^ 32) 0) = .ok (some n, text) ∧
      Returns (b64Pton text (List.replicate (2 ^ 31 + 1) 0) (2 ^ 31 + 1)) fun out =>
        out.1 = some (2 ^ 31) ∧ out.2.take (2 ^ 31) = List.replicate (2 ^ 31) 0 := by
  rintro ⟨n, text, -, ⟨o, target⟩, hrun, ho, -⟩
  dsimp only at ho
  rw [ho] at hrun
  exact lt_irrefl _ (decodeFrom_lt (by norm_num) hrun)

end Eglibc.Base64
