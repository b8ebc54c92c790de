import Eglibc.Gconv

/-!
# UTF-16

The loop bodies `to_utf16_loop` and `from_utf16_loop` of `iconvdata/utf-16.c`, for a
host of either byte order and with or without `__GCONV_SWAP`.
-/
namespace Eglibc.Utf16
open Checked Gconv

/-- The byte order of the host (big endian or not) and whether units are swapped. -/
structure Order where
  big : Bool
  swap : Bool

def bswap16 (v : ℕ) : ℕ := (v >>> 8 &&& 0xff) ||| (v &&& 0xff) <<< 8

def get16 (o : Order) (b₀ b₁ : UInt8) : ℕ :=
  if o.big then b₀.toNat <<< 8 ||| b₁.toNat else b₁.toNat <<< 8 ||| b₀.toNat

def put16 (o : Order) (v : ℕ) : List UInt8 :=
  if o.big then [UInt8.ofNat (v >>> 8), UInt8.ofNat v] else [UInt8.ofNat v, UInt8.ofNat (v >>> 8)]

/-- A unit as the loops read and write it. -/
def getUnit (o : Order) (b₀ b₁ : UInt8) : ℕ :=
  if o.swap then bswap16 (get16 o b₀ b₁) else get16 o b₀ b₁

def putUnit (o : Order) (v : ℕ) : List UInt8 := put16 o (if o.swap then bswap16 v else v)

def toUtf16Body (o : Order) (input : List UInt32) (room : ℕ) : Turn Unit UInt8 :=
  match input with
  | [] => .stop .emptyInput
  | w :: _ =>
    let c := w.toNat
    -- surrogate characters in UCS-4 input are not valid
    if 0xd800 ≤ c ∧ c < 0xe000 then .illegal 1 ()
    else if 0x10000 ≤ c then
      if 0x110000 ≤ c then .illegal 1 ()
      else if room < 4 then .stop .fullOutput
      else .emit 1 (putUnit o (0xd7c0 + c >>> 10) ++ putUnit o (0xdc00 + (c &&& 0x3ff))) ()
    else .emit 1 (putUnit o c) ()

def secondUnit (o : Order) (u₁ : ℕ) (rest : List UInt8) : Turn Unit UInt32 :=
  match rest with
  | b₂ :: b₃ :: _ =>
    let u₂ := getUnit o b₂ b₃
    if u₂ < 0xdc00 ∨ u₂ > 0xdfff then .illegal 2 ()
    else .emit 4 [UInt32.ofNat ((u₁ - 0xd7c0) <<< 10 + (u₂ - 0xdc00))] ()
  | _ => .stop .incompleteInput

def fromUtf16Body (o : Order) (input : List UInt8) : Turn Unit UInt32 :=
  match input with
  | b₀ :: b₁ :: rest =>
    let u₁ := getUnit o b₀ b₁
    if u₁ < 0xd800 ∨ u₁ > 0xdfff then .emit 2 [UInt32.ofNat u₁] ()
    else secondUnit o u₁ rest
  | _ => .stop .incompleteInput

lemma secondUnit_cases (o : Order) (u1 : ℕ) (rest : List UInt8) :
    secondUnit o u1 rest = .stop .incompleteInput ∨ secondUnit o u1 rest = .illegal 2 () ∨
      ∃ b2 b3 rest', rest = b2 :: b3 :: rest' ∧ 0xdc00 ≤ getUnit o b2 b3 ∧
        getUnit o b2 b3 ≤ 0xdfff ∧ secondUnit o u1 rest =
          .emit 4 [UInt32.ofNat ((u1 - 0xd7c0) <<< 10 + (getUnit o b2 b3 - 0xdc00))] () := by
  match rest with
  | [] => exact .inl rfl
  | [_] => exact .inl rfl
  | b2 :: b3 :: rest' =>
    by_cases hsecond : getUnit o b2 b3 < 0xdc00 ∨ getUnit o b2 b3 > 0xdfff
    · exact .inr (.inl (if_pos hsecond))
    · exact .inr (.inr ⟨b2, b3, rest', rfl, by omega, by omega, if_neg hsecond⟩)

theorem fromUtf16Body_cases (o : Order) (input : List UInt8) :
    fromUtf16Body o input = .stop .incompleteInput ∨ fromUtf16Body o input = .illegal 2 () ∨
      ∃ b₀ b₁ rest, input = b₀ :: b₁ :: rest ∧
        ((getUnit o b₀ b₁ < 0xd800 ∨ getUnit o b₀ b₁ > 0xdfff) ∧
            fromUtf16Body o input = .emit 2 [UInt32.ofNat (getUnit o b₀ b₁)] () ∨
          (0xd800 ≤ getUnit o b₀ b₁ ∧ getUnit o b₀ b₁ ≤ 0xdfff) ∧ ∃ b₂ b₃ rest',
            rest = b₂ :: b₃ :: rest' ∧ 0xdc00 ≤ getUnit o b₂ b₃ ∧ getUnit o b₂ b₃ ≤ 0xdfff ∧
            fromUtf16Body o input = .emit 4 [UInt32.ofNat
              ((getUnit o b₀ b₁ - 0xd7c0) <<< 10 + (getUnit o b₂ b₃ - 0xdc00))] ()) := by
  match input with
  | [] => exact .inl rfl
  | [_] => exact .inl rfl
  | b₀ :: b₁ :: rest =>
    by_cases hplain : getUnit o b₀ b₁ < 0xd800 ∨ getUnit o b₀ b₁ > 0xdfff
    · exact .inr (.inr ⟨b₀, b₁, rest, rfl, .inl ⟨hplain, if_pos hplain⟩⟩)
    have hbody : fromUtf16Body o (b₀ :: b₁ :: rest) = secondUnit o (getUnit o b₀ b₁) rest :=
      if_neg hplain
    rw [hbody]
    rcases secondUnit_cases o (getUnit o b₀ b₁) rest with h | h | ⟨b₂, b₃, rest', rfl, h₂, h₃, h⟩
    · exact .inl h
    · exact .inr (.inl h)
    · exact .inr (.inr ⟨b₀, b₁, _, rfl, .inr ⟨by omega, b₂, b₃, rest', rfl, h₂, h₃, h⟩⟩)

def toUtf16 (o : Order) : Converter Unit UInt32 UInt8 where
  minInput := 1
  minOutput := 2
  unit := 1
  body _ input room := .ok (toUtf16Body o input room)
  rank _ := 0
  rank_le _ := Nat.zero_le _
  advances := by
    intro state input room taken out state' h
    cases input with
    | nil => cases h
    | cons w rest =>
      rw [toUtf16Body] at h
      split_ifs at h
      all_goals
        cases h
        try exact .inl Nat.one_pos
  skips := by
    intro state input room taken state' h
    cases input with
    | nil => cases h
    | cons w rest =>
      rw [toUtf16Body] at h
      split_ifs at h
      all_goals
        cases h
        try exact Nat.one_pos

def fromUtf16 (o : Order) : Converter Unit UInt8 UInt32 where
  minInput := 2
  minOutput := 4
  unit := 4
  body _ input _ := .ok (fromUtf16Body o input)
  rank _ := 0
  rank_le _ := Nat.zero_le _
  advances := by
    intro state input room taken out state' h
    have h := Except.ok.inj h
    rcases fromUtf16Body_cases o input with h' | h' |
      ⟨b₀, b₁, rest, -, ⟨-, h'⟩ | ⟨-, b₂, b₃, rest', -, -, -, h'⟩⟩
    all_goals
      rw [h'] at h
      cases h
      try exact .inl (by decide)
  skips := by
    intro state input room taken state' h
    have h := Except.ok.inj h
    rcases fromUtf16Body_cases o input with h' | h' |
      ⟨b₀, b₁, rest, -, ⟨-, h'⟩ | ⟨-, b₂, b₃, rest', -, -, -, h'⟩⟩
    all_goals
      rw [h'] at h
      cases h
      try decide

section
variable {o : Order}

lemma or_byte (h : b < 256) : a <<< 8 ||| b = a * 256 + b := by
  rw [← Nat.shiftLeft_add_eq_or_of_lt (show b < 2 ^ 8 from h), Nat.shiftLeft_eq]

lemma bswap16_eq (h : v < 65536) : bswap16 v = v % 256 * 256 + v / 256 := by
  have hlow : v &&& 0xff = v % 256 := Nat.and_two_pow_sub_one_eq_mod v 8
  have hhigh : v >>> 8 &&& 0xff = v / 256 := by
    simp [show (v >>> 8 &&& 0xff) = v >>> 8 % 256 from Nat.and_two_pow_sub_one_eq_mod _ 8]
    omega
  rw [bswap16, hlow, hhigh, Nat.lor_comm, or_byte (by omega)]

lemma get16_lt (b₀ b₁ : UInt8) : get16 o b₀ b₁ < 65536 := by
  have h₀ := b₀.toNat_lt
  have h₁ := b₁.toNat_lt
  unfold get16
  split_ifs
  · rw [or_byte h₁]
    omega
  · rw [or_byte h₀]
    omega

theorem getUnit_eq (b₀ b₁ : UInt8) : getUnit o b₀ b₁ =
    if o.big = o.swap then b₁.toNat * 256 + b₀.toNat else b₀.toNat * 256 + b₁.toNat := by
  have h₀ := b₀.toNat_lt
  have h₁ := b₁.toNat_lt
  rw [getUnit, bswap16_eq (get16_lt b₀ b₁)]
  rw [get16, or_byte h₀, or_byte h₁]
  obtain ⟨big, swap⟩ := o
  cases big <;> cases swap <;> simp <;> omega

lemma getUnit_lt (b₀ b₁ : UInt8) : getUnit o b₀ b₁ < 65536 := by
  have h₀ := b₀.toNat_lt
  have h₁ := b₁.toNat_lt
  rw [getUnit_eq]
  split_ifs <;> omega

lemma putUnit_eq (h : v < 65536) : putUnit o v =
    if o.big = o.swap then [UInt8.ofNat v, UInt8.ofNat (v / 256)]
    else [UInt8.ofNat (v / 256), UInt8.ofNat v] := by
  have hshift (n : ℕ) : n >>> 8 = n / 256 := Nat.shiftRight_eq_div_pow n 8
  have hlow : UInt8.ofNat (v % 256 * 256 + v / 256) = UInt8.ofNat (v / 256) := by
    apply UInt8.toNat_inj.mp
    simp
  have hhigh : UInt8.ofNat ((v % 256 * 256 + v / 256) / 256) = UInt8.ofNat v := by
    apply UInt8.toNat_inj.mp
    have hdiv : (v % 256 * 256 + v / 256) / 256 = v % 256 := by
      omega
    simp
    omega
  unfold putUnit put16
  rw [bswap16_eq h]
  obtain ⟨big, swap⟩ := o
  cases big <;> cases swap <;> simp [hshift, hlow, hhigh]

lemma length_putUnit (v : ℕ) : (putUnit o v).length = 2 := by
  unfold putUnit put16
  split_ifs <;> rfl

lemma putUnit_getUnit (b₀ b₁ : UInt8) : putUnit o (getUnit o b₀ b₁) = [b₀, b₁] := by
  have h₀ := b₀.toNat_lt
  have h₁ := b₁.toNat_lt
  have hbyte (b : UInt8) {n : ℕ} (h : n % 256 = b.toNat) : UInt8.ofNat n = b := by
    apply UInt8.toNat_inj.mp
    rwa [UInt8.toNat_ofNat']
  rw [putUnit_eq (getUnit_lt b₀ b₁), getUnit_eq]
  by_cases horder : o.big = o.swap
  · rw [if_pos horder, if_pos horder, hbyte b₀ (by omega), hbyte b₁ (by omega)]
  · rw [if_neg horder, if_neg horder, hbyte b₀ (by omega), hbyte b₁ (by omega)]

lemma putUnit_cons (h : v < 65536) : ∃ b0 b1, putUnit o v = [b0, b1] ∧ getUnit o b0 b1 = v := by
  rw [putUnit_eq h]
  by_cases horder : o.big = o.swap
  · refine ⟨_, _, if_pos horder, ?_⟩
    rw [getUnit_eq, if_pos horder, UInt8.toNat_ofNat', UInt8.toNat_ofNat']
    omega
  · refine ⟨_, _, if_neg horder, ?_⟩
    rw [getUnit_eq, if_neg horder, UInt8.toNat_ofNat', UInt8.toNat_ofNat']
    omega

end

def code (o : Order) (w : UInt32) : List UInt8 :=
  if 0x10000 ≤ w.toNat then
    putUnit o (0xd7c0 + w.toNat / 1024) ++ putUnit o (0xdc00 + w.toNat % 1024)
  else putUnit o w.toNat

def Scalar (w : UInt32) : Prop := w.toNat < 0x110000 ∧ ¬(0xd800 ≤ w.toNat ∧ w.toNat ≤ 0xdfff)

/-- What the decoder produces: the first of two units may be any surrogate. -/
def Decoded (w : UInt32) : Prop := w.toNat < 0x210000 ∧ ¬(0xd800 ≤ w.toNat ∧ w.toNat ≤ 0xdfff)

section
variable {o : Order} {w : UInt32}

lemma length_code (w : UInt32) : (code o w).length = if 0x10000 ≤ w.toNat then 4 else 2 := by
  unfold code
  split_ifs
  · simp [length_putUnit]
  · exact length_putUnit _

lemma toUtf16Body_eq (h : Scalar w) (rest : List UInt32) (room : ℕ) :
    toUtf16Body o (w :: rest) room =
      if room < 4 ∧ 0x10000 ≤ w.toNat then .stop .fullOutput else .emit 1 (code o w) () := by
  obtain ⟨hlt, hsur⟩ := h
  have hand : w.toNat &&& 0x3ff = w.toNat % 1024 := Nat.and_two_pow_sub_one_eq_mod _ 10
  have hshift : w.toNat >>> 10 = w.toNat / 1024 := Nat.shiftRight_eq_div_pow _ 10
  rw [toUtf16Body, if_neg (by omega)]
  unfold code
  by_cases hpair : 0x10000 ≤ w.toNat
  · rw [if_pos hpair, if_pos hpair, if_neg (by omega), hand, hshift]
    by_cases hroom : room < 4
    · rw [if_pos hroom, if_pos ⟨hroom, hpair⟩]
    · rw [if_neg hroom, if_neg (fun h => hroom h.1)]
  · rw [if_neg hpair, if_neg hpair, if_neg (fun h => hpair h.2)]

lemma codes_toUtf16 (o : Order) : Gconv.Codes (toUtf16 o) Scalar (fun w => [w]) (code o) where
  nonempty _ := List.cons_ne_nil _ _
  input_le _ := le_rfl
  output_le {w} _ := by
    show 2 ≤ 1 * (code o w).length
    rw [length_code]
    split_ifs <;> decide
  emits {w rest room} hw hroom := by
    rw [show (toUtf16 o).unit = 1 from rfl, Nat.one_mul, length_code] at hroom
    refine congrArg Except.ok ((toUtf16Body_eq hw rest room).trans (if_neg ?_))
    rintro ⟨hlt, hpair⟩
    rw [if_pos hpair] at hroom
    omega
  stops {w rest room} hw hmin hroom := by
    rw [show (toUtf16 o).unit = 1 from rfl, Nat.one_mul, length_code] at hroom
    have hmin : 2 ≤ room := hmin
    refine congrArg Except.ok ((toUtf16Body_eq hw rest room).trans (if_pos ?_))
    by_cases hpair : 0x10000 ≤ w.toNat
    · rw [if_pos hpair] at hroom
      exact ⟨hroom, hpair⟩
    · rw [if_neg hpair] at hroom
      omega

theorem reads_fromUtf16 (o : Order) : Reads (fromUtf16 o) Decoded (code o) (fun w => [w]) where
  emitted {input room taken out} h := by
    have h : fromUtf16Body o input = .emit taken out () := Except.ok.inj h
    rcases fromUtf16Body_cases o input with h' | h' |
      ⟨b0, b1, rest, rfl, ⟨hplain, h'⟩ | ⟨hfirst, b2, b3, rest', rfl, hlow, hhigh, h'⟩⟩
    · cases h'.symm.trans h
    · cases h'.symm.trans h
    · cases h'.symm.trans h
      have hlt := getUnit_lt (o := o) b0 b1
      have hvalue := UInt32.toNat_ofNat_of_lt' (n := getUnit o b0 b1)
        (show getUnit o b0 b1 < 2 ^ 32 by omega)
      refine ⟨UInt32.ofNat (getUnit o b0 b1), ⟨by omega, by omega⟩, ?_, rfl⟩
      rw [code, hvalue, if_neg (by omega), putUnit_getUnit]
      rfl
    · cases h'.symm.trans h
      have hvalue : (getUnit o b0 b1 - 0xd7c0) <<< 10 + (getUnit o b2 b3 - 0xdc00) =
          (getUnit o b0 b1 - 0xd7c0) * 1024 + (getUnit o b2 b3 - 0xdc00) := by
        rw [Nat.shiftLeft_eq]
      have hnat := UInt32.toNat_ofNat_of_lt'
        (n := (getUnit o b0 b1 - 0xd7c0) * 1024 + (getUnit o b2 b3 - 0xdc00))
        (show _ < 2 ^ 32 by omega)
      rw [hvalue]
      refine ⟨_, ⟨by omega, by omega⟩, ?_, rfl⟩
      rw [code, hnat, if_pos (by omega),
        show 0xd7c0 + ((getUnit o b0 b1 - 0xd7c0) * 1024 + (getUnit o b2 b3 - 0xdc00)) / 1024 =
          getUnit o b0 b1 by omega,
        show 0xdc00 + ((getUnit o b0 b1 - 0xd7c0) * 1024 + (getUnit o b2 b3 - 0xdc00)) % 1024 =
          getUnit o b2 b3 by omega, putUnit_getUnit, putUnit_getUnit]
      rfl
  stopped {input room result} _ h := by
    have h : fromUtf16Body o input = .stop result := Except.ok.inj h
    rcases fromUtf16Body_cases o input with h' | h' |
      ⟨b0, b1, rest, -, ⟨-, h'⟩ | ⟨-, b2, b3, rest', -, -, -, h'⟩⟩
    all_goals
      cases h'.symm.trans h
      try decide

end

/-- Reading from left to right, no pair of units begins with a low surrogate. -/
def pairsHigh (o : Order) : List UInt8 → Bool
  | b₀ :: b₁ :: b₂ :: b₃ :: rest =>
      if getUnit o b₀ b₁ < 0xd800 ∨ getUnit o b₀ b₁ > 0xdfff then pairsHigh o (b₂ :: b₃ :: rest)
      else decide (getUnit o b₀ b₁ < 0xdc00) && pairsHigh o rest
  | _ => true

section
variable {o : Order}

lemma pairsHigh_unit {b0 b1 : UInt8} {cs : List UInt32}
    (h : getUnit o b0 b1 < 0xd800 ∨ getUnit o b0 b1 > 0xdfff) :
    pairsHigh o (b0 :: b1 :: cs.flatMap (code o)) = pairsHigh o (cs.flatMap (code o)) := by
  have hlen : ∀ c, ∃ b b' rest, code o c = b :: b' :: rest := by
    intro c
    have hle : 2 ≤ (code o c).length := by
      rw [length_code]
      split_ifs <;> decide
    match hc : code o c with
    | [] => simp [hc] at hle
    | [_] => simp [hc] at hle
    | b :: b' :: rest => exact ⟨b, b', rest, rfl⟩
  cases cs with
  | nil => rfl
  | cons c cs =>
    obtain ⟨b, b', rest, hc⟩ := hlen c
    rw [List.flatMap_cons, hc, List.cons_append, List.cons_append, pairsHigh, if_pos h]

lemma pairsHigh_flatMap {cs : List UInt32} (hcs : ∀ c ∈ cs, Decoded c) :
    pairsHigh o (cs.flatMap (code o)) = cs.all fun c => c.toNat < 0x110000 := by
  induction cs with
  | nil => rfl
  | cons c cs ih =>
    have ih := ih fun c' hc' => hcs c' (by simp [hc'])
    obtain ⟨hlt, hsur⟩ := hcs c (by simp)
    rw [List.flatMap_cons, List.all_cons, code]
    by_cases hpair : 0x10000 ≤ c.toNat
    · obtain ⟨b₀, b₁, h₁, hu₁⟩ := putUnit_cons (o := o) (v := 0xd7c0 + c.toNat / 1024) (by omega)
      obtain ⟨b₂, b₃, h₂, -⟩ := putUnit_cons (o := o) (v := 0xdc00 + c.toNat % 1024) (by omega)
      rw [if_pos hpair, h₁, h₂]
      show pairsHigh o (b₀ :: b₁ :: b₂ :: b₃ :: cs.flatMap (code o)) = _
      rw [pairsHigh, if_neg (by omega), hu₁, ih]
      congr 1
      apply decide_eq_decide.mpr
      omega
    obtain ⟨b₀, b₁, h₁, hu₁⟩ := putUnit_cons (o := o) (v := c.toNat) (by omega)
    rw [if_neg hpair, h₁]
    show pairsHigh o (b₀ :: b₁ :: cs.flatMap (code o)) = _
    rw [pairsHigh_unit (by omega), ih, decide_eq_true (show c.toNat < 0x110000 by omega),
      Bool.true_and]

lemma convert_toUtf16 (o : Order) (ignoreErrors : Bool)
    (hws : ∀ w ∈ ws, Scalar w) (hroom : (ws.flatMap (code o)).length ≤ room) :
    convert (toUtf16 o) ignoreErrors () ws room =
      .ok ⟨[], ws.flatMap (code o), room - (ws.flatMap (code o)).length, (), 0, .emptyInput⟩ := by
  have hfit : (toUtf16 o).unit * (ws.flatMap (code o)).length ≤ room := by
    rwa [show (toUtf16 o).unit = 1 from rfl, Nat.one_mul]
  have hin : ws = (ws.flatMap fun w => [w]) ++ [] := by simp
  rw [convert, (codes_toUtf16 o).loop_append hws hin hfit, loop_end rfl,
    show (toUtf16 o).unit = 1 from rfl, Nat.one_mul]
  rfl

/-- Bytes decoded without an error give scalar values that are encoded to the same bytes
exactly when no pair of units begins with a low surrogate. -/
theorem fromUtf16_inverse (o : Order) (ignoreErrors : Bool) (bytes : List UInt8) (room : ℕ)
    (r : Loop Unit UInt8 UInt32) (hr : convert (fromUtf16 o) ignoreErrors () bytes room = .ok r)
    (hempty : r.result = .emptyInput) (room' : ℕ) (hroom' : bytes.length ≤ room') :
    ((∀ w ∈ r.output, Scalar w) ∧
      Returns (convert (toUtf16 o) ignoreErrors () r.output room') fun r' =>
        r'.result = .emptyInput ∧ r'.output = bytes) ↔ pairsHigh o bytes = true := by
  obtain ⟨cs, hcs, hin, hout⟩ := (reads_fromUtf16 o).loop_inv hr hempty
  have hout : r.output = cs := by simpa using hout
  have hbytes : bytes = cs.flatMap (code o) := hin
  rw [hbytes] at hroom'
  rw [hout, hbytes, pairsHigh_flatMap hcs, List.all_eq_true]
  constructor
  · rintro ⟨hscalar, -⟩ w hw
    exact decide_eq_true (hscalar w hw).1
  · intro hsmall
    have hscalar : ∀ w ∈ cs, Scalar w :=
      fun w hw => ⟨of_decide_eq_true (hsmall w hw), (hcs w hw).2⟩
    rw [convert_toUtf16 o ignoreErrors hscalar hroom']
    exact ⟨hscalar, returns_ok ⟨rfl, rfl⟩⟩

/-- A euro sign and a character outside the first plane, in little-endian order. -/
theorem fromUtf16_inverse_pair : ((∀ w ∈ ([0x20ac, 0x1f600] : List UInt32), Scalar w) ∧
      Returns (convert (toUtf16 ⟨false, false⟩) false () [0x20ac, 0x1f600] 6) fun r' =>
        r'.result = .emptyInput ∧ r'.output = [0xac, 0x20, 0x3d, 0xd8, 0x00, 0xde]) ↔
      pairsHigh ⟨false, false⟩ [0xac, 0x20, 0x3d, 0xd8, 0x00, 0xde] = true :=
  fromUtf16_inverse ⟨false, false⟩ false [0xac, 0x20, 0x3d, 0xd8, 0x00, 0xde] 8
    ⟨[], [0x20ac, 0x1f600], 0, (), 0, .emptyInput⟩ (by decide +kernel) rfl 6 (by decide)

/-- Two low surrogates U+DC00 are decoded without an error, to a value above U+10FFFF,
which the encoder refuses. -/
theorem lowPair_decoded : convert (fromUtf16 ⟨false, false⟩) false () [0x00, 0xdc, 0x00, 0xdc] 4 =
      .ok ⟨[], [0x110000], 0, (), 0, .emptyInput⟩ ∧ ¬Scalar 0x110000 ∧
    convert (toUtf16 ⟨false, false⟩) false () [0x110000] 4 =
      .ok ⟨[0x110000], [], 4, (), 0, .illegalInput⟩ := by
  refine ⟨by decide +kernel, ?_, by decide +kernel⟩
  rintro ⟨hlt, -⟩
  revert hlt
  decide

end

end Eglibc.Utf16
