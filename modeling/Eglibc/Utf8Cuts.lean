import Eglibc.Utf8Inverse

/-!
# UTF-8 in pieces

A call with `consume_incomplete` stores a partial character in the state (`STORE_REST`)
and completes it in the next call (`UNPACK_BYTES` and the `_single` function of
`iconv/loop.c`, called from `iconv/skeleton.c`). The decoder is the last step.
-/
namespace Eglibc.Utf8
open Checked Gconv

structure MbState where
  count : ℕ
  wch : ℕ
  deriving DecidableEq, Repr

/-- The form of a first byte in `STORE_REST`, which takes everything else for six bytes. -/
def restForm (ch : ℕ) : ℕ × ℕ :=
  if 0xc2 ≤ ch ∧ ch < 0xe0 then (2, ch &&& 0x1f)
  else if ch &&& 0xf0 = 0xe0 then (3, ch &&& 0x0f)
  else if ch &&& 0xf8 = 0xf0 then (4, ch &&& 0x07)
  else if ch &&& 0xfc = 0xf8 then (5, ch &&& 0x03)
  else (6, ch &&& 0x01)

/-- `STORE_REST` for the bytes between `*inptrp` and `inend`. -/
def storeRest (bytes : List UInt8) : Run MbState :=
  match bytes with
  | [] => .error (.read 0)
  | b :: rest => do
      ensure (b.toNat ≠ 0xc0 ∧ b.toNat ≠ 0xc1)
      let form := restForm b.toNat
      let ch := rest.foldl (fun ch b => ch <<< 6 ||| b.toNat &&& 0x3f) form.2
      let missing := form.1 - 1 - rest.length
      .ok ⟨bytes.length ||| form.1 <<< 8, ch <<< (missing * 6)⟩

def unpackTrail (inlen : ℕ) : ℕ → ℕ → List UInt8 → ℕ × List UInt8
  | 0, wch, bytes => (wch, bytes)
  | n + 1, wch, bytes =>
      unpackTrail inlen n (wch >>> 6)
        (if n + 1 < inlen then UInt8.ofNat (0x80 ||| wch &&& 0x3f) :: bytes else bytes)

def inmask : List ℕ := [0xc0, 0xe0, 0xf0, 0xf8, 0xfc]

/-- `UNPACK_BYTES`: the bytes that the state stands for. -/
def unpackBytes (state : MbState) : Run (List UInt8) := do
  let ntotal := state.count >>> 8
  let inlen := state.count &&& 255
  let mask ← load inmask (ntotal - 2)
  let r := unpackTrail inlen (ntotal - 1) state.wch []
  .ok (UInt8.ofNat (mask ||| r.1) :: r.2)

/-- What a call hands back: its status, the input it leaves, the output it stored, the
room left and the state. -/
structure Call where
  status : Status
  input : List UInt8
  output : List UInt32
  room : ℕ
  state : MbState
  deriving DecidableEq, Repr

/-- `SINGLE(LOOPFCT)` after a character was found behind `taken` bytes of the buffer. -/
def singleFound (state : MbState) (input : List UInt8) (room taken : ℕ) (output : List UInt32) :
    Run Call := do
  ensure (taken > state.count &&& 7)
  .ok ⟨.ok, input.drop (taken - (state.count &&& 7)), output, room - 4 * output.length,
    { state with count := 0 }⟩

def singleBody (ignoreErrors : Bool) (state : MbState) (input : List UInt8) (room : ℕ)
    (bytebuf : List UInt8) : Run Call :=
  match utf8InternalBody bytebuf with
  | .emit taken out _ => singleFound state input room taken out
  | .illegal taken _ =>
      if ignoreErrors then singleFound state input room taken []
      else .ok ⟨.illegalInput, input, [], room, state⟩
  | .stop .incompleteInput => do
      ensure (bytebuf.length ≠ 6)
      let input := input.drop (bytebuf.length - (state.count &&& 7))
      let state ← storeRest bytebuf
      .ok ⟨.incompleteInput, input, [], room, state⟩
  | .stop result => .ok ⟨result, input, [], room, state⟩

/-- `SINGLE(LOOPFCT)`: complete a stored character with bytes of the new input. -/
def single (ignoreErrors : Bool) (state : MbState) (input : List UInt8) (room : ℕ) : Run Call := do
  let stored ← unpackBytes state
  if room < 4 then .ok ⟨.fullOutput, input, [], room, state⟩
  else match input with
    | [] => .error (.read 0)
    | b :: rest =>
      if stored.length < 6 then
        singleBody ignoreErrors state input room (stored ++ b :: rest.take (5 - stored.length))
      else .error (.write stored.length)

def transformRest (ignoreErrors consumeIncomplete : Bool) (c : Call) : Run Call := do
  let r ← convert utf8Internal ignoreErrors () c.input c.room
  if consumeIncomplete = true ∧ r.result = .incompleteInput then do
    let state ← storeRest r.input
    .ok ⟨r.result, [], c.output ++ r.output, r.room, state⟩
  else .ok ⟨r.result, r.input, c.output ++ r.output, r.room, c.state⟩

/-- `__gconv_transform_utf8_internal` as the last step. -/
def transform (ignoreErrors consumeIncomplete : Bool) (state : MbState) (input : List UInt8)
    (room : ℕ) : Run Call :=
  if consumeIncomplete = true ∧ state.count &&& 7 ≠ 0 then do
    let c ← single ignoreErrors state input room
    if c.status = .ok then transformRest ignoreErrors consumeIncomplete c else .ok c
  else transformRest ignoreErrors consumeIncomplete ⟨.ok, input, [], room, state⟩

def feed (ignoreErrors : Bool) : MbState → ℕ → List (List UInt8) → Run (List Call)
  | _, _, [] => .ok []
  | state, room, piece :: pieces => do
      let c ← transform ignoreErrors true state piece room
      let calls ← feed ignoreErrors c.state c.room pieces
      .ok (c :: calls)

lemma tails_take (w : ℕ) (h : j ≤ m) : (tails m w).take j = tails j (w / 64 ^ (m - j)) := by
  induction m generalizing j with
  | zero =>
    obtain rfl : j = 0 := by omega
    rfl
  | succ m ih =>
    cases j with
    | zero => rfl
    | succ j =>
      have hpow : 64 ^ m = 64 ^ (m - j) * 64 ^ j := by rw [← Nat.pow_add, Nat.sub_add_cancel (by omega)]
      rw [tails, List.take_succ_cons, ih (by omega), tails, Nat.add_sub_add_right,
        Nat.div_div_eq_div_mul, ← hpow]

lemma foldl_tails (ch n w : ℕ) :
    (tails n w).foldl (fun ch b => ch <<< 6 ||| b.toNat &&& 0x3f) ch = ch * 64 ^ n + w % 64 ^ n := by
  induction n generalizing ch with
  | zero => simp [tails, Nat.mod_one]
  | succ n ih =>
    have hdigit : w / 64 ^ n % 64 < 64 := Nat.mod_lt _ (by decide)
    rw [tails, List.foldl_cons, ih, accumulate, toNat_trail hdigit,
      show (0x80 + w / 64 ^ n % 64) % 64 = w / 64 ^ n % 64 by omega, Nat.mod_pow_succ]
    ring

lemma unpackTrail_eq (inlen n wch : ℕ) (bytes : List UInt8) :
    unpackTrail inlen n wch bytes = (wch / 64 ^ n, (tails n wch).take (inlen - 1) ++ bytes) := by
  induction n generalizing wch bytes with
  | zero => simp [unpackTrail, tails]
  | succ n ih =>
    have hshift : wch >>> 6 = wch / 64 := Nat.shiftRight_eq_div_pow wch 6
    rw [unpackTrail, ih, trail_or, hshift, tails_snoc, Nat.div_div_eq_div_mul, Nat.pow_succ']
    split_ifs with hlen
    · rw [List.take_of_length_le (by simp; omega), List.take_of_length_le (by simp; omega),
        List.append_assoc, List.singleton_append]
    · rw [List.take_append_of_le_length (by simp; omega)]

lemma trailCount_tails (n w : ℕ) : trailCount (tails n w) = n := by
  have hall : (tails n w).takeWhile isTrail = tails n w := by
    rw [List.takeWhile_eq_self_iff]
    induction n with
    | zero => simp [tails]
    | succ n ih =>
      intro b hb
      rw [tails, List.mem_cons] at hb
      rcases hb with rfl | hb
      · exact isTrail_ofNat (Nat.mod_lt _ (by decide))
      · exact ih b hb
  rw [trailCount, hall, length_tails]

structure Cut (c : UInt32) (t : List UInt8) : Prop where
  plain : Plain c
  long : 0x80 ≤ c.toNat
  pos : 0 < t.length
  short : t.length < stepOf c.toNat
  shape : t = UInt8.ofNat (leadByte (stepOf c.toNat) ||| c.toNat / 64 ^ (stepOf c.toNat - 1)) ::
    tails (t.length - 1) (c.toNat / 64 ^ (stepOf c.toNat - t.length))

lemma cut_of_encode (hc : Plain c) (h : encode c = t ++ u)
    (ht : t ≠ []) (hu : u ≠ []) : Cut c t := by
  have hlen := length_encode hc.1
  have htpos := List.length_pos_of_ne_nil ht
  have hupos := List.length_pos_of_ne_nil hu
  rw [h, List.length_append] at hlen
  have hascii : ¬c.toNat < 0x80 := by
    intro hascii
    rw [if_pos hascii] at hlen
    omega
  rw [if_neg hascii] at hlen
  have hshort : t.length < stepOf c.toNat := by omega
  refine ⟨hc, by omega, htpos, hshort, ?_⟩
  have htake : t = (encode c).take t.length := by simp [h]
  conv_lhs => rw [htake, encode, if_neg hascii, sequence_eq]
  obtain ⟨k, hk⟩ : ∃ k, t.length = k + 1 := ⟨t.length - 1, by omega⟩
  rw [hk, List.take_succ_cons, tails_take _ (by omega), Nat.add_sub_cancel,
    show stepOf c.toNat - 1 - k = stepOf c.toNat - (k + 1) by omega]

section
variable {c : UInt32} {t : List UInt8}

lemma Cut.lead (h : Cut c t) : 2 ≤ stepOf c.toNat ∧ stepOf c.toNat ≤ 6 ∧
    ∀ b, b = UInt8.ofNat (leadByte (stepOf c.toNat) ||| c.toNat / 64 ^ (stepOf c.toNat - 1)) →
      b.toNat = leadByte (stepOf c.toNat) ||| c.toNat / 64 ^ (stepOf c.toNat - 1) ∧
      0x80 ≤ b.toNat ∧
      leadForm b.toNat = some (stepOf c.toNat, c.toNat / 64 ^ (stepOf c.toNat - 1)) := by
  obtain ⟨htwo, hsix, -, -⟩ := stepOf_spec h.plain.1
  obtain ⟨hlead, hge, hlt⟩ :=
    leadForm_lead ⟨htwo, hsix⟩ (lead_lt h.plain.1) (lead_ge h.long)
  refine ⟨htwo, hsix, ?_⟩
  rintro b rfl
  rw [UInt8.toNat_ofNat_of_lt' hlt]
  exact ⟨rfl, hge, hlead⟩

lemma Cut.incomplete (h : Cut c t) : utf8InternalBody t = .stop .incompleteInput := by
  obtain ⟨-, -, hlead⟩ := h.lead
  have hpos := h.pos
  have hshort := h.short
  rw [h.shape]
  obtain ⟨-, hge, hform⟩ := hlead _ rfl
  rw [utf8InternalBody, if_neg (by omega), hform]
  dsimp only
  rw [longForm, if_pos (by simp; omega), trailCount_tails, length_tails, if_pos rfl]

lemma restForm_eq (hch : ch < 256) (h : leadForm ch = some (cnt, hi)) :
    restForm ch = (cnt, hi) ∧ ch ≠ 0xc0 ∧ ch ≠ 0xc1 := by
  have : ∀ ch < 256, ∀ form ∈ leadForm ch, restForm ch = form ∧ ch ≠ 0xc0 ∧ ch ≠ 0xc1 := by
    decide +kernel
  exact this ch hch (cnt, hi) h

/-- The state that stands for the first `k` bytes of a character. -/
def stateOf (c : UInt32) (k : ℕ) : MbState :=
  ⟨k ||| stepOf c.toNat <<< 8, c.toNat / 64 ^ (stepOf c.toNat - k) * 64 ^ (stepOf c.toNat - k)⟩

lemma Cut.storeRest_eq (h : Cut c t) : storeRest t = .ok (stateOf c t.length) := by
  obtain ⟨-, hsix, hlead⟩ := h.lead
  have hpos := h.pos
  have hshort := h.short
  obtain ⟨hb, hge, hform⟩ := hlead _ rfl
  obtain ⟨hrest, hc0, hc1⟩ := restForm_eq (UInt8.toNat_lt _) hform
  have hvalue : c.toNat / 64 ^ (stepOf c.toNat - 1) * 64 ^ (t.length - 1) +
      c.toNat / 64 ^ (stepOf c.toNat - t.length) % 64 ^ (t.length - 1) =
      c.toNat / 64 ^ (stepOf c.toNat - t.length) := by
    rw [show stepOf c.toNat - 1 = stepOf c.toNat - t.length + (t.length - 1) by omega, Nat.pow_add,
      ← Nat.div_div_eq_div_mul]
    exact Nat.div_add_mod' _ _
  have hmissing : stepOf c.toNat - 1 - (t.length - 1) = stepOf c.toNat - t.length := by omega
  have hlen : t.length - 1 + 1 = t.length := by omega
  have hpow (x k : ℕ) : x <<< (k * 6) = x * 64 ^ k := by
    rw [Nat.shiftLeft_eq, Nat.mul_comm k 6, Nat.pow_mul]
  conv_lhs => rw [h.shape]
  rw [storeRest, ensure, if_pos ⟨hc0, hc1⟩, ok_bind]
  dsimp only
  rw [hrest, foldl_tails, List.length_cons, length_tails, hlen, hmissing, hvalue, hpow, stateOf]

lemma count_bits (hk : k < 8) :
    (k ||| n <<< 8) &&& 7 = k ∧ (k ||| n <<< 8) &&& 255 = k ∧ (k ||| n <<< 8) >>> 8 = n := by
  have hor : k ||| n <<< 8 = n * 256 + k := by
    rw [Nat.lor_comm]
    exact mark_or n 8 k (by omega)
  have h7 : (n * 256 + k) &&& 7 = (n * 256 + k) % 8 := Nat.and_two_pow_sub_one_eq_mod _ 3
  have h255 : (n * 256 + k) &&& 255 = (n * 256 + k) % 256 := Nat.and_two_pow_sub_one_eq_mod _ 8
  have hshift : (n * 256 + k) >>> 8 = (n * 256 + k) / 256 := Nat.shiftRight_eq_div_pow _ 8
  rw [hor, h7, h255, hshift]
  omega

lemma Cut.unpackBytes_eq (h : Cut c t) : unpackBytes (stateOf c t.length) = .ok t := by
  obtain ⟨htwo, hsix, hlead⟩ := h.lead
  have hpos := h.pos
  have hshort := h.short
  obtain ⟨-, h255, hshift⟩ := count_bits (k := t.length) (n := stepOf c.toNat) (by omega)
  have hmask : load inmask (stepOf c.toNat - 2) = .ok (leadByte (stepOf c.toNat)) := by
    have : ∀ n < 7, 2 ≤ n → load inmask (n - 2) = .ok (leadByte n) := by decide +kernel
    exact this _ (by omega) htwo
  have hpow : 64 ^ (stepOf c.toNat - 1) =
      64 ^ (stepOf c.toNat - t.length) * 64 ^ (t.length - 1) := by
    rw [← Nat.pow_add]
    congr 1
    omega
  have hcancel (x k : ℕ) : x * 64 ^ k / 64 ^ k = x := Nat.mul_div_cancel x (by positivity)
  unfold unpackBytes stateOf
  dsimp only
  rw [h255, hshift, hmask, ok_bind, unpackTrail_eq, tails_take _ (by omega), List.append_nil,
    show stepOf c.toNat - 1 - (t.length - 1) = stepOf c.toNat - t.length by omega, hcancel, hpow,
    ← Nat.div_div_eq_div_mul, hcancel, Nat.div_div_eq_div_mul, ← hpow]
  exact congrArg Except.ok h.shape.symm

end

/-- The state between two pieces when `t` has been seen of the characters `cs` to come. -/
def Waiting (state : MbState) (t : List UInt8) (cs : List UInt32) : Prop :=
  t = [] ∧ state.count = 0 ∨
    ∃ c rest, cs = c :: rest ∧ Cut c t ∧ state = stateOf c t.length

theorem exists_cut (hcs : ∀ c ∈ cs, Plain c) (h : x ++ y = cs.flatMap encode) :
    ∃ done left t, cs = done ++ left ∧ x = done.flatMap encode ++ t ∧
      t ++ y = left.flatMap encode ∧ (t = [] ∨ ∃ c rest, left = c :: rest ∧ Cut c t) := by
  induction cs generalizing x with
  | nil =>
    obtain ⟨rfl, rfl⟩ := List.append_eq_nil_iff.mp h
    exact ⟨[], [], [], rfl, rfl, rfl, .inl rfl⟩
  | cons c cs ih =>
    rw [List.flatMap_cons] at h
    rcases List.append_eq_append_iff.mp h with ⟨u, hu, hy⟩ | ⟨x', rfl, hx'⟩
    · -- the piece ends inside the character, or at one of its ends
      by_cases hx : x = []
      · subst hx
        exact ⟨[], c :: cs, [], rfl, rfl, by simpa using h, .inl rfl⟩
      by_cases hu' : u = []
      · subst hu'
        exact ⟨[c], cs, [], rfl, by simpa using hu.symm, by simpa using hy, .inl rfl⟩
      · refine ⟨[], c :: cs, x, rfl, rfl, ?_, .inr ⟨c, cs, rfl, ?_⟩⟩
        · simp [h]
        · exact cut_of_encode (hcs c (by simp)) hu hx hu'
    · obtain ⟨done, left, t, rfl, rfl, hleft, hcut⟩ :=
        ih (fun c' hc' => hcs c' (by simp [hc'])) hx'.symm
      exact ⟨c :: done, left, t, rfl, by simp, hleft, hcut⟩

/-- A call has used its input up, and the state stands for the cut character, if any. -/
def Used (cs : List UInt32) (y : List UInt8) (output : List UInt32) (room : ℕ) (r : Call) : Prop :=
  ∃ done left t, cs = done ++ left ∧ r.input = [] ∧ r.output = output ++ done ∧
    r.room = room - 4 * done.length ∧ Waiting r.state t left ∧ t ++ y = left.flatMap encode

section
variable {ignoreErrors : Bool} {cs : List UInt32} {x y t : List UInt8} {state : MbState} {room : ℕ}
  {output : List UInt32} {status : Status}

lemma transformRest_returns (hcs : ∀ c ∈ cs, Plain c) (h : x ++ y = cs.flatMap encode)
    (hroom : 4 * cs.length ≤ room) (hstate : state.count = 0) :
    Returns (transformRest ignoreErrors true ⟨status, x, output, room, state⟩)
      (Used cs y output room) := by
  obtain ⟨done, left, t, rfl, rfl, hleft, hcut⟩ := exists_cut hcs h
  rw [List.length_append] at hroom
  have hfit : utf8Internal.unit * (done.flatMap fun c => [c]).length ≤ room := by
    rw [List.flatMap_singleton', show utf8Internal.unit = 4 from rfl]
    omega
  have hdone : ∀ c ∈ done, Plain c := fun c hc => hcs c (by simp [hc])
  have hloop : loop utf8Internal ignoreErrors
      ⟨done.flatMap encode ++ t, [], room, (), 0, .emptyInput⟩ =
      loop utf8Internal ignoreErrors ⟨t, done, room - 4 * done.length, (), 0, .emptyInput⟩ := by
    rw [codes_utf8Internal.loop_append hdone rfl hfit]
    simp [show utf8Internal.unit = 4 from rfl]
  unfold transformRest convert
  rw [hloop]
  rcases hcut with rfl | ⟨c, rest, rfl, hc⟩
  · exact returns_ok ⟨done, left, [], rfl, rfl, rfl, rfl, .inl ⟨rfl, hstate⟩, hleft⟩
  have hstop : loop utf8Internal ignoreErrors
      ⟨t, done, room - 4 * done.length, (), 0, .emptyInput⟩ =
      .ok ⟨t, done, room - 4 * done.length, (), 0, .incompleteInput⟩ := by
    refine loop_stop (List.ne_nil_of_length_pos hc.pos) hc.pos ?_ ?_
    · show 4 ≤ room - 4 * done.length
      simp at hroom
      omega
    · exact congrArg Except.ok hc.incomplete
  rw [hstop, ok_bind, if_pos ⟨rfl, rfl⟩, hc.storeRest_eq, ok_bind]
  exact returns_ok ⟨done, c :: rest, t, rfl, rfl, rfl, rfl, .inr ⟨c, rest, rfl, hc, rfl⟩, hleft⟩

theorem Cut.bytebuf_eq (hc : Cut c t) :
    t ++ b :: rest.take (5 - t.length) = t ++ (b :: rest).take (6 - t.length) := by
  have hsix := hc.lead.2.1
  have hshort := hc.short
  simp [show 6 - t.length = 5 - t.length + 1 by omega]

theorem Cut.single_found (hc : Cut c t) (hx : x ≠ []) (hroom : 4 ≤ room)
    (h : t ++ x = encode c ++ rest) : single ignoreErrors (stateOf c t.length) x room =
      .ok ⟨.ok, rest, [c], room - 4, { stateOf c t.length with count := 0 }⟩ := by
  have hsix := hc.lead.2.1
  have hshort := hc.short
  have hlen : (encode c).length = stepOf c.toNat := by
    rw [length_encode hc.plain.1, if_neg (by have := hc.long; omega)]
  obtain ⟨b, xs, rfl⟩ := List.exists_cons_of_ne_nil hx
  have hbuf : ∃ more, t ++ b :: xs.take (5 - t.length) = encode c ++ more := by
    refine ⟨rest.take (6 - stepOf c.toNat), ?_⟩
    have htake := congrArg (List.take 6) h
    rw [List.take_append, List.take_append, hlen, List.take_of_length_le (by omega : t.length ≤ 6),
      List.take_of_length_le (by omega : (encode c).length ≤ 6)] at htake
    rw [hc.bytebuf_eq, htake]
  obtain ⟨more, hmore⟩ := hbuf
  have hbody : utf8InternalBody (encode c ++ more) = .emit (encode c).length [c] () :=
    Except.ok.inj (codes_utf8Internal.emits hc.plain (le_refl 4))
  have hdrop : (b :: xs).drop (stepOf c.toNat - t.length) = rest := by
    have hd := congrArg (List.drop (stepOf c.toNat)) h
    rw [List.drop_append, List.drop_eq_nil_of_le (by omega), List.nil_append, ← hlen,
      List.drop_left, hlen] at hd
    exact hd
  have h7 : (stateOf c t.length).count &&& 7 = t.length :=
    (count_bits (k := t.length) (n := stepOf c.toNat) (by omega)).1
  rw [single, hc.unpackBytes_eq, ok_bind, if_neg (by omega)]
  dsimp only
  rw [if_pos (by omega), hmore, singleBody, hbody]
  dsimp only
  rw [singleFound, h7, hlen, ensure, if_pos (by omega), ok_bind, hdrop]
  rfl

theorem Cut.single_incomplete (hc : Cut c t) (hx : x ≠ []) (hroom : 4 ≤ room)
    (hcut : Cut c (t ++ x)) : single ignoreErrors (stateOf c t.length) x room =
      .ok ⟨.incompleteInput, [], [], room, stateOf c (t ++ x).length⟩ := by
  have hsix := hc.lead.2.1
  have hshort := hcut.short
  rw [List.length_append] at hshort
  obtain ⟨b, xs, rfl⟩ := List.exists_cons_of_ne_nil hx
  have hbuf : t ++ b :: xs.take (5 - t.length) = t ++ b :: xs := by
    rw [hc.bytebuf_eq, List.take_of_length_le (by omega)]
  have h7 : (stateOf c t.length).count &&& 7 = t.length :=
    (count_bits (k := t.length) (n := stepOf c.toNat) (by omega)).1
  have hdrop : (b :: xs).drop ((t ++ b :: xs).length - t.length) = [] := by
    simp
  have hne : (t ++ b :: xs).length ≠ 6 := by
    rw [List.length_append]
    omega
  rw [single, hc.unpackBytes_eq, ok_bind, if_neg (by omega)]
  dsimp only
  rw [if_pos (by omega), hbuf, singleBody, hcut.incomplete]
  rw [ensure, if_pos hne, ok_bind, h7, hdrop, hcut.storeRest_eq, ok_bind]

lemma transform_returns (hcs : ∀ c ∈ cs, Plain c) (hwait : Waiting state t cs)
    (h : t ++ (x ++ y) = cs.flatMap encode) (hx : x ≠ []) (hroom : 4 * cs.length ≤ room) :
    Returns (transform ignoreErrors true state x room) (Used cs y [] room) := by
  rcases hwait with ⟨rfl, hstate⟩ | ⟨c, rest, rfl, hc, rfl⟩
  · rw [transform, if_neg (by simp [hstate])]
    exact transformRest_returns hcs h hroom hstate
  have hsix := hc.lead.2.1
  have hshort := hc.short
  have hpos := hc.pos
  have h7 : (stateOf c t.length).count &&& 7 = t.length :=
    (count_bits (k := t.length) (n := stepOf c.toNat) (by omega)).1
  rw [List.length_cons] at hroom
  rw [transform, if_pos ⟨rfl, by omega⟩]
  rw [List.flatMap_cons, ← List.append_assoc] at h
  have hrest : ∀ c' ∈ rest, Plain c' := fun c' hc' => hcs c' (by simp [hc'])
  have hfound {x' : List UInt8} (hx' : t ++ x = encode c ++ x')
      (hy : x' ++ y = rest.flatMap encode) :
      Returns (single ignoreErrors (stateOf c t.length) x room >>= fun r =>
        if r.status = .ok then transformRest ignoreErrors true r else .ok r)
        (Used (c :: rest) y [] room) := by
    rw [hc.single_found hx (by omega) hx', ok_bind, if_pos rfl]
    refine (transformRest_returns hrest hy (by omega) rfl).mono ?_
    rintro r ⟨done, left, t', rfl, hin, hout, hr, hw, hl⟩
    refine ⟨c :: done, left, t', rfl, hin, hout, ?_, hw, hl⟩
    simp
    omega
  rcases List.append_eq_append_iff.mp h with ⟨u, hu, hy⟩ | ⟨x', hx', hy⟩
  · by_cases hnil : u = []
    · subst hnil
      refine hfound (?_ : t ++ x = encode c ++ []) (by simpa using hy)
      simp [hu]
    have hcut : Cut c (t ++ x) :=
      cut_of_encode hc.plain hu (by simp [hx]) hnil
    rw [hc.single_incomplete hx (by omega) hcut, ok_bind, if_neg (by simp)]
    refine returns_ok ⟨[], c :: rest, t ++ x, rfl, rfl, rfl, rfl,
      .inr ⟨c, rest, rfl, hcut, rfl⟩, ?_⟩
    simp [h]
  · exact hfound hx' hy.symm

def stateAfter (state : MbState) (calls : List Call) : MbState :=
  (calls.getLast?.map Call.state).getD state

lemma feed_returns (hpieces : ∀ piece ∈ pieces, piece ≠ [])
    (hcs : ∀ c ∈ cs, Plain c) (hwait : Waiting state t cs)
    (h : t ++ pieces.flatten = cs.flatMap encode) (hroom : 4 * cs.length ≤ room) :
    Returns (feed ignoreErrors state room pieces) fun calls =>
      (∀ c ∈ calls, c.input = []) ∧ calls.flatMap Call.output = cs ∧
        (stateAfter state calls).count = 0 := by
  induction pieces generalizing cs state t room with
  | nil =>
    rw [List.flatten_nil, List.append_nil] at h
    rcases hwait with ⟨rfl, hstate⟩ | ⟨c, rest, rfl, hc, -⟩
    · obtain rfl : cs = [] := by
        cases cs with
        | nil => rfl
        | cons c cs => exact absurd (List.append_eq_nil_iff.mp h.symm).1 (encode_ne_nil c)
      exact returns_ok ⟨by simp, rfl, hstate⟩
    -- nothing is missing any more of a character that is still cut
    have hlen := congrArg List.length h
    have hshort := hc.short
    rw [List.flatMap_cons, List.length_append, length_encode hc.plain.1,
      if_neg (by have := hc.long; omega)] at hlen
    omega
  | cons piece pieces ih =>
    refine (transform_returns hcs hwait h (hpieces piece (by simp)) hroom).bind ?_
    rintro r ⟨done, left, t', rfl, hin, hout, hr, hwait', hleft⟩
    have hleft' : ∀ c ∈ left, Plain c := fun c hc => hcs c (by simp [hc])
    rw [List.length_append] at hroom
    refine (ih (fun p hp => hpieces p (by simp [hp])) hleft' hwait' hleft (by omega)).bind ?_
    rintro calls ⟨hinputs, houtputs, hstate⟩
    refine returns_ok ⟨?_, ?_, ?_⟩
    · intro c hc
      rcases List.mem_cons.mp hc with rfl | hc
      · exact hin
      · exact hinputs c hc
    · simp [houtputs, hout]
    · cases calls with
      | nil => exact hstate
      | cons c calls =>
        rwa [stateAfter, List.getLast?_cons_cons]

end

theorem transform_whole (h : transform ignoreErrors true ⟨0, wch⟩ bytes room = .ok whole)
    (hempty : whole.status = .emptyInput) :
    ∃ r, convert utf8Internal ignoreErrors () bytes room = .ok r ∧ r.result = .emptyInput ∧
      r.output = whole.output := by
  rw [transform, if_neg (by simp), transformRest] at h
  obtain ⟨r, hr, -⟩ := utf8Internal_total ignoreErrors bytes room
  rw [hr, ok_bind] at h
  refine ⟨r, hr, ?_⟩
  by_cases hinc : r.result = .incompleteInput
  · rw [if_pos ⟨rfl, hinc⟩] at h
    cases hstore : storeRest r.input with
    | error e =>
      rw [hstore] at h
      cases h
    | ok state =>
      rw [hstore, ok_bind] at h
      cases h
      cases hinc.symm.trans hempty
  · rw [if_neg (fun hboth => hinc hboth.2)] at h
    cases h
    exact ⟨hempty, rfl⟩

/-- Bytes that one call accepts give the same characters however they are cut into
pieces; every call uses up its piece and the state is cleared in the end. -/
theorem feed_cut_independent (ignoreErrors : Bool) (wch : ℕ) (bytes : List UInt8) (room : ℕ)
    (whole : Call) (hwhole : transform ignoreErrors true ⟨0, wch⟩ bytes room = .ok whole)
    (hempty : whole.status = .emptyInput) (pieces : List (List UInt8))
    (hne : ∀ piece ∈ pieces, piece ≠ []) (hcut : pieces.flatten = bytes) :
    Returns (feed ignoreErrors ⟨0, wch⟩ room pieces) fun calls =>
      (∀ c ∈ calls, c.input = []) ∧ calls.flatMap Call.output = whole.output ∧
        (stateAfter ⟨0, wch⟩ calls).count = 0 := by
  obtain ⟨r, hr, hresult, hout⟩ := transform_whole hwhole hempty
  obtain ⟨cs, hcs, hin, hcs'⟩ := reads_utf8Internal.loop_inv hr hresult
  have hroom := loop_room hr
  rw [List.nil_append, List.flatMap_singleton'] at hcs'
  rw [hcs', show utf8Internal.unit = 4 from rfl, List.length_nil, Nat.mul_zero, Nat.add_zero]
    at hroom
  rw [← hout, hcs']
  refine feed_returns hne hcs (t := []) (.inl ⟨rfl, rfl⟩) ?_ ?_
  · rwa [List.nil_append, hcut]
  · dsimp only at hroom
    omega

/-- The euro sign, cut behind each of its bytes. -/
theorem feed_euro : Returns (feed false ⟨0, 0⟩ 8 [[0xe2], [0x82], [0xac, 0x41]]) fun calls =>
      (∀ c ∈ calls, c.input = []) ∧ calls.flatMap Call.output = [0x20ac, 0x41] ∧
        (stateAfter ⟨0, 0⟩ calls).count = 0 :=
  feed_cut_independent false 0 [0xe2, 0x82, 0xac, 0x41] 8
    ⟨.emptyInput, [], [0x20ac, 0x41], 0, ⟨0, 0⟩⟩ (by decide +kernel) rfl
    [[0xe2], [0x82], [0xac, 0x41]] (by decide) rfl

end Eglibc.Utf8
