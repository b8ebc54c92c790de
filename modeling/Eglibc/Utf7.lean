import Eglibc.Gconv

/-!
# UTF-7

The loop bodies `from_utf7_loop` and `to_utf7_loop` of `iconvdata/utf-7.c` and the shift
sequence that is written when a conversion is flushed. A call of `abort` is a failed
assertion.
-/
namespace Eglibc.Utf7
open Checked Gconv

variable {s s' : State} {taken : ℕ} {out : List UInt32}

def directTab : List ℕ :=
  [0x00, 0x26, 0x00, 0x00, 0x81, 0xf3, 0xff, 0x87, 0xfe, 0xff, 0xff, 0x07, 0xfe, 0xff, 0xff, 0x07]

def xdirectTab : List ℕ :=
  [0x00, 0x26, 0x00, 0x00, 0xff, 0xf7, 0xff, 0xff, 0xff, 0xff, 0xff, 0xef, 0xff, 0xff, 0xff, 0x3f]

def xbase64Tab : List ℕ :=
  [0x00, 0x00, 0x00, 0x00, 0x00, 0xa8, 0xff, 0x03, 0xfe, 0xff, 0xff, 0x07, 0xfe, 0xff, 0xff, 0x07]

/-- Membership in a set of ASCII characters that is given by a table of bits. -/
def inTab (tab : List ℕ) (ch : ℕ) : Bool :=
  decide (ch < 128) && (tab.getD (ch >>> 3) 0 >>> (ch &&& 7) &&& 1) == 1

def isdirect : ℕ → Bool := inTab directTab
def isxdirect : ℕ → Bool := inTab xdirectTab
def isxbase64 : ℕ → Bool := inTab xbase64Tab

/-- Converts a value in the range 0..63 to a base64 encoded char. -/
def base64 (i : ℕ) : Run UInt8 :=
  if i < 26 then .ok (UInt8.ofNat (i + 0x41))
  else if i < 52 then .ok (UInt8.ofNat (i - 26 + 0x61))
  else if i < 62 then .ok (UInt8.ofNat (i - 52 + 0x30))
  else if i = 62 then .ok 0x2b
  else if i = 63 then .ok 0x2f
  else .error .assertion

def base64s : List ℕ → Run (List UInt8)
  | [] => .ok []
  | i :: is => do
    let b ← base64 i
    let bs ← base64s is
    .ok (b :: bs)

/-- The `mbstate_t` of the decoder: `shift` above three zero bits, and the pending bits
from the highest one down. -/
structure State where
  count : ℕ
  wch : ℕ
  deriving DecidableEq

def base64Value (ch : ℕ) : Option ℕ :=
  if 0x41 ≤ ch ∧ ch ≤ 0x5a then some (ch - 0x41)
  else if 0x61 ≤ ch ∧ ch ≤ 0x7a then some (ch - 0x61 + 26)
  else if 0x30 ≤ ch ∧ ch ≤ 0x39 then some (ch - 0x30 + 52)
  else if ch = 0x2b then some 62
  else if ch = 0x2f then some 63
  else none

def inactive (s : State) (ch : ℕ) (rest : List UInt8) : Turn State UInt32 :=
  if isxdirect ch then .emit 1 [UInt32.ofNat ch] s
  else if ch = 0x2b then
    match rest with
    | [] => .stop .incompleteInput
    | next :: _ =>
      if next.toNat = 0x2d then .emit 2 [UInt32.ofNat ch] s
      else .emit 1 [] ⟨32 <<< 3, 0⟩
  else .illegal 1 s

def terminate (s : State) (ch : ℕ) : Turn State UInt32 :=
  -- accumulated data or a partial character is invalid
  if s.wch ≠ 0 ∨ s.count >>> 3 ≤ 26 then .illegal 1 { s with count := 0 }
  else .emit (if ch = 0x2d then 1 else 0) [] { s with count := 0 }

/-- Six more bits are in the accumulator, and there is room for more. -/
def gather (s : State) (shift wch : ℕ) : Turn State UInt32 :=
  if shift ≤ 16 ∧ shift > 10 then
    let wc1 := wch >>> 16
    if ¬(0xd800 ≤ wc1 ∧ wc1 < 0xdc00) then
      .emit 1 [UInt32.ofNat wc1] ⟨(shift + 16) <<< 3, wch <<< 16 % 2 ^ 32⟩
    else .emit 1 [] ⟨shift <<< 3, wch⟩
  else if shift ≤ 10 ∧ shift > 4 then
    let wc2 := wch &&& 0xffff
    if ¬(0xdc00 ≤ wc2 ∧ wc2 < 0xe000) then .illegal 1 { s with count := 0 }
    else .emit 1 [] ⟨shift <<< 3, wch⟩
  else .emit 1 [] ⟨shift <<< 3, wch⟩

def pairUp (s : State) (shift i : ℕ) : Run (Turn State UInt32) := do
  let wc1 := s.wch >>> 16
  let wc2 := s.wch &&& 0xffff ||| i >>> (6 - shift)
  ensure (0xd800 ≤ wc1 ∧ wc1 < 0xdc00)
  ensure (0xdc00 ≤ wc2 ∧ wc2 < 0xe000)
  .ok (.emit 1 [UInt32.ofNat (0x10000 + (wc1 - 0xd800) <<< 10 + (wc2 - 0xdc00))]
    ⟨(shift + 26) <<< 3, i <<< shift <<< 26 % 2 ^ 32⟩)

/-- base64 encoding active: add the value of a character to the accumulator. -/
def active (s : State) (i : ℕ) : Run (Turn State UInt32) :=
  let shift := s.count >>> 3
  if shift > 6 then .ok (gather s (shift - 6) (s.wch ||| i <<< (shift - 6) % 2 ^ 32))
  else pairUp s shift i

def fromUtf7Body (s : State) (input : List UInt8) : Run (Turn State UInt32) :=
  match input with
  | [] => .ok (.stop .emptyInput)
  | b :: rest =>
    if s.count >>> 3 = 0 then .ok (inactive s b.toNat rest)
    else
      match base64Value b.toNat with
      | none => .ok (terminate s b.toNat)
      | some i => active s i

def pending (count : ℕ) : ℕ := count >>> 3 &&& 0xfffffffc

def flushBits (count : ℕ) : Run (List UInt8) :=
  if 0x10 ≤ count &&& 0x18 then base64s [pending count] else .ok []

def surrogates (ch : ℕ) : ℕ :=
  (0xd800 + (ch - 0x10000) >>> 10) <<< 16 ||| (0xdc00 + (ch - 0x10000 &&& 0x3ff))

def inactiveCount (ch : ℕ) : Option ℕ :=
  if ch = 0x2b then some 2
  else if ch < 0x10000 then some 3
  else if ch < 0x110000 then some 6
  else none

def activeCount (count ch : ℕ) : Option ℕ :=
  if ch < 0x10000 then some (if 0x10 ≤ count &&& 0x18 then 3 else 2)
  else if ch < 0x110000 then some (if 0x18 ≤ count &&& 0x18 then 6 else 5)
  else none

def activate (count ch : ℕ) : Run (List UInt8 × ℕ) :=
  if ch = 0x2b then .ok ([0x2b, 0x2d], count)
  else if ch < 0x10000 then do
    let bs ← base64s [ch >>> 10, ch >>> 4 &&& 0x3f]
    .ok (0x2b :: bs, (ch &&& 15) <<< 5 ||| 3 <<< 3)
  else if ch < 0x110000 then do
    let w := surrogates ch
    let bs ← base64s [w >>> 26, w >>> 20 &&& 0x3f, w >>> 14 &&& 0x3f, w >>> 8 &&& 0x3f,
      w >>> 2 &&& 0x3f]
    .ok (0x2b :: bs, (w &&& 3) <<< 7 ||| 2 <<< 3)
  else .error .assertion

def addUnit (count ch : ℕ) : Run (List UInt8 × ℕ) :=
  match count >>> 3 &&& 3 with
  | 1 => do
    let bs ← base64s [ch >>> 10, ch >>> 4 &&& 0x3f]
    .ok (bs, (ch &&& 15) <<< 5 ||| 3 <<< 3)
  | 2 => do
    let bs ← base64s [pending count ||| ch >>> 12, ch >>> 6 &&& 0x3f, ch &&& 0x3f]
    .ok (bs, 1 <<< 3)
  | 3 => do
    let bs ← base64s [pending count ||| ch >>> 14, ch >>> 8 &&& 0x3f, ch >>> 2 &&& 0x3f]
    .ok (bs, (ch &&& 3) <<< 7 ||| 2 <<< 3)
  | _ => .error .assertion

def addPair (count w : ℕ) : Run (List UInt8 × ℕ) :=
  match count >>> 3 &&& 3 with
  | 1 => do
    let bs ← base64s [w >>> 26, w >>> 20 &&& 0x3f, w >>> 14 &&& 0x3f, w >>> 8 &&& 0x3f,
      w >>> 2 &&& 0x3f]
    .ok (bs, (w &&& 3) <<< 7 ||| 2 <<< 3)
  | 2 => do
    let bs ← base64s [pending count ||| w >>> 28, w >>> 22 &&& 0x3f, w >>> 16 &&& 0x3f,
      w >>> 10 &&& 0x3f, w >>> 4 &&& 0x3f]
    .ok (bs, (w &&& 15) <<< 5 ||| 3 <<< 3)
  | 3 => do
    let bs ← base64s [pending count ||| w >>> 30, w >>> 24 &&& 0x3f, w >>> 18 &&& 0x3f,
      w >>> 12 &&& 0x3f, w >>> 6 &&& 0x3f, w &&& 0x3f]
    .ok (bs, 1 <<< 3)
  | _ => .error .assertion

def addChar (count ch : ℕ) : Run (List UInt8 × ℕ) :=
  if ch < 0x10000 then addUnit count ch
  else if ch < 0x110000 then addPair count (surrogates ch)
  else .error .assertion

def storeOut (asked : Option ℕ) (room count : ℕ) (out : Run (List UInt8 × ℕ)) :
    Run (Turn ℕ UInt8) :=
  match asked with
  | none => .ok (.illegal 1 count)
  | some n =>
    if room < n then .ok (.stop .fullOutput)
    else do
      let r ← out
      .ok (.emit 1 r.1 r.2)

def deactivate (count ch : ℕ) : Run (List UInt8 × ℕ) := do
  let bs ← flushBits count
  .ok (bs ++ (if isxbase64 ch then [0x2d] else []) ++ [UInt8.ofNat ch], 0)

def deactivateCount (count ch : ℕ) : ℕ :=
  (if 0x10 ≤ count &&& 0x18 then 1 else 0) + (if isxbase64 ch then 1 else 0) + 1

def toUtf7Body (count : ℕ) (input : List UInt32) (room : ℕ) : Run (Turn ℕ UInt8) :=
  match input with
  | [] => .ok (.stop .emptyInput)
  | w :: _ =>
    if count &&& 0x18 = 0 then
      if isdirect w.toNat then .ok (.emit 1 [UInt8.ofNat w.toNat] count)
      else storeOut (inactiveCount w.toNat) room count (activate count w.toNat)
    else if isdirect w.toNat then
      storeOut (some (deactivateCount count w.toNat)) room count (deactivate count w.toNat)
    else storeOut (activeCount count w.toNat) room count (addChar count w.toNat)

/-- `EMIT_SHIFT_TO_INIT` in the direction to UTF-7. -/
def emitShiftToInit (count room : ℕ) : Run (Status × List UInt8 × ℕ) :=
  if count &&& 0x18 ≠ 0 then
    if room < (if 0x10 ≤ count &&& 0x18 then 1 else 0) + 1 then .ok (.fullOutput, [], count)
    else do
      let bs ← flushBits count
      .ok (.ok, bs ++ [0x2d], 0)
  else .ok (.ok, [], 0)

lemma inactive_emit (h : inactive s ch rest = .emit taken out s') : 0 < taken := by
  unfold inactive at h
  split_ifs at h
  · cases h
    decide
  cases rest with
  | nil => cases h
  | cons next rest =>
    dsimp only at h
    split_ifs at h
    · cases h
      decide
    · cases h
      decide

lemma gather_emit (h : gather s shift wch = .emit taken out s') : taken = 1 := by
  unfold gather at h
  dsimp only at h
  split_ifs at h
  all_goals
    cases h
    try rfl

lemma active_emit (h : active s i = .ok (.emit taken out s')) : taken = 1 := by
  unfold active at h
  dsimp only at h
  split_ifs at h
  · exact gather_emit (Except.ok.inj h)
  unfold pairUp ensure at h
  dsimp only at h
  split_ifs at h
  · cases h
    rfl
  all_goals cases h

lemma fromUtf7Body_illegal (h : fromUtf7Body s input = .ok (.illegal taken s')) : taken = 1 := by
  cases input with
  | nil => cases h
  | cons b rest =>
    unfold fromUtf7Body at h
    dsimp only at h
    split_ifs at h
    · have h := Except.ok.inj h
      unfold inactive at h
      split_ifs at h
      · cases rest with
        | nil => cases h
        | cons next rest =>
          dsimp only at h
          split_ifs at h
      · cases h
        rfl
    cases hvalue : base64Value b.toNat with
    | none =>
      rw [hvalue] at h
      have h := Except.ok.inj h
      unfold terminate at h
      split_ifs at h
      cases h
      rfl
    | some i =>
      rw [hvalue] at h
      unfold active at h
      dsimp only at h
      split_ifs at h
      · have h := Except.ok.inj h
        unfold gather at h
        dsimp only at h
        split_ifs at h
        cases h
        rfl
      unfold pairUp ensure at h
      dsimp only at h
      split_ifs at h
      all_goals cases h

theorem fromUtf7Body_emit (h : fromUtf7Body s input = .ok (.emit taken out s')) :
    0 < taken ∨ s.count >>> 3 ≠ 0 ∧ s'.count = 0 := by
  cases input with
  | nil => cases h
  | cons b rest =>
    unfold fromUtf7Body at h
    dsimp only at h
    split_ifs at h with hcount
    · exact .inl (inactive_emit (Except.ok.inj h))
    cases hvalue : base64Value b.toNat with
    | none =>
      rw [hvalue] at h
      have h := Except.ok.inj h
      unfold terminate at h
      split_ifs at h
      · cases h
        exact .inr ⟨hcount, rfl⟩
      · cases h
        exact .inr ⟨hcount, rfl⟩
    | some i =>
      rw [hvalue] at h
      rw [active_emit h]
      exact .inl Nat.one_pos

def fromUtf7 : Converter State UInt8 UInt32 where
  minInput := 1
  minOutput := 4
  unit := 4
  body s input _ := fromUtf7Body s input
  rank s := if s.count >>> 3 = 0 then 0 else 1
  rank_le s := by split_ifs <;> decide
  advances := by
    intro s input room taken out s' h
    rcases fromUtf7Body_emit h with htaken | ⟨hcount, hcount'⟩
    · exact .inl htaken
    · right
      rw [if_neg hcount, hcount']
      decide
  skips := by
    intro s input room taken s' h
    rw [fromUtf7Body_illegal h]
    exact Nat.one_pos

theorem storeOut_cases {asked : Option ℕ} {room count : ℕ} {out : Run (List UInt8 × ℕ)}
    {turn : Turn ℕ UInt8} (h : storeOut asked room count out = .ok turn) :
    turn = .illegal 1 count ∨ turn = .stop .fullOutput ∨
      ∃ r, out = .ok r ∧ turn = .emit 1 r.1 r.2 := by
  cases asked with
  | none => exact .inl (Except.ok.inj h).symm
  | some n =>
    unfold storeOut at h
    dsimp only at h
    split_ifs at h
    · exact .inr (.inl (Except.ok.inj h).symm)
    · cases out with
      | error e => cases h
      | ok r => exact .inr (.inr ⟨r, rfl, (Except.ok.inj h).symm⟩)

theorem toUtf7Body_cases {count room : ℕ} {input : List UInt32} {turn : Turn ℕ UInt8}
    (h : toUtf7Body count input room = .ok turn) :
    (∃ result, turn = .stop result) ∨ turn = .illegal 1 count ∨
      ∃ out count', turn = .emit 1 out count' := by
  have hstore {asked : Option ℕ} {out : Run (List UInt8 × ℕ)}
      (h : storeOut asked room count out = .ok turn) : (∃ result, turn = .stop result) ∨
      turn = .illegal 1 count ∨ ∃ out count', turn = .emit 1 out count' := by
    rcases storeOut_cases h with hturn | hturn | ⟨r, -, hturn⟩
    · exact .inr (.inl hturn)
    · exact .inl ⟨_, hturn⟩
    · exact .inr (.inr ⟨_, _, hturn⟩)
  cases input with
  | nil => exact .inl ⟨_, (Except.ok.inj h).symm⟩
  | cons w rest =>
    unfold toUtf7Body at h
    dsimp only at h
    split_ifs at h
    · exact .inr (.inr ⟨_, _, (Except.ok.inj h).symm⟩)
    · exact hstore h
    · exact hstore h
    · exact hstore h

def toUtf7 : Converter ℕ UInt32 UInt8 where
  minInput := 1
  minOutput := 1
  unit := 1
  body := toUtf7Body
  rank _ := 0
  rank_le _ := Nat.zero_le _
  advances := by
    intro count input room taken out count' h
    rcases toUtf7Body_cases h with ⟨result, hturn⟩ | hturn | ⟨out, count', hturn⟩
    all_goals cases hturn
    exact .inl Nat.one_pos
  skips := by
    intro count input room taken count' h
    rcases toUtf7Body_cases h with ⟨result, hturn⟩ | hturn | ⟨out, count', hturn⟩
    all_goals cases hturn
    exact Nat.one_pos

end Eglibc.Utf7
