import Eglibc.GconvChain
import Eglibc.Utf8Inverse
import Eglibc.Utf16

/-!
# UTF-8 to UTF-16 in two steps

The step UTF-8 to INTERNAL in front of the encoder of `iconvdata/utf-16.c` as the last
step, and a caller who offers one output buffer after another.
-/
namespace Eglibc.Utf16
open Checked Gconv Utf8

inductive Variant
  | utf16 | utf16le | utf16be
  deriving DecidableEq

/-- What the last step is opened with: the byte order of the host, the variant and
`__internal_use`. -/
structure Target where
  big : Bool
  var : Variant
  internalUse : Bool

/-- The `struct __gconv_step_data` of the last step: what stands in the caller's buffer,
the bytes left in it, the invocation counter and `__GCONV_SWAP`. -/
structure StepData where
  output : List UInt8
  room : ℕ
  invocations : ℕ
  swap : Bool

/-- `BOM`, as `put16u` stores it. -/
def bom (t : Target) : List UInt8 := put16 ⟨t.big, false⟩ 0xfeff

/-- `PREPARE_LOOP` in the direction to UTF-16; nothing when the mark does not fit. -/
def prepare (t : Target) (d : StepData) : Option StepData :=
  if d.invocations = 0 then
    if t.var = .utf16 then
      if t.internalUse then some d
      else if d.room < 2 then none
      else some { d with output := d.output ++ bom t, room := d.room - 2 }
    else if t.var = .utf16le ∧ t.big ∨ t.var = .utf16be ∧ ¬t.big then some { d with swap := true }
    else some d
  else some d

/-- The loop of the last step behind `PREPARE_LOOP`. -/
def lastLoop (t : Target) (ignoreErrors : Bool) (d : StepData) (ws : List UInt32) :
    Run (Status × ℕ × StepData) := do
  let r ← convert (toUtf16 ⟨t.big, d.swap⟩) ignoreErrors () ws d.room
  .ok (r.result, ws.length - r.input.length,
    { d with output := d.output ++ r.output, room := r.room, invocations := d.invocations + 1 })

def lastStep (t : Target) (ignoreErrors : Bool) (d : StepData) (ws : List UInt32) :
    Run (Status × ℕ × StepData) :=
  match prepare t d with
  | none => .ok (.fullOutput, 0, d)
  | some d' => lastLoop t ignoreErrors d' ws

structure Caller where
  input : List UInt8
  data : StepData
  invocations : ℕ
  delivered : List UInt8

/-- One call of the first step with a fresh output buffer of `room` bytes; the
intermediate buffer has `size` bytes. -/
def call (t : Target) (ignoreErrors : Bool) (size : ℕ) (s : Caller) (room : ℕ) : Run Caller := do
  let r ← chained utf8Internal ignoreErrors size (lastStep t ignoreErrors)
    ⟨s.input, { s.data with output := [], room := room }, s.invocations⟩
  .ok ⟨r.2.input, r.2.next, r.2.invocations, s.delivered ++ r.2.next.output⟩

/-- Calls with buffers of these sizes until the input is consumed. -/
def calls (t : Target) (ignoreErrors : Bool) (size : ℕ) : List ℕ → Caller → Run Caller
  | [], s => .ok s
  | room :: rooms, s =>
    if s.input = [] then .ok s
    else do
      let s' ← call t ignoreErrors size s room
      calls t ignoreErrors size rooms s'

def Caller.start (input : List UInt8) : Caller := ⟨input, ⟨[], 0, 0, false⟩, 0, []⟩

def Target.swap (t : Target) : Bool :=
  decide (t.var = .utf16le ∧ t.big = true ∨ t.var = .utf16be ∧ ¬t.big = true)

def Target.order (t : Target) : Order := ⟨t.big, t.swap⟩

def Target.mark (t : Target) : List UInt8 :=
  if t.var = .utf16 ∧ t.internalUse = false then bom t else []

def Target.text (t : Target) (ws : List UInt32) : List UInt8 :=
  t.mark ++ ws.flatMap (code t.order)

lemma length_bom (t : Target) : (bom t).length = 2 := by
  unfold bom put16
  split_ifs <;> rfl

lemma text_append (t : Target) (ws ws' : List UInt32) :
    t.text (ws ++ ws') = t.text ws ++ ws'.flatMap (code t.order) := by
  simp [Target.text]

/-- The data of the last step once the characters `ws` are delivered, of which the caller
has taken `taken` and the rest stands in a buffer of `size` bytes. -/
structure Holding (t : Target) (taken : List UInt8) (size : ℕ) (d : StepData)
    (ws : List UInt32) : Prop where
  swap : d.swap = if d.invocations = 0 then false else t.swap
  total : taken ++ d.output = if d.invocations = 0 then [] else t.text ws
  first : d.invocations = 0 → ws = []
  fits : d.output.length + d.room = size

section
variable {t : Target} {taken : List UInt8} {size : ℕ} {d : StepData} {ws before : List UInt32}
  {ignoreErrors : Bool}

theorem prepare_cases (h : Holding t taken size d before) : (prepare t d = none ∧ d.room < 2) ∨
      ∃ d', prepare t d = some d' ∧ d'.swap = t.swap ∧ d'.invocations = d.invocations ∧
        taken ++ d'.output = t.text before ∧ d'.output.length + d'.room = size := by
  obtain ⟨hswap, htotal, hfirst, hfits⟩ := h
  by_cases hinv : d.invocations = 0
  · rw [if_pos hinv] at hswap htotal
    obtain rfl := hfirst hinv
    unfold prepare Target.swap Target.text Target.mark
    rw [if_pos hinv]
    by_cases hvar : t.var = .utf16
    · by_cases hinternal : t.internalUse = true
      · right
        refine ⟨d, ?_, ?_, rfl, ?_, hfits⟩
        · simp [hvar, hinternal]
        · simp [hswap, hvar]
        · simpa [hinternal] using htotal
      rw [if_pos hvar, if_neg hinternal]
      by_cases hroom : d.room < 2
      · exact .inl ⟨if_pos hroom, hroom⟩
      right
      refine ⟨_, if_neg hroom, ?_, rfl, ?_, ?_⟩
      · simp [hswap, hvar]
      · rw [← List.append_assoc, htotal]
        simp [hvar, hinternal]
      · simp [length_bom]
        omega
    right
    rw [if_neg hvar]
    by_cases hcross : t.var = .utf16le ∧ t.big = true ∨ t.var = .utf16be ∧ ¬t.big = true
    · refine ⟨_, if_pos hcross, (decide_eq_true hcross).symm, rfl, ?_, hfits⟩
      simpa [hvar] using htotal
    · refine ⟨_, if_neg hcross, ?_, rfl, ?_, hfits⟩
      · rw [hswap, decide_eq_false hcross]
      · simpa [hvar] using htotal
  · rw [if_neg hinv] at hswap htotal
    exact .inr ⟨d, if_neg hinv, hswap, rfl, htotal, hfits⟩

theorem lastStep_spec (t : Target) (ignoreErrors : Bool) (taken : List UInt8) (size : ℕ) :
    NextSpec Scalar (lastStep t ignoreErrors) (Holding t taken size) (fun d => d.room < 4) where
  step {d before ws} hd hws hne := by
    unfold lastStep
    rcases prepare_cases hd with ⟨hprep, hroom⟩ | ⟨d', hprep, hswap, hinv, htotal, hfits⟩
    · rw [hprep]
      have hstuck : d.room < 4 := by omega
      exact returns_ok ⟨[], ws, rfl, rfl, by rwa [List.append_nil], .inr ⟨rfl, hne, hstuck⟩⟩
    rw [hprep]
    dsimp only
    unfold lastLoop convert
    have horder : (⟨t.big, d'.swap⟩ : Order) = t.order := by rw [hswap]; rfl
    rw [horder]
    apply ((codes_toUtf16 t.order).loop_valid hws (by simp)).bind
    rintro r ⟨done, left, rfl, rfl, hfit, hnext⟩
    have hunit : (toUtf16 t.order).unit = 1 := rfl
    dsimp only at hfit hnext ⊢
    rw [hunit, Nat.one_mul] at hfit hnext ⊢
    refine returns_ok ⟨done, left, rfl, ?_, ⟨?_, ?_, ?_, ?_⟩, ?_⟩
    · simp
    · simpa using hswap
    · simp [text_append, ← htotal]
    · simp
    · dsimp only
      rw [List.nil_append, List.length_append]
      omega
    · cases left with
      | nil => exact .inl ⟨rfl, rfl⟩
      | cons w left =>
        refine .inr ⟨rfl, List.cons_ne_nil _ _, ?_⟩
        have hlt := hnext w rfl
        rw [length_code] at hlt
        dsimp only
        split_ifs at hlt <;> omega

structure Delivered (t : Target) (cs : List UInt32) (s : Caller) (done left : List UInt32) :
    Prop where
  split : cs = done ++ left
  input : s.input = left.flatMap encode
  data : Holding t s.delivered 0 { s.data with output := [], room := 0 } done

/-- One for a caller to whom the mark may still have to be delivered. -/
def Caller.pending (s : Caller) : ℕ := if s.data.invocations = 0 then 1 else 0

lemma Scalar.plain (h : Scalar w) : Plain w := by
  obtain ⟨hlt, hsur⟩ := h
  refine ⟨?_, hsur⟩
  unfold Accepted
  omega

lemma codes_scalar : Codes utf8Internal Scalar encode (fun w => [w]) where
  nonempty h := codes_utf8Internal.nonempty h.plain
  input_le h := codes_utf8Internal.input_le h.plain
  output_le h := codes_utf8Internal.output_le h.plain
  emits h := codes_utf8Internal.emits h.plain
  stops h := codes_utf8Internal.stops h.plain

theorem call_returns (hcs : ∀ w ∈ cs, Scalar w)
    (hs : Delivered t cs s done left) (hroom : 4 ≤ room) :
    Returns (call t ignoreErrors size s room) fun s' => ∃ done' left',
      Delivered t cs s' done' left' ∧
        (4 ≤ size → left' = [] ∨ left'.length + s'.pending < left.length + s.pending) := by
  obtain ⟨rfl, hinput, hdata⟩ := hs
  have hfresh : Holding t s.delivered room { s.data with output := [], room := room } done :=
    ⟨hdata.swap, hdata.total, hdata.first, Nat.zero_add room⟩
  have hleft : ∀ w ∈ left, Scalar w := fun w hw => hcs w (List.mem_append_right _ hw)
  rw [call, hinput]
  apply (chained_returns codes_scalar (by decide) (lastStep_spec t ignoreErrors s.delivered room)
    hleft hfresh s.invocations).bind
  rintro ⟨status, r⟩ ⟨done1, left1, rfl, hin, hholds, hend⟩
  refine returns_ok ⟨done ++ done1, left1, ⟨by simp, hin, ?_⟩, ?_⟩
  · exact ⟨hholds.swap, by simpa using hholds.total, hholds.first, rfl⟩
  intro hsize
  rcases hend with ⟨-, rfl⟩ | ⟨-, -, hsmall | hstuck⟩
  · exact .inl rfl
  · exact absurd hsmall (Nat.not_lt.mpr hsize)
  · right
    have hfits := hholds.fits
    have htotal := hholds.total
    have hbefore := hdata.total
    rw [List.append_nil] at hbefore
    unfold Caller.pending
    rw [List.length_append]
    by_cases hnil : done1 = []
    · -- less than a character is free in the buffer, so the mark was stored in it
      subst hnil
      have hout : r.next.output ≠ [] := by
        intro h
        rw [h, List.length_nil] at hfits
        omega
      rw [List.append_nil, hbefore] at htotal
      by_cases hinv : s.data.invocations = 0
      · rw [if_pos hinv, List.nil_append] at htotal
        by_cases hinv' : r.next.invocations = 0
        · rw [if_pos hinv'] at htotal
          exact absurd htotal hout
        · simp [hinv', hinv]
      rw [if_neg hinv] at htotal
      by_cases hinv' : r.next.invocations = 0
      · rw [if_pos hinv'] at htotal
        exact absurd (List.append_eq_nil_iff.mp htotal).2 hout
      · rw [if_neg hinv'] at htotal
        exact absurd (List.append_right_eq_self.mp htotal) hout
    have hpos := List.length_pos_of_ne_nil hnil
    have hinv' : r.next.invocations ≠ 0 := by
      intro h
      exact hnil (List.append_eq_nil_iff.mp (hholds.first h)).2
    rw [if_neg hinv']
    omega

lemma calls_returns (hcs : ∀ w ∈ cs, Scalar w) (hrooms : ∀ room ∈ rooms, 4 ≤ room)
    (hs : Delivered t cs s done left) :
    Returns (calls t ignoreErrors size rooms s) fun s' => ∃ done' left',
      Delivered t cs s' done' left' ∧
        (left = [] ∨ 4 ≤ size ∧ left.length + s.pending ≤ rooms.length → left' = []) := by
  induction rooms generalizing s done left with
  | nil =>
    refine returns_ok ⟨done, left, hs, ?_⟩
    rintro (rfl | ⟨-, hlen⟩)
    · rfl
    · rw [List.length_nil] at hlen
      exact List.length_eq_zero_iff.mp (by omega)
  | cons room rooms ih =>
    rw [calls]
    split_ifs with hnil
    · refine returns_ok ⟨done, left, hs, fun _ => ?_⟩
      by_contra hne
      have hleft : ∀ w ∈ left, Scalar w := fun w hw => hcs w (by simp [hs.split, hw])
      have hpos := codes_scalar.flatMap_pos hleft hne
      rw [← hs.input, hnil] at hpos
      exact Nat.lt_irrefl 0 hpos
    apply (call_returns hcs hs (hrooms room (by simp))).bind
    rintro s1 ⟨done1, left1, hs1, hless⟩
    apply (ih (fun r hr => hrooms r (by simp [hr])) hs1).mono
    rintro s2 ⟨done2, left2, hs2, hall⟩
    refine ⟨done2, left2, hs2, ?_⟩
    rintro (rfl | ⟨hsize, hlen⟩)
    · exact absurd hs.input hnil
    · rw [List.length_cons] at hlen
      exact hall ((hless hsize).imp_right fun hlt => ⟨hsize, by omega⟩)

end

/-- The two steps deliver what converting the characters one by one gives. However the
buffers are cut, the asserts of the rerun hold, the input left after the calls is that of
the characters not delivered, and in an intermediate buffer that holds a character the
input is consumed after at most one call for each character and one for the mark. -/
theorem twoSteps_deliver (t : Target) (ignoreErrors : Bool) (size : ℕ) {cs : List UInt32}
    (hcs : ∀ w ∈ cs, Scalar w) {rooms : List ℕ} (hrooms : ∀ room ∈ rooms, 4 ≤ room) :
    Returns (calls t ignoreErrors size rooms (.start (cs.flatMap encode))) fun s =>
      ∃ done left, cs = done ++ left ∧ s.input = left.flatMap encode ∧
        (s.delivered = t.text done ∨ done = [] ∧ s.delivered = []) ∧
        (4 ≤ size → cs.length < rooms.length → left = [] ∧ (cs ≠ [] → s.delivered = t.text cs)) := by
  have hstart : Delivered t cs (.start (cs.flatMap encode)) [] cs :=
    ⟨rfl, rfl, ⟨rfl, rfl, fun _ => rfl, rfl⟩⟩
  apply (calls_returns hcs hrooms hstart).mono
  rintro s ⟨done, left, ⟨rfl, hinput, hdata⟩, hall⟩
  have htotal := hdata.total
  rw [List.append_nil] at htotal
  have hdelivered : s.delivered = t.text done ∨ done = [] ∧ s.delivered = [] := by
    by_cases hinv : s.data.invocations = 0
    · exact .inr ⟨hdata.first hinv, by rw [htotal, if_pos hinv]⟩
    · exact .inl (by rw [htotal, if_neg hinv])
  refine ⟨done, left, rfl, hinput, hdelivered, fun hsize hlen => ?_⟩
  obtain rfl := hall (.inr ⟨hsize, hlen⟩)
  refine ⟨rfl, fun hne => ?_⟩
  rw [List.append_nil] at hne ⊢
  exact hdelivered.resolve_right fun h => hne h.1

/-- A mark, a unit and a pair through buffers of four bytes. -/
theorem twoSteps_deliver_pair :
    (∀ w ∈ ([0x41, 0x1f600] : List UInt32), Scalar w) ∧ (∀ room ∈ [4, 5, 4], 4 ≤ room) ∧
      Returns (calls ⟨false, .utf16, false⟩ false 4 [4, 5, 4]
        (.start ([0x41, 0x1f600].flatMap encode))) fun s =>
          s.delivered = (⟨false, .utf16, false⟩ : Target).text [0x41, 0x1f600] := by
  have hcs : ∀ w ∈ ([0x41, 0x1f600] : List UInt32), Scalar w := by
    simp [Scalar]
  have hrooms : ∀ room ∈ [4, 5, 4], 4 ≤ room := by decide
  refine ⟨hcs, hrooms, (twoSteps_deliver ⟨false, .utf16, false⟩ false 4 hcs hrooms).mono ?_⟩
  rintro s ⟨done, left, -, -, -, hall⟩
  exact (hall (by decide) (by decide)).2 (by decide)

end Eglibc.Utf16
