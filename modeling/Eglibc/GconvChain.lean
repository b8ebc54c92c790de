import Eglibc.Gconv

/-!
# A conversion step in front of another

The conversion function of `iconv/skeleton.c` for a step that is not the last, has no
shift states and is called without `consume_incomplete`. When the next step stops inside
the intermediate buffer, the step is run again up to there.
-/
namespace Eglibc.Gconv
open Checked

/-- The function of the next step: from its data and the contents of the intermediate
buffer to its status, how much of the buffer it has taken, and its data. -/
abbrev Next (β ν : Type) := ν → List β → Run (Status × ℕ × ν)

/-- The variables of the outer loop: the input left, the data of the next step and the
invocation counter of this one. -/
structure Round (α ν : Type) where
  input : List α
  next : ν
  invocations : ℕ

variable {α β ν : Type}

/-- Undo the conversion up to the error point: run the loop again with the output ending
where the next step stopped. -/
def rerun (c : Converter Unit α β) (ignoreErrors : Bool) (input : List α) (taken : ℕ) :
    Run (List α) := do
  let r ← convert c ignoreErrors () input (c.unit * taken)
  ensure (r.output.length = taken)
  ensure (r.result = .fullOutput)
  .ok r.input

def proceed (status : Status) (s : Round α ν) : Round α ν ⊕ Status × Round α ν :=
  if status = .ok then .inl s else .inr (status, s)

def answered (c : Converter Unit α β) (ignoreErrors : Bool) (s : Round α ν) (r : Loop Unit α β)
    (answer : Status × ℕ × ν) : Run (Round α ν ⊕ Status × Round α ν) :=
  if answer.1 ≠ .emptyInput then
    if answer.2.1 ≠ r.output.length then do
      let input ← rerun c ignoreErrors s.input answer.2.1
      -- the round does not count when nothing was consumed
      let invocations := if answer.2.1 = 0 then s.invocations else s.invocations + 1
      .ok (proceed answer.1 ⟨input, answer.2.2, invocations⟩)
    else .ok (proceed answer.1 ⟨r.input, answer.2.2, s.invocations + 1⟩)
  else
    let status := if r.result = .fullOutput then .ok else r.result
    .ok (proceed status ⟨r.input, answer.2.2, s.invocations + 1⟩)

def roundBody (c : Converter Unit α β) (ignoreErrors : Bool) (size : ℕ) (next : Next β ν)
    (s : Round α ν) : Run (Round α ν ⊕ Status × Round α ν) := do
  let r ← convert c ignoreErrors () s.input size
  if r.output.length = 0 then .ok (proceed r.result ⟨r.input, s.next, s.invocations + 1⟩)
  else do
    let answer ← next s.next r.output
    answered c ignoreErrors s r answer

def chained (c : Converter Unit α β) (ignoreErrors : Bool) (size : ℕ) (next : Next β ν)
    (s : Round α ν) : Run (Status × Round α ν) :=
  iterate (roundBody c ignoreErrors size next) (s.input.length + 1) s

/-- What is asked of the next step: it takes the characters it is given up to one that
gets stuck. `Holds d ws` says that `d` is its data once it has been given `ws`. -/
structure NextSpec (valid : β → Prop) (next : Next β ν) (Holds : ν → List β → Prop)
    (Stuck : ν → Prop) : Prop where
  step : ∀ {d before ws}, Holds d before → (∀ w ∈ ws, valid w) → ws ≠ [] →
    Returns (next d ws) fun answer => ∃ done left, ws = done ++ left ∧ answer.2.1 = done.length ∧
      Holds answer.2.2 (before ++ done) ∧ (answer.1 = .emptyInput ∧ left = [] ∨
        answer.1 = .fullOutput ∧ left ≠ [] ∧ Stuck answer.2.2)

section
variable {c : Converter Unit α β} {valid : β → Prop} {code : β → List α} {next : Next β ν}
  {Holds : ν → List β → Prop} {Stuck : ν → Prop} {ignoreErrors : Bool} {size : ℕ}

section
variable (h : Codes c valid code fun w => [w])
include h

lemma Codes.convert_words (ignoreErrors : Bool) (hws : ∀ w ∈ ws, valid w) (room : ℕ) :
    Returns (convert c ignoreErrors () (ws.flatMap code) room) fun r =>
      ∃ done left, ws = done ++ left ∧ r.input = left.flatMap code ∧ r.output = done ∧
        c.unit * done.length ≤ room ∧
        (left = [] ∧ r.result = .emptyInput ∨
          left ≠ [] ∧ r.result = .fullOutput ∧ room < c.unit * (done.length + 1)) := by
  refine (h.loop_valid hws rfl).mono ?_
  rintro r ⟨done, left, rfl, rfl, hfit, hnext⟩
  rw [List.flatMap_singleton'] at hfit
  refine ⟨done, left, rfl, rfl, ?_, hfit, ?_⟩
  · simp
  cases left with
  | nil => exact .inl ⟨rfl, rfl⟩
  | cons w left =>
    refine .inr ⟨List.cons_ne_nil _ _, rfl, ?_⟩
    have hlt := hnext w rfl
    rw [List.flatMap_singleton'] at hlt
    dsimp only at hlt
    rw [List.length_singleton, Nat.mul_one] at hlt
    rw [Nat.mul_add]
    omega

theorem Codes.rerun_eq (ignoreErrors : Bool)
    (hunit : 0 < c.unit) (hws : ∀ w ∈ done ++ left, valid w) (hleft : left ≠ []) :
    rerun c ignoreErrors ((done ++ left).flatMap code) done.length = .ok (left.flatMap code) := by
  obtain ⟨r, hr, done', left', hsplit, hin, hout, hfit, hend⟩ :=
    h.convert_words ignoreErrors hws (c.unit * done.length)
  have hle : done'.length ≤ done.length := Nat.le_of_mul_le_mul_left hfit hunit
  have hlen := congrArg List.length hsplit
  have hpos := List.length_pos_of_ne_nil hleft
  rcases hend with ⟨rfl, -⟩ | ⟨-, hfull, hroom⟩
  · simp at hlen
    omega
  have hlt : done.length < done'.length + 1 := Nat.lt_of_mul_lt_mul_left hroom
  obtain ⟨rfl, rfl⟩ := List.append_inj hsplit (by omega)
  rw [rerun, hr, ok_bind, ensure, if_pos (by rw [hout]), ok_bind, ensure, if_pos hfull, ok_bind,
    hin]

/-- What holds between the rounds of a call that began behind `before` with the
characters `ws`. -/
def Going (valid : β → Prop) (code : β → List α) (Holds : ν → List β → Prop)
    (before ws : List β) (s : Round α ν) : Prop :=
  (∀ w ∈ ws, valid w) ∧
    ∃ done left, ws = done ++ left ∧ s.input = left.flatMap code ∧ Holds s.next (before ++ done)

/-- At the end of the call everything is delivered, or the next step is stuck (or the
intermediate buffer is too small), and the input left is what was not delivered. -/
def Gone (c : Converter Unit α β) (code : β → List α) (Holds : ν → List β → Prop)
    (Stuck : ν → Prop) (size : ℕ) (before ws : List β) (out : Status × Round α ν) : Prop :=
  ∃ done left, ws = done ++ left ∧ out.2.input = left.flatMap code ∧
    Holds out.2.next (before ++ done) ∧ (out.1 = .emptyInput ∧ left = [] ∨
      out.1 = .fullOutput ∧ left ≠ [] ∧ (size < c.unit ∨ Stuck out.2.next))

lemma Codes.flatMap_pos
    (hws : ∀ w ∈ ws, valid w) (hne : ws ≠ []) : 0 < (ws.flatMap code).length := by
  obtain ⟨w, ws, rfl⟩ := List.exists_cons_of_ne_nil hne
  have := List.length_pos_of_ne_nil (h.nonempty (hws w (by simp)))
  simp
  omega

theorem answered_returns (hunit : 0 < c.unit) (hvalid : ∀ w ∈ done ++ (done₁ ++ left₁), valid w)
    (hne : done₁ ≠ []) (hin : s.input = (done₁ ++ left₁).flatMap code)
    (hrin : r.input = left₁.flatMap code) (hrout : r.output = done₁)
    (hend : left₁ = [] ∧ r.result = .emptyInput ∨ left₁ ≠ [] ∧ r.result = .fullOutput)
    (hsplit : done₁ = done₂ ++ left₂)
    (htaken : answer.2.1 = done₂.length) (hholds : Holds answer.2.2 (before ++ done ++ done₂))
    (hcase : answer.1 = .emptyInput ∧ left₂ = [] ∨
      answer.1 = .fullOutput ∧ left₂ ≠ [] ∧ Stuck answer.2.2) :
    Returns (answered c ignoreErrors s r answer)
      (Pass (Going valid code Holds before (done ++ (done₁ ++ left₁)))
        (fun s => s.input.length)
        (Gone c code Holds Stuck size before (done ++ (done₁ ++ left₁))) s) := by
  have hvalid₁ : ∀ w ∈ done₁ ++ left₁, valid w := fun w hw =>
    hvalid w (List.mem_append_right _ hw)
  rw [List.append_assoc] at hholds
  unfold answered
  rcases hcase with ⟨hstatus, rfl⟩ | ⟨hstatus, hleft, hstuck⟩
  · -- the next step has taken everything
    rw [List.append_nil] at hsplit
    subst hsplit
    rw [hstatus, if_neg (by simp)]
    dsimp only
    rcases hend with ⟨rfl, hres⟩ | ⟨-, hres⟩
    · simpa [hres, proceed] using returns_ok ⟨done ++ done₁, [], by simp, hrin, hholds, .inl ⟨rfl, rfl⟩⟩
    rw [hres, if_pos rfl, proceed, if_pos rfl]
    refine returns_ok ⟨⟨hvalid, done ++ done₁, left₁, by simp, hrin, hholds⟩, ?_⟩
    have hpos := h.flatMap_pos (fun w hw => hvalid₁ w (List.mem_append_left _ hw)) hne
    dsimp only
    rw [hrin, hin, List.flatMap_append, List.length_append]
    omega
  -- it has stopped inside the buffer
  subst hsplit
  rw [List.append_assoc] at hvalid₁ hin
  have hleft' : left₂ ++ left₁ ≠ [] := List.append_ne_nil_of_left_ne_nil hleft _
  have hrerun := h.rerun_eq ignoreErrors hunit hvalid₁ hleft'
  have hshort : done₂.length ≠ (done₂ ++ left₂).length := by
    simp
    omega
  rw [hstatus, if_pos (by decide), hrout, htaken, if_pos hshort, hin, hrerun, ok_bind]
  exact returns_ok ⟨done ++ done₂, left₂ ++ left₁, by simp, rfl, hholds,
    .inr ⟨rfl, hleft', .inr hstuck⟩⟩

lemma roundBody_returns (hunit : 0 < c.unit)
    (hnext : NextSpec valid next Holds Stuck) (s : Round α ν)
    (hs : Going valid code Holds before ws s) : Returns (roundBody c ignoreErrors size next s)
      (Pass (Going valid code Holds before ws) (fun s => s.input.length)
        (Gone c code Holds Stuck size before ws) s) := by
  obtain ⟨hvalid, done, left, rfl, hin, hholds⟩ := hs
  have hleft : ∀ w ∈ left, valid w := fun w hw => hvalid w (List.mem_append_right _ hw)
  rw [roundBody, hin]
  apply (h.convert_words ignoreErrors hleft size).bind
  rintro r ⟨done1, left1, rfl, hrin, hrout, hfit, hend⟩
  by_cases hnil : r.output.length = 0
  · -- nothing was converted, so the input is at its end or the buffer is too small
    obtain rfl : done1 = [] := by rwa [hrout, List.length_eq_zero_iff] at hnil
    rw [if_pos hnil]
    rcases hend with ⟨rfl, hres⟩ | ⟨hne, hres, hroom⟩
    · rw [proceed, if_neg (by rw [hres]; decide)]
      exact returns_ok ⟨done, [], rfl, hrin, hholds, .inl ⟨hres, rfl⟩⟩
    · rw [proceed, if_neg (by rw [hres]; decide)]
      rw [List.length_nil, Nat.zero_add, Nat.mul_one] at hroom
      exact returns_ok ⟨done, left1, rfl, hrin, hholds, .inr ⟨hres, hne, .inl hroom⟩⟩
  rw [if_neg hnil]
  have hne : done1 ≠ [] := by
    rintro rfl
    exact hnil (by rw [hrout]; rfl)
  rw [hrout]
  apply (hnext.step hholds (fun w hw => hleft w (List.mem_append_left _ hw)) hne).bind
  rintro answer ⟨done2, left2, hsplit, htaken, hholds2, hcase⟩
  exact answered_returns h hunit hvalid hne hin hrin hrout
    (hend.imp_right fun hfull => ⟨hfull.1, hfull.2.1⟩) hsplit htaken hholds2 hcase

theorem chained_returns (hunit : 0 < c.unit)
    (hnext : NextSpec valid next Holds Stuck) (hws : ∀ w ∈ ws, valid w)
    (hd : Holds d before) (invocations : ℕ) :
    Returns (chained c ignoreErrors size next ⟨ws.flatMap code, d, invocations⟩)
      (Gone c code Holds Stuck size before ws) :=
  iterate_returns (fun s : Round α ν => s.input.length) (roundBody_returns h hunit hnext)
    ⟨hws, [], ws, rfl, rfl, by rwa [List.append_nil]⟩ (Nat.lt_succ_self _)

end

end

end Eglibc.Gconv
