import Eglibc.Checked

/-!
# Conversion loops

`iconv/loop.c`: the frame around the body of a character conversion. The body and the
constants of the frame are the fields of a `Converter`; a buffer is the list of what
stands between its two pointers. There are no transliteration functions.
-/
namespace Eglibc.Gconv
open Checked

inductive Status
  | ok
  | emptyInput
  | fullOutput
  | illegalInput
  | incompleteInput
  deriving DecidableEq, Repr

/-- What one pass through a loop body comes to: input taken and output stored; an
ill-formed sequence, with the input to skip when errors are ignored; or a `break`. -/
inductive Turn (σ β : Type)
  | emit (taken : ℕ) (out : List β) (state : σ)
  | illegal (taken : ℕ) (state : σ)
  | stop (result : Status)
  deriving DecidableEq, Repr

/-- A loop body with the macros around it. `minInput` counts input elements and
`minOutput` bytes of the output, of which an element takes `unit`. A pass takes input or
lowers the rank of the state. -/
structure Converter (σ α β : Type) where
  minInput : ℕ
  minOutput : ℕ
  unit : ℕ
  body : σ → List α → ℕ → Run (Turn σ β)
  rank : σ → ℕ
  rank_le : ∀ state, rank state ≤ 1
  advances : ∀ {state input room taken out state'},
    body state input room = .ok (.emit taken out state') → 0 < taken ∨ rank state' < rank state
  skips : ∀ {state input room taken state'},
    body state input room = .ok (.illegal taken state') → 0 < taken

lemma unit_rank_le (_ : Unit) : 0 ≤ 1 := Nat.zero_le 1

/-- The variables of a loop: what is left of the input, the output stored so far and
the bytes of room behind it. -/
structure Loop (σ α β : Type) where
  input : List α
  output : List β
  room : ℕ
  state : σ
  irreversible : ℕ
  result : Status
  deriving DecidableEq, Repr

variable {σ α β : Type}

/-- One pass, with `STANDARD_FROM_LOOP_ERR_HANDLER` for what is ill-formed. -/
def pass (c : Converter σ α β) (ignoreErrors : Bool) (s : Loop σ α β) :
    Run (Loop σ α β ⊕ Loop σ α β) :=
  if s.input.length = 0 then .ok (.inr s)
  else if s.input.length < c.minInput then .ok (.inr { s with result := .incompleteInput })
  else if s.room < c.minOutput then .ok (.inr { s with result := .fullOutput })
  else do
    match ← c.body s.state s.input s.room with
    | .emit taken out state =>
        if c.unit * out.length ≤ s.room then
          .ok (.inl { s with
            input := s.input.drop taken
            output := s.output ++ out
            room := s.room - c.unit * out.length
            state := state })
        else .error (.write s.output.length)
    | .illegal taken state =>
        if ignoreErrors then
          .ok (.inl { s with
            input := s.input.drop taken
            state := state
            irreversible := s.irreversible + 1
            result := .illegalInput })
        else .ok (.inr { s with result := .illegalInput })
    | .stop result => .ok (.inr { s with result := result })

def Loop.measure (c : Converter σ α β) (s : Loop σ α β) : ℕ :=
  2 * s.input.length + c.rank s.state

/-- `FCTNAME (LOOPFCT)`, from the state in which its `while` starts. -/
def loop (c : Converter σ α β) (ignoreErrors : Bool) (s : Loop σ α β) : Run (Loop σ α β) :=
  iterate (pass c ignoreErrors) (s.measure c + 1) s

def convert (c : Converter σ α β) (ignoreErrors : Bool) (state : σ) (input : List α) (room : ℕ) :
    Run (Loop σ α β) :=
  loop c ignoreErrors ⟨input, [], room, state, 0, .emptyInput⟩

def converts (c : Converter σ α β) (ignoreErrors : Bool) : List (List α × ℕ) → σ → Run σ
  | [], state => .ok state
  | (input, room) :: calls, state => do
    let r ← convert c ignoreErrors state input room
    converts c ignoreErrors calls r.state

section
variable {c : Converter σ α β} {ignoreErrors : Bool} {s s' : Loop σ α β}

lemma pass_cases (h : pass c ignoreErrors s = .ok (.inl s')) :
    s.input.length ≠ 0 ∧ c.minInput ≤ s.input.length ∧ c.minOutput ≤ s.room ∧
    ((∃ taken out state, c.body s.state s.input s.room = .ok (.emit taken out state) ∧
        c.unit * out.length ≤ s.room ∧ s' = { s with
          input := s.input.drop taken
          output := s.output ++ out
          room := s.room - c.unit * out.length
          state := state }) ∨
      ∃ taken state, c.body s.state s.input s.room = .ok (.illegal taken state) ∧
        ignoreErrors = true ∧ s' = { s with
          input := s.input.drop taken
          state := state
          irreversible := s.irreversible + 1
          result := .illegalInput }) := by
  unfold pass at h
  by_cases hempty : s.input.length = 0
  · rw [if_pos hempty] at h
    cases h
  rw [if_neg hempty] at h
  by_cases hin : s.input.length < c.minInput
  · rw [if_pos hin] at h
    cases h
  rw [if_neg hin] at h
  by_cases hout : s.room < c.minOutput
  · rw [if_pos hout] at h
    cases h
  rw [if_neg hout] at h
  refine ⟨hempty, by omega, by omega, ?_⟩
  cases hbody : c.body s.state s.input s.room with
  | error e =>
    rw [hbody] at h
    cases h
  | ok turn =>
    rw [hbody, ok_bind] at h
    cases turn with
    | stop result => cases h
    | emit taken out state =>
      dsimp only at h
      split_ifs at h with hfit
      cases h
      exact .inl ⟨taken, out, state, rfl, hfit, rfl⟩
    | illegal taken state =>
      split_ifs at h with hig
      · cases h
        exact .inr ⟨taken, state, rfl, hig, rfl⟩
      · cases h

theorem pass_exit (h : pass c ignoreErrors s = .ok (.inr s')) :
    s.input = [] ∧ s' = s ∨ s.input ≠ [] ∧ ∃ result, s' = { s with result := result } ∧
      (result = .incompleteInput ∨ result = .fullOutput ∨ result = .illegalInput ∨
        c.body s.state s.input s.room = .ok (.stop result)) := by
  unfold pass at h
  by_cases hempty : s.input.length = 0
  · rw [if_pos hempty] at h
    cases h
    exact .inl ⟨List.length_eq_zero_iff.mp hempty, rfl⟩
  rw [if_neg hempty] at h
  refine .inr ⟨fun hnil => hempty (by rw [hnil]; rfl), ?_⟩
  by_cases hin : s.input.length < c.minInput
  · rw [if_pos hin] at h
    cases h
    exact ⟨_, rfl, .inl rfl⟩
  rw [if_neg hin] at h
  by_cases hout : s.room < c.minOutput
  · rw [if_pos hout] at h
    cases h
    exact ⟨_, rfl, .inr (.inl rfl)⟩
  rw [if_neg hout] at h
  cases hbody : c.body s.state s.input s.room with
  | error e =>
    rw [hbody] at h
    cases h
  | ok turn =>
    rw [hbody, ok_bind] at h
    cases turn with
    | stop result =>
      cases h
      exact ⟨_, rfl, .inr (.inr (.inr rfl))⟩
    | emit taken out state =>
      dsimp only at h
      split_ifs at h
      cases h
    | illegal taken state =>
      split_ifs at h
      · cases h
      · cases h
        exact ⟨_, rfl, .inr (.inr (.inl rfl))⟩

lemma pass_measure (h : pass c ignoreErrors s = .ok (.inl s')) : s'.measure c < s.measure c := by
  obtain ⟨hne, -, -, ⟨taken, out, state, hbody, -, rfl⟩ | ⟨taken, state, hbody, -, rfl⟩⟩ :=
    pass_cases h
  · have hrank := c.rank_le state
    unfold Loop.measure
    dsimp only
    rw [List.length_drop]
    rcases c.advances hbody with htaken | hlower
    · omega
    · omega
  have hrank := c.rank_le state
  have htaken := c.skips hbody
  unfold Loop.measure
  dsimp only
  rw [List.length_drop]
  omega

lemma loop_next (h : pass c ignoreErrors s = .ok (.inl s')) :
    loop c ignoreErrors s = loop c ignoreErrors s' := by
  rw [loop, iterate_next h]
  exact iterate_stable (Loop.measure c) (fun _ _ => pass_measure) (pass_measure h)

lemma loop_exit (h : pass c ignoreErrors s = .ok (.inr s')) : loop c ignoreErrors s = .ok s' :=
  iterate_exit h

lemma loop_end (h : s.input = []) : loop c ignoreErrors s = .ok s :=
  loop_exit (by rw [pass, if_pos (by simp [h])])

lemma loop_full (hne : s.input ≠ []) (hin : c.minInput ≤ s.input.length)
    (hroom : s.room < c.minOutput) : loop c ignoreErrors s = .ok { s with result := .fullOutput } :=
  loop_exit (by rw [pass, if_neg (by simp [hne]), if_neg (by omega), if_pos hroom])

lemma loop_stop (hne : s.input ≠ []) (hin : c.minInput ≤ s.input.length)
    (hroom : c.minOutput ≤ s.room) (hbody : c.body s.state s.input s.room = .ok (.stop result)) :
    loop c ignoreErrors s = .ok { s with result := result } :=
  loop_exit (by
    rw [pass, if_neg (by simp [hne]), if_neg (by omega), if_neg (by omega), hbody]
    rfl)

lemma loop_emit (hne : s.input ≠ [])
    (hin : c.minInput ≤ s.input.length) (hroom : c.minOutput ≤ s.room)
    (hfit : c.unit * out.length ≤ s.room)
    (hbody : c.body s.state s.input s.room = .ok (.emit taken out state)) :
    loop c ignoreErrors s = loop c ignoreErrors { s with
      input := s.input.drop taken
      output := s.output ++ out
      room := s.room - c.unit * out.length
      state := state } := by
  apply loop_next
  rw [pass, if_neg (by simp [hne]), if_neg (by omega), if_neg (by omega), hbody, ok_bind]
  exact if_pos hfit

lemma loop_room (h : loop c ignoreErrors s = .ok r) :
    r.room + c.unit * r.output.length = s.room + c.unit * s.output.length := by
  refine iterate_ok
    (I := fun t : Loop σ α β => t.room + c.unit * t.output.length =
      s.room + c.unit * s.output.length)
    (Q := fun t : Loop σ α β => t.room + c.unit * t.output.length =
      s.room + c.unit * s.output.length) ?_ ?_ rfl h
  · intro t t' ht hpass
    obtain ⟨-, -, -, ⟨taken, out, state, -, hfit, rfl⟩ | ⟨taken, state, -, -, rfl⟩⟩ :=
      pass_cases hpass
    · dsimp only
      rw [List.length_append, Nat.mul_add]
      omega
    · exact ht
  · intro t t' ht hpass
    rcases pass_exit hpass with ⟨-, rfl⟩ | ⟨-, result, rfl, -⟩
    · exact ht
    · exact ht

/-- What a body must keep to: the room it was given and an invariant of the state. -/
def Kept (c : Converter σ α β) (I : σ → Prop) (room : ℕ) : Turn σ β → Prop
  | .emit _ out state => c.unit * out.length ≤ room ∧ I state
  | .illegal _ state => I state
  | .stop _ => True

variable {I : σ → Prop} (hbody : ∀ {state input room}, I state → input ≠ [] →
  c.minOutput ≤ room → Returns (c.body state input room) (Kept c I room))
include hbody

lemma pass_returns (hs : I s.state) :
    Returns (pass c ignoreErrors s) (Pass (fun t => I t.state) (Loop.measure c)
      (fun t => I t.state) s) := by
  have hstep : Returns (pass c ignoreErrors s) fun next => match next with
      | .inl t => I t.state
      | .inr t => I t.state := by
    unfold pass
    split_ifs with hempty hin hout
    · exact returns_ok hs
    · exact returns_ok hs
    · exact returns_ok hs
    -- the last two differ in what becomes of an illegal character
    all_goals
      apply (hbody hs (fun hnil => hempty (by rw [hnil]; rfl)) (Nat.le_of_not_lt hout)).bind
      intro turn hturn
      cases turn with
      | stop result => exact returns_ok hs
      | emit taken out state =>
        dsimp only
        rw [if_pos hturn.1]
        exact returns_ok hturn.2
      | illegal taken state => first | exact returns_ok hturn | exact returns_ok hs
  obtain ⟨next, hnext, hinv⟩ := hstep
  refine ⟨next, hnext, ?_⟩
  cases next with
  | inl t => exact ⟨hinv, pass_measure hnext⟩
  | inr t => exact hinv

/-- A loop whose body does not fault and stays inside the room it asked for returns, and
keeps what the body keeps. -/
theorem loop_returns (hs : I s.state) : Returns (loop c ignoreErrors s) fun r => I r.state :=
  iterate_returns (Loop.measure c) (fun _ ht => pass_returns hbody ht) hs (Nat.lt_succ_self _)

lemma converts_returns (calls : List (List α × ℕ)) (hs : I state) :
    Returns (converts c ignoreErrors calls state) I := by
  induction calls generalizing state with
  | nil => exact returns_ok hs
  | cons call calls ih =>
    apply (loop_returns hbody hs).bind
    intro r hr
    exact ih hr

end

section
variable {γ : Type} {c : Converter Unit α β} {valid : γ → Prop} {code : γ → List α}
  {out : γ → List β} {ignoreErrors : Bool}

/-- A stateless converter turns the code of every valid character into its output. -/
structure Codes (c : Converter Unit α β) (valid : γ → Prop) (code : γ → List α)
    (out : γ → List β) : Prop where
  nonempty : ∀ {g}, valid g → code g ≠ []
  input_le : ∀ {g}, valid g → c.minInput ≤ (code g).length
  output_le : ∀ {g}, valid g → c.minOutput ≤ c.unit * (out g).length
  emits : ∀ {g rest room}, valid g → c.unit * (out g).length ≤ room →
    c.body () (code g ++ rest) room = .ok (.emit (code g).length (out g) ())
  stops : ∀ {g rest room}, valid g → c.minOutput ≤ room → room < c.unit * (out g).length →
    c.body () (code g ++ rest) room = .ok (.stop .fullOutput)

theorem Codes.loop_append (h : Codes c valid code out) {gs : List γ} (hgs : ∀ g ∈ gs, valid g)
    {rest : List α} {s : Loop Unit α β} (hin : s.input = gs.flatMap code ++ rest)
    (hfit : c.unit * (gs.flatMap out).length ≤ s.room) :
    loop c ignoreErrors s = loop c ignoreErrors { s with
      input := rest
      output := s.output ++ gs.flatMap out
      room := s.room - c.unit * (gs.flatMap out).length } := by
  induction gs generalizing s with
  | nil =>
    rw [List.flatMap_nil, List.nil_append] at hin
    simp [← hin]
  | cons g gs ih =>
    have hg : valid g := hgs g (by simp)
    have hcode : s.input = code g ++ (gs.flatMap code ++ rest) := by rw [hin]; simp
    rw [List.flatMap_cons, List.length_append, Nat.mul_add] at hfit
    have hle := h.input_le hg
    have hbody : c.body () s.input s.room = .ok (.emit (code g).length (out g) ()) := by
      rw [hcode]
      exact h.emits hg (by omega)
    rw [loop_emit (by simp [hcode, h.nonempty hg]) (by simp [hcode]; omega)
      (by have := h.output_le hg; omega) (by omega) hbody,
      ih (fun g' hg' => hgs g' (by simp [hg']))]
    · simp only [List.flatMap_cons, List.append_assoc, List.length_append, Nat.mul_add,
        Nat.sub_add_eq]
    · simp [hcode]
    · dsimp only
      omega

theorem Codes.loop_valid (h : Codes c valid code out) (hgs : ∀ g ∈ gs, valid g)
    (hin : s.input = gs.flatMap code) :
    Returns (loop c ignoreErrors s) fun r => ∃ done left, gs = done ++ left ∧
      r = { s with
        input := left.flatMap code
        output := s.output ++ done.flatMap out
        room := s.room - c.unit * (done.flatMap out).length
        result := if left = [] then s.result else .fullOutput } ∧
      c.unit * (done.flatMap out).length ≤ s.room ∧
      ∀ g ∈ left.head?, r.room < c.unit * (out g).length := by
  induction gs generalizing s with
  | nil =>
    refine ⟨s, loop_end (by simpa using hin), [], [], rfl, ?_, by simp, by simp⟩
    simp [← hin]
  | cons g gs ih =>
    have hg : valid g := hgs g (by simp)
    have hcode : s.input = code g ++ gs.flatMap code := by rw [hin]; simp
    have hne : s.input ≠ [] := by simp [hcode, h.nonempty hg]
    have hle : c.minInput ≤ s.input.length := by
      have := h.input_le hg
      simp [hcode]
      omega
    by_cases hfit : c.unit * (out g).length ≤ s.room
    · have hbody : c.body () s.input s.room = .ok (.emit (code g).length (out g) ()) := by
        rw [hcode]
        exact h.emits hg hfit
      rw [loop_emit hne hle (le_trans (h.output_le hg) hfit) hfit hbody]
      refine (ih (fun g' hg' => hgs g' (by simp [hg'])) (by simp [hcode])).mono ?_
      rintro r ⟨done, left, rfl, hr, hroom, hleft⟩
      refine ⟨g :: done, left, rfl, ?_, ?_, hleft⟩
      · rw [hr]
        simp only [List.flatMap_cons, List.append_assoc, List.length_append, Nat.mul_add,
          Nat.sub_add_eq]
      · dsimp only at hroom
        rw [List.flatMap_cons, List.length_append, Nat.mul_add]
        omega
    have hstop : loop c ignoreErrors s = .ok { s with result := .fullOutput } := by
      by_cases hmin : s.room < c.minOutput
      · exact loop_full hne hle hmin
      · refine loop_stop hne hle (by omega) ?_
        rw [hcode]
        exact h.stops hg (by omega) (by omega)
    rw [hstop]
    refine returns_ok ⟨[], g :: gs, rfl, ?_, by simp, ?_⟩
    · simp [← hin]
    · simpa using hfit

structure Reads (c : Converter Unit α β) (valid : γ → Prop) (code : γ → List α)
    (out : γ → List β) : Prop where
  emitted : ∀ {input room taken o},
    c.body () input room = .ok (.emit taken o ()) →
      ∃ g, valid g ∧ input = code g ++ input.drop taken ∧ o = out g
  stopped : ∀ {input room result}, input ≠ [] → c.body () input room = .ok (.stop result) →
    result ≠ .emptyInput

theorem Reads.loop_inv (h : Reads c valid code out)
    (hr : loop c ignoreErrors s = .ok r) (hempty : r.result = .emptyInput) :
    ∃ gs : List γ, (∀ g ∈ gs, valid g) ∧ s.input = gs.flatMap code ∧
      r.output = s.output ++ gs.flatMap out := by
  refine iterate_ok (I := fun t => t.result = .emptyInput → ∃ gs : List γ, (∀ g ∈ gs, valid g) ∧
    s.input = gs.flatMap code ++ t.input ∧ t.output = s.output ++ gs.flatMap out)
    (Q := fun t => t.result = .emptyInput → ∃ gs : List γ, (∀ g ∈ gs, valid g) ∧
      s.input = gs.flatMap code ∧ t.output = s.output ++ gs.flatMap out) ?_ ?_ ?_ hr hempty
  · intro t t' ht hpass
    obtain ⟨-, -, -, ⟨taken, o, state, hbody, -, rfl⟩ | ⟨taken, state, hbody, -, rfl⟩⟩ :=
      pass_cases hpass
    · intro hres
      obtain ⟨gs, hgs, hin, hout⟩ := ht hres
      obtain ⟨g, hg, hsplit, rfl⟩ := h.emitted hbody
      refine ⟨gs ++ [g], ?_, ?_, ?_⟩
      · intro g' hg'
        rcases List.mem_append.mp hg' with hg' | hg'
        · exact hgs g' hg'
        · rwa [List.mem_singleton.mp hg']
      · simp [hin, ← hsplit]
      · simp [hout]
    · intro hres
      cases hres
  · intro t t' ht hpass hres
    rcases pass_exit hpass with ⟨hnil, rfl⟩ | ⟨hne, result, rfl, hcase⟩
    · obtain ⟨gs, hgs, hs, ho⟩ := ht hres
      exact ⟨gs, hgs, by simpa [hnil] using hs, ho⟩
    rcases hcase with h' | h' | h' | h'
    · cases h'.symm.trans hres
    · cases h'.symm.trans hres
    · cases h'.symm.trans hres
    · exact absurd hres (h.stopped hne h')
  · intro _
    exact ⟨[], by simp, by simp, by simp⟩

end

end Eglibc.Gconv
