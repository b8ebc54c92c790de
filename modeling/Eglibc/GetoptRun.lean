import Eglibc.GetoptScan

/-!
# Runs of the scan

The calls of the scan, made until one returns -1, leave `argv` in the order of `classify`.
-/
namespace Eglibc.Getopt
open Checked

def body (p : Params) (w : Word) : Word :=
  w.drop (if p.longopts.isSome ∧ charAt w 1 = '-' then 2 else 1)

/-- How many of the words `ws` behind an option word are its separate arguments. -/
def arguments (p : Params) (w : Word) (ws : List Word) : Word → ℕ
  | [] => 0
  | c :: rest =>
      match read p w ws c rest with
      | .more _ => arguments p w ws rest
      | .ends _ n | .stray n => n

/-- No option of the word is answered with -1, which a caller takes for the end, and
none makes the code lose its place. -/
def regularWord (p : Params) (w : Word) (ws : List Word) : Word → Bool
  | [] => true
  | c :: rest =>
      match read p w ws c rest with
      | .more answer => decide (answer ≠ -1) && regularWord p w ws rest
      | .ends answer _ => decide (answer ≠ -1)
      | .stray _ => false

/-- A command line without its program name: the option words with their separate
arguments, the `--` that ended the options if there is one, and the remaining words. -/
structure Split where
  options : List Word
  ended : List Word
  rest : List Word
  deriving DecidableEq, Repr

/-- The first `pending` words are arguments of an option in front of them. -/
def classify (p : Params) : ℕ → List Word → Split
  | _, [] => ⟨[], [], []⟩
  | pending + 1, w :: ws =>
      let r := classify p pending ws
      { r with options := w :: r.options }
  | 0, w :: ws =>
      if w = ['-', '-'] then ⟨[], [w], ws⟩
      else if nonoption w then
        let r := classify p 0 ws
        { r with rest := w :: r.rest }
      else
        let r := classify p (arguments p w ws (body p w)) ws
        { r with options := w :: r.options }

def regular (p : Params) : ℕ → List Word → Bool
  | _, [] => true
  | pending + 1, _ :: ws => regular p pending ws
  | 0, w :: ws =>
      if w = ['-', '-'] then true
      else if nonoption w then regular p 0 ws
      else regularWord p w ws (body p w) && regular p (arguments p w ws (body p w)) ws

section
variable {p : Params}

def Split.Of (r : Split) (ws : List Word) : Prop :=
  (r.options ++ r.ended ++ r.rest).Perm ws ∧ r.options.Sublist ws ∧ r.rest.Sublist ws

lemma Split.Of.option {r : Split} {ws : List Word} (h : r.Of ws) (w : Word) :
    Split.Of { r with options := w :: r.options } (w :: ws) :=
  ⟨h.1.cons w, h.2.1.cons_cons w, h.2.2.cons w⟩

lemma Split.Of.other {r : Split} {ws : List Word} (h : r.Of ws) (w : Word) :
    Split.Of { r with rest := w :: r.rest } (w :: ws) :=
  ⟨List.perm_middle.trans (h.1.cons w), h.2.1.cons w, h.2.2.cons_cons w⟩

lemma classify_of (k : ℕ) (ws : List Word) : (classify p k ws).Of ws := by
  induction ws generalizing k with
  | nil => cases k <;> simp [classify, Split.Of]
  | cons w ws ih =>
    cases k with
    | succ k => exact (ih k).option w
    | zero =>
      rw [classify]
      split_ifs
      · simp [Split.Of]
      · exact (ih 0).other w
      · exact (ih _).option w

lemma classify_pending (k : ℕ) (ws : List Word) : classify p k ws = { classify p 0 (ws.drop k) with
      options := ws.take k ++ (classify p 0 (ws.drop k)).options } := by
  induction ws generalizing k with
  | nil => cases k <;> simp [classify]
  | cons w ws ih =>
    cases k with
    | zero => simp
    | succ k => simp [classify, ih k]

lemma regular_pending (k : ℕ) (ws : List Word) : regular p k ws = regular p 0 (ws.drop k) := by
  induction ws generalizing k with
  | nil => cases k <;> simp [regular]
  | cons w ws ih =>
    cases k with
    | zero => simp
    | succ k => simp [regular, ih k]

lemma ne_dashes (h : nonoption w = true) : w ≠ ['-', '-'] := by
  rintro rfl
  cases h

lemma classify_nonoptions (ws : List Word) :
    classify p 0 ws = { classify p 0 (ws.dropWhile nonoption) with
      rest := ws.takeWhile nonoption ++ (classify p 0 (ws.dropWhile nonoption)).rest } := by
  induction ws with
  | nil => simp [classify]
  | cons w ws ih =>
    by_cases hnon : nonoption w = true
    · simp [classify, if_neg (ne_dashes hnon), hnon, ih]
    · rw [List.dropWhile_cons_of_neg hnon, List.takeWhile_cons_of_neg hnon]
      rfl

lemma regular_nonoptions (ws : List Word) :
    regular p 0 ws = regular p 0 (ws.dropWhile nonoption) := by
  induction ws with
  | nil => rfl
  | cons w ws ih =>
    by_cases hnon : nonoption w = true
    · simp [regular, if_neg (ne_dashes hnon), hnon, ih]
    · rw [List.dropWhile_cons_of_neg hnon]

end

/-- Between two option words: the words are `A`, the options already in place; `N`, the
non-options skipped; `O`, the options since then; and `R`, what is left to scan. -/
structure Standing (p : Params) (T : Split) (s : State) (A N O R : List Word) : Prop where
  argv : s.argv = A ++ N ++ O ++ R
  first : s.firstNonopt = A.length
  last : s.lastNonopt = A.length + N.length
  optind : s.optind = A.length + N.length + O.length
  program : 0 < A.length
  ordering : s.ordering = .permute
  initialized : s.initialized = true
  spent : Spent s
  options : T.options = A ++ O ++ (classify p 0 R).options
  ended : T.ended = (classify p 0 R).ended
  rest : T.rest = N ++ (classify p 0 R).rest
  regular : regular p 0 R = true

structure InWord (p : Params) (T : Split) (s : State) (A N : List Word) (w : Word)
    (ws : List Word) (suffix : Word) : Prop where
  argv : s.argv = A ++ N ++ w :: ws
  first : s.firstNonopt = A.length
  last : s.lastNonopt = A.length + N.length
  optind : s.optind = A.length + N.length
  program : 0 < A.length
  ordering : s.ordering = .permute
  initialized : s.initialized = true
  nextchar : s.nextchar = some suffix
  options : T.options = A ++ w :: (classify p (arguments p w ws suffix) ws).options
  ended : T.ended = (classify p (arguments p w ws suffix) ws).ended
  rest : T.rest = N ++ (classify p (arguments p w ws suffix) ws).rest
  regularWord : regularWord p w ws suffix = true
  regular : regular p (arguments p w ws suffix) ws = true

def Sorted (T : Split) (s : State) : Prop :=
  s.argv = T.options ++ T.ended ++ T.rest ∧ s.optind = (T.options ++ T.ended).length

/-- A bound on the calls that the words can still take. -/
def weight (ws : List Word) : ℕ := (ws.map fun w => w.length + 1).sum

/-- The invariant between calls, with a bound on the calls left. -/
def Scanning (p : Params) (T : Split) (m : ℕ) (s : State) : Prop :=
  (∃ A N O R, Standing p T s A N O R ∧ weight R ≤ m) ∨
    ∃ A N w ws c rest, InWord p T s A N w ws (c :: rest) ∧ rest.length + 1 + weight ws ≤ m

def Progress (p : Params) (T : Split) (m : ℕ) (out : ℤ × State) : Prop :=
  if out.1 = -1 then Sorted T out.2 else ∃ m' < m, Scanning p T m' out.2

section
variable {p : Params} {T : Split} {s : State} {A N O R : List Word} {w : Word} {ws : List Word}

lemma skip_eq (h : argv.drop optind = R) (hle : optind ≤ argv.length) (hb : R.length < budget) :
    iterate (skipBody argv) budget optind = .ok (optind + (R.takeWhile nonoption).length) := by
  induction R generalizing optind budget with
  | nil =>
    obtain _ | budget := budget
    · omega
    have hend : argv.length ≤ optind := List.drop_eq_nil_iff.mp h
    exact iterate_exit (by rw [skipBody, if_neg (by omega)]; rfl)
  | cons w R ih =>
    obtain _ | budget := budget
    · omega
    have hlen := length_drop_cons h
    have hstep : skipBody argv optind =
        .ok (if nonoption w then .inl (optind + 1) else .inr optind) := by
      rw [skipBody, if_pos (by omega), load_drop h, ok_bind]
    by_cases hnon : nonoption w = true
    · rw [if_pos hnon] at hstep
      rw [iterate_next hstep, ih (drop_succ h) (by omega) (by simpa using hb),
        List.takeWhile_cons_of_pos hnon, List.length_cons]
      congr 1
      omega
    · rw [if_neg hnon] at hstep
      rw [iterate_exit hstep, List.takeWhile_cons_of_neg hnon]
      rfl

lemma Standing.clamp_eq (h : Standing p T s A N O R) : clamp s = s := by
  have h₁ := h.first
  have h₂ := h.last
  have h₃ := h.optind
  unfold clamp
  simp only [if_neg (show ¬s.lastNonopt > s.optind by omega),
    if_neg (show ¬s.firstNonopt > s.optind by omega)]

theorem Standing.permute_eq (h : Standing p T s A N O R) : permute s = .ok { s with
      argv := A ++ O ++ N ++ R
      firstNonopt := A.length + O.length
      lastNonopt := s.optind + (R.takeWhile nonoption).length
      optind := s.optind + (R.takeWhile nonoption).length } := by
  have h₁ := h.first
  have h₂ := h.last
  have h₃ := h.optind
  have hskip : iterate (skipBody (A ++ O ++ N ++ R)) ((A ++ O ++ N ++ R).length + 1) s.optind =
      .ok (s.optind + (R.takeWhile nonoption).length) := by
    have hoptind : s.optind = (A ++ O ++ N).length := by simp; omega
    refine skip_eq ?_ ?_ ?_
    · simp [hoptind]
    · simp
      omega
    · simp
      omega
  have hmoved : moveOptions s = .ok { s with
      argv := A ++ O ++ N ++ R
      firstNonopt := A.length + O.length
      lastNonopt := if s.firstNonopt ≠ s.lastNonopt ∧ s.lastNonopt ≠ s.optind then s.optind
        else s.lastNonopt } := by
    unfold moveOptions
    by_cases hboth : s.firstNonopt ≠ s.lastNonopt ∧ s.lastNonopt ≠ s.optind
    · simpa [hboth] using exchange_eq h.argv h₁ h₂ h₃
    have hnil : N = [] ∨ O = [] := by
      rw [← List.length_eq_zero_iff, ← List.length_eq_zero_iff]
      omega
    have hargv : A ++ O ++ N ++ R = s.argv := by
      rw [h.argv]
      rcases hnil with rfl | rfl <;> simp
    split_ifs with hopt
    · rw [hargv, show A.length + O.length = s.optind by omega]
    · rw [hargv, show A.length + O.length = s.firstNonopt by omega]
  rw [permute, hmoved, ok_bind]
  rw [hskip, ok_bind]

/-- Where the advance stands after the permutation: in front of the first word with
option syntax, or at the end. -/
structure Skipped (p : Params) (T : Split) (s : State) (A N R : List Word) : Prop where
  argv : s.argv = A ++ N ++ R
  first : s.firstNonopt = A.length
  last : s.lastNonopt = A.length + N.length
  optind : s.optind = A.length + N.length
  program : 0 < A.length
  ordering : s.ordering = .permute
  initialized : s.initialized = true
  options : T.options = A ++ (classify p 0 R).options
  ended : T.ended = (classify p 0 R).ended
  rest : T.rest = N ++ (classify p 0 R).rest
  regular : Getopt.regular p 0 R = true
  head : ∀ w ∈ R.head?, nonoption w = false

lemma Standing.permute_returns (h : Standing p T s A N O R) : Returns (permute s) fun s' =>
      Skipped p T s' (A ++ O) (N ++ R.takeWhile nonoption) (R.dropWhile nonoption) := by
  rw [h.permute_eq]
  have hclass := classify_nonoptions (p := p) R
  refine returns_ok ⟨?_, ?_, ?_, ?_, ?_, h.ordering, h.initialized, ?_, ?_, ?_, ?_, ?_⟩
  · simp
  · simp
  · simp [h.optind]
    omega
  · simp only [h.optind, List.length_append]
    omega
  · rw [List.length_append]
    exact Nat.add_pos_left h.program _
  · rw [h.options, hclass]
  · rw [h.ended, hclass]
  · simp [h.rest, hclass]
  · rw [← regular_nonoptions]
    exact h.regular
  · intro w hw
    have hnot := List.head?_dropWhile_not nonoption R
    rw [Option.mem_def.mp hw] at hnot
    simpa using hnot

lemma prematureEnd_returns (hargv : s.argv = A ++ N ++ w :: ws)
    (hfirst : s.firstNonopt = A.length) (hlast : s.lastNonopt = A.length + N.length)
    (hoptind : s.optind = A.length + N.length) :
    Returns (prematureEnd s) fun s' => s'.argv = A ++ [w] ++ (N ++ ws) ∧
      s'.firstNonopt = A.length + 1 ∧ s'.lastNonopt = s'.argv.length ∧
      s'.optind = s'.argv.length := by
  unfold prematureEnd moveDashes
  by_cases hboth : s.firstNonopt ≠ s.lastNonopt ∧ s.lastNonopt ≠ s.optind + 1
  · have hmoved := exchange_eq (s := { s with optind := s.optind + 1 }) (A := A) (N := N)
      (O := [w]) (R := ws) (by simp [hargv]) hfirst hlast (by simp [hoptind])
    rw [if_pos hboth, hmoved]
    refine returns_ok ⟨by simp, rfl, rfl, rfl⟩
  obtain rfl : N = [] := by
    rw [← List.length_eq_zero_iff]
    omega
  have hsame : s.firstNonopt = s.lastNonopt := by simp [hfirst, hlast]
  rw [if_neg hboth, if_pos hsame]
  refine returns_ok ⟨by simp [hargv], by simp [hoptind], rfl, rfl⟩

lemma weight_append (vs ws : List Word) : weight (vs ++ ws) = weight vs + weight ws := by
  simp [weight]

lemma weight_cons (w : Word) (ws : List Word) : weight (w :: ws) = w.length + 1 + weight ws := by
  simp [weight]

lemma weight_drop_le (n : ℕ) (ws : List Word) : weight (ws.drop n) ≤ weight ws := by
  conv_rhs => rw [← List.take_append_drop n ws, weight_append]
  exact Nat.le_add_left _ _

lemma nextWord_end (hargv : s.argv = T.options ++ T.ended ++ T.rest)
    (hfirst : s.firstNonopt = (T.options ++ T.ended).length)
    (hlast : s.lastNonopt = s.argv.length) (hoptind : s.optind = s.argv.length) :
    Returns (nextWord p s) fun out => ∃ s', out = .inr (-1, s') ∧ Sorted T s' := by
  rw [nextWord, if_pos hoptind]
  split_ifs with hne
  · exact returns_ok ⟨_, rfl, hargv, hfirst⟩
  · exact returns_ok ⟨_, rfl, hargv, by omega⟩

lemma body_ne_nil (hnon : nonoption w = false) (hend : w ≠ ['-', '-']) : body p w ≠ [] := by
  unfold nonoption charAt at hnon
  unfold body charAt
  match w with
  | [] => simp at hnon
  | [a] => simp at hnon
  | [a, b] =>
    split_ifs with hdash
    · simp_all
    · simp
  | a :: b :: c :: w => split_ifs <;> simp

lemma body_length_lt (hnon : nonoption w = false) : (body p w).length < w.length := by
  unfold nonoption charAt at hnon
  unfold body
  cases w with
  | nil => simp at hnon
  | cons a w =>
    split_ifs <;> simp

theorem Standing.advance_returns (h : Standing p T s A N O R) : Returns (advance p s) fun out =>
      (∃ s', out = .inr (-1, s') ∧ Sorted T s') ∨
      ∃ s' B M w ws c rest, out = .inl s' ∧ InWord p T s' B M w ws (c :: rest) ∧
        rest.length + 1 + weight ws < weight R := by
  rw [advance, if_pos h.ordering, h.clamp_eq]
  refine h.permute_returns.bind ?_
  intro t ht
  have hweight : weight R = weight (R.takeWhile nonoption) + weight (R.dropWhile nonoption) := by
    simp [← weight_append]
  generalize R.takeWhile nonoption = M at ht hweight
  generalize A ++ O = B at ht
  generalize N ++ M = N' at ht
  cases hrest : R.dropWhile nonoption with
  | nil =>
    rw [hrest] at ht
    have hlen : t.optind = t.argv.length := by simp [ht.argv, ht.optind]
    have hclass : classify p 0 [] = ⟨[], [], []⟩ := rfl
    have hstay : endOptions t = .ok t := by rw [endOptions, if_neg (by simpa using hlen)]
    dsimp only
    rw [hstay, ok_bind]
    refine (nextWord_end ?_ ?_ ?_ hlen).mono fun out hout => .inl hout
    · rw [ht.argv, ht.options, ht.ended, ht.rest, hclass]
      simp
    · rw [ht.first, ht.options, ht.ended, hclass]
      simp
    · rw [ht.last, ← hlen, ht.optind]
  | cons w ws =>
    rw [hrest] at ht hweight
    have hnon : nonoption w = false := ht.head w rfl
    have hat : t.argv.drop t.optind = w :: ws := by
      simp [ht.argv, ht.optind]
    have hlen := length_drop_cons hat
    have hends : endOptions t = if w = ['-', '-'] then prematureEnd t else .ok t := by
      rw [endOptions, if_pos (by omega), load_drop hat, ok_bind]
    dsimp only
    rw [hends]
    split_ifs with hend
    · have hclass : classify p 0 (w :: ws) = ⟨[], [w], ws⟩ := by rw [classify, if_pos hend]
      refine (prematureEnd_returns ht.argv ht.first ht.last ht.optind).bind ?_
      rintro u ⟨hargv, hfirst, hlast, hoptind⟩
      refine (nextWord_end ?_ ?_ hlast hoptind).mono fun out hout => .inl hout
      · rw [hargv, ht.options, ht.ended, ht.rest, hclass]
        simp
      · rw [hfirst, ht.options, ht.ended, hclass]
        simp
    rw [ok_bind, nextWord, if_neg (by omega), load_drop hat, ok_bind,
      if_neg (by simp [hnon])]
    have hclass : classify p 0 (w :: ws) = { classify p (arguments p w ws (body p w)) ws with
        options := w :: (classify p (arguments p w ws (body p w)) ws).options } := by
      rw [classify, if_neg hend, if_neg (by simp [hnon])]
    have hregular := ht.regular
    rw [Getopt.regular, if_neg hend, if_neg (by simp [hnon]), Bool.and_eq_true] at hregular
    have hbody := body_length_lt (p := p) hnon
    cases hsuffix : body p w with
    | nil => exact absurd hsuffix (body_ne_nil hnon hend)
    | cons c rest =>
      rw [hsuffix] at hclass hregular hbody
      refine returns_ok (.inr ⟨_, B, N', w, ws, c, rest, rfl, ?_, ?_⟩)
      · refine ⟨ht.argv, ht.first, ht.last, ht.optind, ht.program, ht.ordering, ht.initialized,
          ?_, ?_, ?_, ?_, hregular.1, hregular.2⟩
        · exact congrArg some hsuffix
        · rw [ht.options, hclass]
        · rw [ht.ended, hclass]
        · rw [ht.rest, hclass]
      · rw [hweight, weight_cons]
        simp at hbody
        omega

lemma InWord.decode_returns {printErrors : Bool} {c : Char} {rest : Word} {m : ℕ}
    (h : InWord p T s A N w ws (c :: rest)) (hm : rest.length + 1 + weight ws ≤ m) :
    Returns (decode p p.optstring printErrors s) (Progress p T m) := by
  have hat : s.argv.drop s.optind = w :: ws := by
    simp [h.argv, h.optind]
  have hoptions := h.options
  have hended := h.ended
  have hrest := h.rest
  have hword := h.regularWord
  have hregular := h.regular
  rw [arguments] at hoptions hended hrest hregular
  rw [Getopt.regularWord] at hword
  refine (Getopt.decode_returns h.nextchar hat).mono ?_
  intro out hout
  cases hread : read p w ws c rest with
  | stray n =>
    rw [hread] at hword
    cases hword
  | more answer =>
    rw [hread] at hout hoptions hended hrest hword hregular
    obtain ⟨ha, ⟨k1, k2, k3, k4, k5⟩, hne, hnext, hoptind⟩ := hout
    obtain ⟨hanswer, hword⟩ := (Bool.and_eq_true _ _).mp hword
    obtain ⟨d, ds, rfl⟩ := List.exists_cons_of_ne_nil hne
    rw [Progress, if_neg (by rw [ha]; simpa using hanswer)]
    refine ⟨ds.length + 1 + weight ws, by simpa using Nat.lt_of_lt_of_le (by simp) hm,
      .inr ⟨A, N, w, ws, d, ds, ?_, le_rfl⟩⟩
    exact ⟨k1.trans h.argv, k2.trans h.first, k3.trans h.last, hoptind.trans h.optind, h.program,
      k4.trans h.ordering, k5.trans h.initialized, hnext, hoptions, hended, hrest, hword, hregular⟩
  | ends answer n =>
    rw [hread] at hout hoptions hended hrest hword hregular
    obtain ⟨hn, ha, ⟨k1, k2, k3, k4, k5⟩, hspent, hoptind⟩ := hout
    rw [Progress, if_neg (by rw [ha]; simpa using hword)]
    have hclass := classify_pending (p := p) n ws
    refine ⟨weight (ws.drop n), ?_, .inl ⟨A, N, w :: ws.take n, ws.drop n, ?_, le_rfl⟩⟩
    · have := weight_drop_le n ws
      omega
    refine ⟨?_, k2.trans h.first, k3.trans h.last, ?_, h.program, k4.trans h.ordering,
      k5.trans h.initialized, hspent, ?_, ?_, ?_, ?_⟩
    · rw [k1, h.argv]
      simp
    · simp [hoptind, h.optind, min_eq_left hn]
      omega
    · rw [hoptions, hclass]
      simp
    · rw [hended, hclass]
    · rw [hrest, hclass]
    · rwa [← regular_pending]

lemma scanCall_returns (h : Scanning p T m s) :
    Returns (scanCall p p.optstring s) (Progress p T m) := by
  unfold scanCall
  rcases h with ⟨A, N, O, R, h, hm⟩ | ⟨A, N, w, ws, c, rest, h, hm⟩
  · rw [if_pos (show s.nextchar = none ∨ s.nextchar = some [] from h.spent)]
    refine h.advance_returns.bind ?_
    rintro out (⟨s', rfl, hsorted⟩ | ⟨s', B, M, w, ws, c, rest, rfl, hin, hlt⟩)
    · refine returns_ok ?_
      rwa [Progress, if_pos rfl]
    · exact hin.decode_returns (by omega)
  · rw [if_neg (by simp [h.nextchar])]
    exact h.decode_returns hm

lemma Scanning.enter_eq (h : Scanning p T m s) (hminus : charAt p.optstring 0 ≠ '-')
    (hplus : charAt p.optstring 0 ≠ '+') : enter p s = (p.optstring, { s with optarg := none }) := by
  have hold : s.optind ≠ 0 ∧ s.initialized = true := by
    rcases h with ⟨A, N, O, R, h, -⟩ | ⟨A, N, w, ws, c, rest, h, -⟩
    · have := h.program
      exact ⟨by rw [h.optind]; omega, h.initialized⟩
    · have := h.program
      exact ⟨by rw [h.optind]; omega, h.initialized⟩
  rw [enter, if_neg (by simp [hold]), if_neg (by simp [hminus, hplus])]

lemma Scanning.clear (h : Scanning p T m s) :
    Scanning p T m { s with optarg := none } ∧ s.argv ≠ [] := by
  rcases h with ⟨A, N, O, R, h, hm⟩ | ⟨A, N, w, ws, c, rest, h, hm⟩
  · refine ⟨.inl ⟨A, N, O, R, ?_, hm⟩, ?_⟩
    · obtain ⟨h₁, h₂, h₃, h₄, h₅, h₆, h₇, h₈, h₉, h₁₀, h₁₁, h₁₂⟩ := h
      exact ⟨h₁, h₂, h₃, h₄, h₅, h₆, h₇, h₈, h₉, h₁₀, h₁₁, h₁₂⟩
    · rw [h.argv, List.append_assoc, List.append_assoc]
      exact List.append_ne_nil_of_left_ne_nil (List.ne_nil_of_length_pos h.program) _
  refine ⟨.inr ⟨A, N, w, ws, c, rest, ?_, hm⟩, ?_⟩
  · obtain ⟨h₁, h₂, h₃, h₄, h₅, h₆, h₇, h₈, h₉, h₁₀, h₁₁, h₁₂, h₁₃⟩ := h
    exact ⟨h₁, h₂, h₃, h₄, h₅, h₆, h₇, h₈, h₉, h₁₀, h₁₁, h₁₂, h₁₃⟩
  · rw [h.argv]
    simp

def Entering (p : Params) (T : Split) (m : ℕ) (s : State) : Prop :=
  s.argv ≠ [] ∧ (enter p s).1 = p.optstring ∧ Scanning p T m (enter p s).2

lemma callBody_returns (hminus : charAt p.optstring 0 ≠ '-')
    (hplus : charAt p.optstring 0 ≠ '+') (m : ℕ) (s : State) (h : Entering p T m s) :
    Returns (callBody p s) (Closer (Entering p T) (Sorted T) m) := by
  obtain ⟨hne, hopt, hscan⟩ := h
  have hcall : Returns (getoptInternalR p s) (Progress p T m) := by
    rw [getoptInternalR, if_neg (by simpa [Nat.lt_one_iff] using hne)]
    dsimp only
    rw [hopt]
    exact scanCall_returns hscan
  refine hcall.bind ?_
  rintro ⟨answer, s'⟩ hout
  unfold Progress at hout
  by_cases hend : answer = -1
  · rw [if_pos hend] at hout
    rw [if_pos hend]
    exact returns_ok hout
  rw [if_neg hend] at hout
  obtain ⟨m', hlt, hnext⟩ := hout
  rw [if_neg hend]
  refine returns_ok ⟨m', hlt, hnext.clear.2, ?_, ?_⟩
  · rw [hnext.enter_eq hminus hplus]
  · rw [hnext.enter_eq hminus hplus]
    exact hnext.clear.1

/-- A state in which a scan may begin: `optind` is zero, or it is 1 and nothing has
been scanned yet. -/
def Fresh (s : State) : Prop := s.optind = 0 ∨ s.optind = 1 ∧ s.initialized = false

structure Permuted (p : Params) (argv : List Word) (s : State) : Prop where
  permutation : s.argv.Perm argv
  order : s.argv = argv.take 1 ++ (classify p 0 (argv.drop 1)).options ++
    (classify p 0 (argv.drop 1)).ended ++ (classify p 0 (argv.drop 1)).rest
  options_order : (classify p 0 (argv.drop 1)).options.Sublist (argv.drop 1)
  rest_order : (classify p 0 (argv.drop 1)).rest.Sublist (argv.drop 1)
  remaining : s.argv.drop s.optind = (classify p 0 (argv.drop 1)).rest
  index : argv ≠ [] → s.optind + (classify p 0 (argv.drop 1)).rest.length = argv.length

def wanted (p : Params) (argv : List Word) : Split :=
  { classify p 0 (argv.drop 1) with
    options := argv.take 1 ++ (classify p 0 (argv.drop 1)).options }

lemma Sorted.permuted (h : Sorted (wanted p argv) s) : Permuted p argv s := by
  obtain ⟨hargv, hoptind⟩ := h
  obtain ⟨hperm, hoptions, hrest⟩ := classify_of (p := p) 0 (argv.drop 1)
  have horder : s.argv = argv.take 1 ++ (classify p 0 (argv.drop 1)).options ++
      (classify p 0 (argv.drop 1)).ended ++ (classify p 0 (argv.drop 1)).rest := hargv
  refine ⟨?_, horder, hoptions, hrest, ?_, ?_⟩
  · have := hperm.append_left (argv.take 1)
    rw [List.take_append_drop] at this
    rw [horder]
    simpa using this
  · rw [hargv, hoptind, List.drop_left]
    rfl
  · intro _
    have hlen := congrArg List.length (List.take_append_drop 1 argv)
    rw [List.length_append, ← hperm.length_eq] at hlen
    rw [hoptind]
    simp only [wanted, List.length_append] at hlen ⊢
    omega

lemma Fresh.entering (hs : Fresh s) (hne : s.argv ≠ []) (hminus : charAt p.optstring 0 ≠ '-')
    (hplus : charAt p.optstring 0 ≠ '+') (hposix : p.posixlyCorrect = false)
    (henv : p.environment = false) (hregular : regular p 0 (s.argv.drop 1) = true) :
    Entering p (wanted p s.argv) (weight s.argv) s := by
  have hinit : s.optind = 0 ∨ s.initialized = false := by
    rcases hs with h | h
    · exact .inl h
    · exact .inr h.2
  have hone : (if s.optind = 0 then 1 else s.optind) = 1 := by
    rcases hs with h | h
    · rw [if_pos h]
    · rw [if_neg (by omega)]
      exact h.1
  obtain ⟨program, ws, hargv⟩ := List.exists_cons_of_ne_nil hne
  have henter : enter p s = (p.optstring, { s with
      optarg := none
      optind := 1
      firstNonopt := 1
      lastNonopt := 1
      nextchar := none
      posixlyCorrect := false
      ordering := .permute
      initialized := true }) := by
    unfold enter getoptInitialize
    simp [hinit, hminus, hplus, hposix, henv, hone]
  refine ⟨hne, by rw [henter], ?_⟩
  rw [henter]
  refine .inl ⟨[program], [], [], ws, ?_, ?_⟩
  · refine ⟨by simp [hargv], rfl, rfl, rfl, by simp, rfl, rfl, .inl rfl, ?_, ?_, ?_, ?_⟩
    · simp [wanted, hargv]
    · simp [wanted, hargv]
    · simp [wanted, hargv]
    · simpa [hargv] using hregular
  · rw [hargv, weight_cons]
    omega

/-- Calling `_getopt_internal_r` until it returns -1 permutes `argv` as it should, when
no option word of the scan is irregular. -/
theorem getopt_permutes (p : Params) (s : State) (hs : Fresh s)
    (hminus : charAt p.optstring 0 ≠ '-') (hplus : charAt p.optstring 0 ≠ '+')
    (hposix : p.posixlyCorrect = false) (henv : p.environment = false)
    (hregular : regular p 0 (s.argv.drop 1) = true) :
    Returns (getoptRun p (weight s.argv + 1) s) (Permuted p s.argv) := by
  by_cases hne : s.argv = []
  · refine ⟨s, ?_, ?_⟩
    · exact iterate_exit (by rw [callBody, getoptInternalR, if_pos (by simp [hne])]; rfl)
    · constructor <;> simp [hne, classify]
  · have hstart := hs.entering hne hminus hplus hposix henv hregular
    exact (iterate_closer (callBody_returns hminus hplus) hstart (Nat.lt_succ_self _)).mono
      fun s' h => h.permuted

end

def ambiguousParams : Params where
  optstring := ['W', ';', 'a']
  longopts := some [⟨['f', 'o', 'o'], 0, none, 1⟩, ⟨['f', 'o', 'b'], 0, none, 2⟩]
  longOnly := false
  posixlyCorrect := false
  environment := false

/-- The state of a program that is about to scan `argv` and prints no messages. -/
def initial (argv : List Word) : State where
  argv := argv
  optind := 1
  opterr := 0
  optopt := 63
  optarg := none
  initialized := false
  nextchar := none
  ordering := .permute
  posixlyCorrect := false
  firstNonopt := 0
  lastNonopt := 0
  longind := none
  stores := []
  stderr := []

theorem getopt_permutes_initial : Returns (getoptRun ambiguousParams
        (weight (initial [['p'], ['x'], ['-', 'a'], ['-', 'W'], ['f', 'o', 'o']]).argv + 1)
        (initial [['p'], ['x'], ['-', 'a'], ['-', 'W'], ['f', 'o', 'o']]))
      (Permuted ambiguousParams [['p'], ['x'], ['-', 'a'], ['-', 'W'], ['f', 'o', 'o']]) :=
  getopt_permutes ambiguousParams
    (initial [['p'], ['x'], ['-', 'a'], ['-', 'W'], ['f', 'o', 'o']])
    (.inr ⟨rfl, rfl⟩) (by decide) (by decide) rfl rfl (by decide)

def ambiguousLine : List Word := [['p'], ['-', 'W'], ['f', 'o'], ['x'], ['-', 'a']]

/-- After the ambiguous `-W fo` the word `x` is skipped as if it belonged to the option:
the run ends with nothing remaining. -/
theorem ambiguousW_loses_word : Fresh (initial ambiguousLine) ∧ ¬ Returns
      (getoptRun ambiguousParams (weight ambiguousLine + 1) (initial ambiguousLine))
      (Permuted ambiguousParams ambiguousLine) := by
  refine ⟨.inr ⟨rfl, rfl⟩, ?_⟩
  rintro ⟨s, hrun, hs⟩
  have hargv : (getoptRun ambiguousParams (weight ambiguousLine + 1)
      (initial ambiguousLine)).map (·.argv) = .ok ambiguousLine := by decide
  rw [hrun] at hargv
  have horder := hs.order
  have hsame : s.argv = ambiguousLine := by simpa [Except.map] using hargv
  rw [hsame] at horder
  revert horder
  decide

end Eglibc.Getopt
