import Eglibc.Getopt

/-!
# What one call of the scan does

`read` and `arguments` are the plain reading of an option word, without indices or state.
-/
namespace Eglibc.Getopt
open Checked

variable {rest : Word} {c : Char}

section
variable {xs ws : List Word} {w : Word} {i : ℕ}

lemma load_drop (h : xs.drop i = w :: ws) : load xs i = .ok w := by
  have hget : xs[i]? = some w := by rw [← List.head?_drop, h, List.head?_cons]
  rw [load, hget]

lemma drop_succ (h : xs.drop i = w :: ws) : xs.drop (i + 1) = ws := by
  rw [← List.tail_drop, h, List.tail_cons]

lemma length_drop_cons (h : xs.drop i = w :: ws) : xs.length = i + 1 + ws.length := by
  have hlen := congrArg List.length h
  simp at hlen
  omega

lemma load_middle (P S : List Word) : load (P ++ w :: S) P.length = .ok w :=
  load_drop (List.drop_left)

lemma store_middle (P S : List Word) (v : Word) :
    store (P ++ w :: S) P.length v = .ok (P ++ v :: S) := by
  rw [store_eq (by simp), List.set_append_right _ _ le_rfl, Nat.sub_self, List.set_cons_zero]

lemma swapSegments_eq (P X M Y S : List Word) (h : X.length = Y.length) :
    swapSegments (P ++ X ++ M ++ Y ++ S) P.length (P.length + X.length + M.length) X.length =
      .ok (P ++ Y ++ M ++ X ++ S) := by
  induction X generalizing P M Y with
  | nil =>
    obtain rfl : Y = [] := List.length_eq_zero_iff.mp h.symm
    rfl
  | cons x X ih =>
    cases Y with
    | nil => cases h
    | cons y Y =>
      have hxy : X.length = Y.length := by simpa using h
      have hb (z : Word) : P.length + (x :: X).length + M.length = (P ++ z :: X ++ M).length := by
        simp only [List.length_append, List.length_cons]
      have hrest : swapSegments (P ++ [y] ++ X ++ (M ++ [x]) ++ Y ++ S) (P.length + 1)
          (P.length + (x :: X).length + M.length + 1) X.length =
          .ok (P ++ [y] ++ Y ++ (M ++ [x]) ++ X ++ S) := by
        have := ih (P ++ [y]) (M ++ [x]) Y hxy
        rw [show (P ++ [y]).length = P.length + 1 by simp] at this
        rw [← this]
        congr 1
        simp
        omega
      have hloada : load (P ++ x :: X ++ M ++ y :: Y ++ S) P.length = .ok x := by
        have := load_middle P (X ++ M ++ y :: Y ++ S) (w := x)
        simpa using this
      have hloadb : load (P ++ x :: X ++ M ++ y :: Y ++ S)
          (P.length + (x :: X).length + M.length) = .ok y := by
        rw [hb x]
        have := load_middle (P ++ x :: X ++ M) (Y ++ S) (w := y)
        simpa using this
      have hstorea : store (P ++ x :: X ++ M ++ y :: Y ++ S) P.length y =
          .ok (P ++ y :: X ++ M ++ y :: Y ++ S) := by
        have := store_middle P (X ++ M ++ y :: Y ++ S) y (w := x)
        simpa using this
      have hstoreb : store (P ++ y :: X ++ M ++ y :: Y ++ S)
          (P.length + (x :: X).length + M.length) x = .ok (P ++ y :: X ++ M ++ x :: Y ++ S) := by
        rw [hb y]
        have := store_middle (P ++ y :: X ++ M) (Y ++ S) x (w := y)
        simpa using this
      rw [List.length_cons, swapSegments, hloada, ok_bind, ← List.length_cons (a := x), hloadb,
        ok_bind, hstorea, ok_bind, hstoreb, ok_bind]
      simpa using hrest

end

/-- The segments `[bottom, middle)` and `[middle, top)` still have to change places. -/
def Exchanging (target : List Word) (e : Exchange) : Prop :=
  ∃ P X Y S, e.argv = P ++ X ++ Y ++ S ∧ P ++ Y ++ X ++ S = target ∧ e.bottom = P.length ∧
    e.middle = P.length + X.length ∧ e.top = P.length + X.length + Y.length

lemma exchangeBody_returns {target : List Word} (e : Exchange) (h : Exchanging target e) :
    Returns (exchangeBody e)
      (Pass (Exchanging target) (fun e => e.top - e.bottom) (· = target) e) := by
  obtain ⟨P, X, Y, S, hargv, htarget, hbottom, hmiddle, htop⟩ := h
  unfold exchangeBody
  by_cases hrun : e.top > e.middle ∧ e.middle > e.bottom
  · rw [if_pos hrun]
    by_cases hshort : e.top - e.middle > e.middle - e.bottom
    · -- Y ends in a segment of the length of X, which goes to the bottom
      obtain ⟨Y1, Y2, rfl, hlen⟩ := exists_split (show Y.length - X.length ≤ Y.length by omega)
      rw [List.length_append] at hlen htop
      have hswap : swapSegments e.argv e.bottom (e.top - (e.middle - e.bottom))
          (e.middle - e.bottom) = .ok (P ++ Y2 ++ Y1 ++ X ++ S) := by
        rw [show e.top - (e.middle - e.bottom) = P.length + X.length + Y1.length by omega,
          show e.middle - e.bottom = X.length by omega, hbottom, hargv,
          ← swapSegments_eq P X Y1 Y2 S (by omega)]
        simp
      rw [if_pos hshort]
      dsimp only
      rw [hswap]
      refine returns_ok ⟨⟨P, Y2, Y1, X ++ S, by simp, by simpa using htarget, hbottom, ?_, ?_⟩, ?_⟩
      all_goals dsimp only
      all_goals omega
    obtain ⟨X1, X2, rfl, hlen⟩ := exists_split (show Y.length ≤ X.length by omega)
    rw [List.length_append] at hmiddle htop
    have hswap : swapSegments e.argv e.bottom e.middle (e.top - e.middle) =
        .ok (P ++ Y ++ X2 ++ X1 ++ S) := by
      rw [show e.top - e.middle = X1.length by omega,
        show e.middle = P.length + X1.length + X2.length by omega, hbottom, hargv,
        ← swapSegments_eq P X1 X2 Y S hlen]
      simp
    rw [if_neg hshort]
    dsimp only
    rw [hswap]
    refine returns_ok ⟨⟨P ++ Y, X2, X1, S, by simp, by simpa using htarget, ?_, ?_, ?_⟩, ?_⟩
    all_goals simp only [List.length_append]
    all_goals omega
  rw [if_neg hrun]
  refine returns_ok ?_
  show e.argv = target
  have hnil : X = [] ∨ Y = [] := by
    rw [← List.length_eq_zero_iff, ← List.length_eq_zero_iff]
    omega
  rcases hnil with rfl | rfl
  · rw [hargv, ← htarget]
    simp
  · rw [hargv, ← htarget]
    simp

lemma exchange_eq {s : State} {A N O R : List Word} (hargv : s.argv = A ++ N ++ O ++ R)
    (hfirst : s.firstNonopt = A.length) (hlast : s.lastNonopt = A.length + N.length)
    (hoptind : s.optind = A.length + N.length + O.length) : exchange s = .ok { s with
      argv := A ++ O ++ N ++ R
      firstNonopt := A.length + O.length
      lastNonopt := s.optind } := by
  obtain ⟨argv, hrun, rfl⟩ : Returns (iterate exchangeBody (s.optind + 1)
      ⟨s.argv, s.firstNonopt, s.lastNonopt, s.optind⟩) (· = A ++ O ++ N ++ R) := by
    refine iterate_returns _ exchangeBody_returns ⟨A, N, O, R, hargv, rfl, hfirst, hlast, hoptind⟩ ?_
    dsimp only
    omega
  rw [exchange, hrun, ok_bind, show s.firstNonopt + (s.optind - s.lastNonopt) = A.length + O.length by
    omega]

/-- How a call reads an option: the word goes on behind the character, or the option ends
it and takes a number of the following words, or, with `-W`, the code takes them and
loses its place in `argv`. -/
inductive Reading
  | more (answer : ℤ)
  | ends (answer : ℤ) (arguments : ℕ)
  | stray (arguments : ℕ)
  deriving DecidableEq, Repr

def longAnswer (found : Longopt) : ℤ := if found.flag.isSome then 0 else found.val

def readFound (optstring given : Word) (found : Longopt) (ws : List Word) : ℤ × ℕ :=
  if nameend given ≠ [] then
    (if found.hasArg ≠ 0 then longAnswer found else charInt '?', 0)
  else if found.hasArg = 1 then
    if ws = [] then (missing optstring, 0) else (longAnswer found, 1)
  else (longAnswer found, 0)

/-- The argument of `-W`, with `taken` words taken for it. An ambiguous one loses a word. -/
def readW (p : Params) (longopts : List Longopt) (given : Word) (ws : List Word) (taken : ℕ) :
    Reading :=
  let f := findW p.longOnly longopts given
  if f.ambigList ≠ [] ∧ f.exact = false then .stray taken
  else match f.pfound with
    | some (found, _) =>
        let r := readFound p.optstring given found ws
        .ends r.1 (taken + r.2)
    | none => .ends (charInt 'W') taken

/-- A short option without an argument ends the word when it is its last character. -/
def readFlag (answer : ℤ) (rest : Word) : Reading :=
  if rest = [] then .ends answer 0 else .more answer

/-- `-W`. Without a table the scan would come back to a word `-Wfoo` for ever. -/
def readShortW (p : Params) (rest : Word) (ws : List Word) : Reading :=
  match p.longopts, rest, ws with
  | none, [], _ => .ends (charInt 'W') 0
  | none, _ :: _, _ => .stray 0
  | some longopts, a :: as, ws => readW p longopts (a :: as) ws 0
  | some _, [], [] => .ends (missing p.optstring) 0
  | some longopts, [], a :: ws => readW p longopts a ws 1

def readArgument (optstring : Word) (optional : Bool) (c : Char) (rest : Word)
    (ws : List Word) : Reading :=
  if rest ≠ [] ∨ optional = true then .ends (charInt c) 0
  else if ws = [] then .ends (missing optstring) 0
  else .ends (charInt c) 1

def readShort (p : Params) (c : Char) (rest : Word) (ws : List Word) : Reading :=
  let temp := p.optstring.dropWhile (· ≠ c)
  if temp = [] ∨ c = ':' ∨ c = ';' then readFlag (charInt '?') rest
  else if charAt temp 0 = 'W' ∧ charAt temp 1 = ';' then readShortW p rest ws
  else if charAt temp 1 = ':' then readArgument p.optstring (charAt temp 2 = ':') c rest ws
  else readFlag (charInt c) rest

def readLong (p : Params) (longopts : List Longopt) (w : Word) (c : Char) (rest : Word)
    (ws : List Word) : Reading :=
  let f := findLong p.longOnly longopts (c :: rest)
  if f.ambigList ≠ [] ∧ f.exact = false then .ends (charInt '?') 0
  else match f.pfound with
    | some (found, _) =>
        let r := readFound p.optstring (c :: rest) found ws
        .ends r.1 r.2
    | none =>
      if p.longOnly = false ∨ charAt w 1 = '-' ∨ c ∉ p.optstring then .ends (charInt '?') 0
      else readShort p c rest ws

def read (p : Params) (w : Word) (ws : List Word) (c : Char) (rest : Word) : Reading :=
  match p.longopts with
  | none => readShort p c rest ws
  | some longopts =>
    if triesLong p p.optstring w then readLong p longopts w c rest ws else readShort p c rest ws

def Keeps (s s' : State) : Prop :=
  s'.argv = s.argv ∧ s'.firstNonopt = s.firstNonopt ∧ s'.lastNonopt = s.lastNonopt ∧
    s'.ordering = s.ordering ∧ s'.initialized = s.initialized

def Spent (s : State) : Prop := s.nextchar = none ∨ s.nextchar = some []

def EndsAt (s : State) (answer : ℤ) (i : ℕ) (out : ℤ × State) : Prop :=
  out.1 = answer ∧ Keeps s out.2 ∧ Spent out.2 ∧ out.2.optind = i

def Decodes (s : State) (rest : Word) (ws : List Word) : Reading → ℤ × State → Prop
  | .more answer, out =>
      out.1 = answer ∧ Keeps s out.2 ∧ rest ≠ [] ∧ out.2.nextchar = some rest ∧
        out.2.optind = s.optind
  | .ends answer n, out => n ≤ ws.length ∧ EndsAt s answer (s.optind + 1 + n) out
  | .stray _, _ => True

lemma answerLong_endsAt (found : Longopt) (optionIndex : ℕ) (s : State) :
    EndsAt s (longAnswer found) s.optind (answerLong found optionIndex s) := by
  unfold answerLong longAnswer
  cases found.flag with
  | none | some address => exact ⟨rfl, ⟨rfl, rfl, rfl, rfl, rfl⟩, .inr rfl, rfl⟩

section
variable {p : Params} {optstring w given nextchar : Word} {printErrors : Bool} {found : Longopt}
  {optionIndex : ℕ} {ws : List Word} {s t : State}

lemma EndsAt.of_keeps {answer : ℤ} {i : ℕ} {out : ℤ × State} (h : EndsAt t answer i out)
    (hk : Keeps s t) : EndsAt s answer i out := by
  obtain ⟨ha, ⟨h₁, h₂, h₃, h₄, h₅⟩, hs, hi⟩ := h
  obtain ⟨k₁, k₂, k₃, k₄, k₅⟩ := hk
  exact ⟨ha, ⟨h₁.trans k₁, h₂.trans k₂, h₃.trans k₃, h₄.trans k₄, h₅.trans k₅⟩, hs, hi⟩

lemma takeW_returns (hws : s.argv.drop s.optind = ws)
    (hlen : s.argv.length = s.optind + ws.length) :
    Returns (takeW optstring printErrors given found optionIndex s)
      (EndsAt s (readFound optstring given found ws).1
        (s.optind + (readFound optstring given found ws).2)) := by
  unfold takeW readFound
  split_ifs with hname harg harg hroom hnil hnil
  · exact returns_ok (answerLong_endsAt found optionIndex _)
  · cases printErrors <;> exact returns_ok ⟨rfl, ⟨rfl, rfl, rfl, rfl, rfl⟩, .inr rfl, rfl⟩
  · simp [hnil] at hlen
    omega
  · obtain ⟨a, ws, rfl⟩ := List.exists_cons_of_ne_nil hnil
    rw [load_drop hws]
    exact returns_ok (answerLong_endsAt found optionIndex _)
  · cases printErrors <;> exact returns_ok ⟨rfl, ⟨rfl, rfl, rfl, rfl, rfl⟩, .inr rfl, rfl⟩
  · have := List.length_pos_iff.mpr hnil
    omega
  · exact returns_ok (answerLong_endsAt found optionIndex _)

lemma takeLong_returns (hws : s.argv.drop (s.optind + 1) = ws)
    (hlen : s.argv.length = s.optind + 1 + ws.length) :
    Returns (takeLong optstring printErrors w given found optionIndex s)
      (EndsAt s (readFound optstring given found ws).1
        (s.optind + 1 + (readFound optstring given found ws).2)) := by
  unfold takeLong readFound
  dsimp only
  split_ifs with hname harg hdash harg hroom hnil hnil
  · exact returns_ok (answerLong_endsAt found optionIndex _)
  · cases printErrors <;> exact returns_ok ⟨rfl, ⟨rfl, rfl, rfl, rfl, rfl⟩, .inr rfl, rfl⟩
  · cases printErrors <;> exact returns_ok ⟨rfl, ⟨rfl, rfl, rfl, rfl, rfl⟩, .inr rfl, rfl⟩
  · simp [hnil] at hlen
    omega
  · obtain ⟨a, ws, rfl⟩ := List.exists_cons_of_ne_nil hnil
    rw [load_drop hws]
    exact returns_ok (answerLong_endsAt found optionIndex _)
  · cases printErrors <;> exact returns_ok ⟨rfl, ⟨rfl, rfl, rfl, rfl, rfl⟩, .inr rfl, rfl⟩
  · have := List.length_pos_iff.mpr hnil
    omega
  · exact returns_ok (answerLong_endsAt found optionIndex _)

lemma readFound_le (optstring given : Word) (found : Longopt) (ws : List Word) :
    (readFound optstring given found ws).2 ≤ ws.length := by
  unfold readFound
  cases ws with
  | nil => split_ifs <;> simp_all
  | cons a ws => split_ifs <;> simp

theorem longW_returns {longopts : List Longopt} {taken : ℕ} {vs : List Word}
    (hws : t.argv.drop t.optind = ws) (hlen : t.argv.length = t.optind + ws.length)
    (hk : Keeps s t) (hoptind : t.optind = s.optind + 1 + taken)
    (hvs : vs.length = taken + ws.length) :
    Returns (longW p p.optstring printErrors longopts given t)
      (Decodes s rest vs (readW p longopts given ws taken)) := by
  unfold longW readW
  by_cases hambig : (findW p.longOnly longopts given).ambigList ≠ [] ∧
      (findW p.longOnly longopts given).exact = false
  · simpa [hambig] using returns_ok trivial
  rw [if_neg hambig, if_neg hambig]
  cases (findW p.longOnly longopts given).pfound with
  | none => exact returns_ok ⟨by omega, rfl, hk, .inl rfl, hoptind⟩
  | some r =>
    refine (takeW_returns hws hlen).mono ?_
    intro out hout
    constructor
    · have := readFound_le p.optstring given r.1 ws
      omega
    · rw [hoptind, Nat.add_assoc _ taken] at hout
      exact hout.of_keeps hk

lemma missingShort_endsAt (c : Char) (h : Spent s) :
    EndsAt s (missing optstring) s.optind (missingShort optstring printErrors c s) := by
  cases printErrors <;> exact ⟨rfl, ⟨rfl, rfl, rfl, rfl, rfl⟩, h, rfl⟩

abbrev started (s : State) (rest : Word) : State :=
  { s with nextchar := some rest, optind := if rest = [] then s.optind + 1 else s.optind }

lemma readFlag_decodes {answer : ℤ} (hk : Keeps s t)
    (hnext : t.nextchar = some rest) (hoptind : t.optind = (started s rest).optind) :
    Decodes s rest ws (readFlag answer rest) (answer, t) := by
  cases rest with
  | nil => exact ⟨by omega, rfl, hk, .inr hnext, hoptind⟩
  | cons a as => exact ⟨rfl, hk, List.cons_ne_nil _ _, hnext, hoptind⟩

section
variable (hat : s.argv.drop s.optind = w :: ws)
include hat

lemma shortArgument_returns {optional : Bool} :
    Returns (shortArgument optstring printErrors optional c rest (started s rest))
      (Decodes s rest ws (readArgument optstring optional c rest ws)) := by
  have hlen := length_drop_cons hat
  unfold shortArgument readArgument
  cases rest with
  | cons a as =>
    simpa using returns_ok ⟨by omega, rfl, ⟨rfl, rfl, rfl, rfl, rfl⟩, .inl rfl, rfl⟩
  | nil =>
    rw [if_neg (by simp)]
    cases optional with
    | true =>
      simpa using returns_ok ⟨by omega, rfl, ⟨rfl, rfl, rfl, rfl, rfl⟩, .inl rfl, rfl⟩
    | false =>
      rw [if_neg Bool.false_ne_true, if_neg (show ¬(([] : Word) ≠ [] ∨ false = true) by simp)]
      cases ws with
      | nil =>
        rw [if_pos (by simp at hlen ⊢; omega), if_pos rfl]
        have hmissing : EndsAt (started s []) (missing optstring) (s.optind + 1)
            (missingShort optstring printErrors c (started s [])) :=
          missingShort_endsAt c (.inr rfl)
        obtain ⟨ha, ⟨h₁, h₂, h₃, h₄, h₅⟩, -, hi⟩ := hmissing
        exact returns_ok ⟨le_rfl, ha, ⟨h₁, h₂, h₃, h₄, h₅⟩, .inl rfl, hi⟩
      | cons a ws =>
        have hload : load (started s []).argv (started s []).optind = .ok a :=
          load_drop (drop_succ hat)
        rw [if_neg (by simp at hlen ⊢; omega), if_neg (List.cons_ne_nil _ _), hload]
        exact returns_ok ⟨by simp, rfl, ⟨rfl, rfl, rfl, rfl, rfl⟩, .inl rfl, rfl⟩

lemma shortW_returns : Returns (shortW p p.optstring printErrors c rest (started s rest))
      (Decodes s rest ws (readShortW p rest ws)) := by
  have hlen := length_drop_cons hat
  have hws := drop_succ hat
  unfold shortW readShortW
  cases p.longopts with
  | none =>
    cases rest with
    | nil => exact returns_ok ⟨by omega, rfl, ⟨rfl, rfl, rfl, rfl, rfl⟩, .inl rfl, rfl⟩
    | cons a as => exact returns_ok trivial
  | some longopts =>
    dsimp only
    cases rest with
    | cons a as =>
      exact longW_returns hws hlen ⟨rfl, rfl, rfl, rfl, rfl⟩ rfl (by omega)
    | nil =>
      rw [if_neg (by simp)]
      cases ws with
      | nil =>
        rw [if_pos (by simp at hlen ⊢; omega)]
        exact returns_ok ⟨le_rfl, (missingShort_endsAt c (.inr rfl)).of_keeps
          ⟨rfl, rfl, rfl, rfl, rfl⟩⟩
      | cons a ws =>
        have hload : load (started s []).argv (started s []).optind = .ok a := load_drop hws
        rw [if_neg (by simp at hlen ⊢; omega), hload, ok_bind]
        refine longW_returns (drop_succ hws) ?_ ⟨rfl, rfl, rfl, rfl, rfl⟩ rfl ?_
        · simp at hlen ⊢
          omega
        · simp
          omega

lemma shortOption_returns : Returns (shortOption p p.optstring printErrors (c :: rest) s)
      (Decodes s rest ws (readShort p c rest ws)) := by
  unfold shortOption readShort
  dsimp only
  by_cases hinvalid : p.optstring.dropWhile (· ≠ c) = [] ∨ c = ':' ∨ c = ';'
  · rw [if_pos hinvalid, if_pos hinvalid]
    cases printErrors <;> exact returns_ok (readFlag_decodes ⟨rfl, rfl, rfl, rfl, rfl⟩ rfl rfl)
  rw [if_neg hinvalid, if_neg hinvalid]
  by_cases hW : charAt (p.optstring.dropWhile (· ≠ c)) 0 = 'W' ∧
      charAt (p.optstring.dropWhile (· ≠ c)) 1 = ';'
  · rw [if_pos hW, if_pos hW]
    exact shortW_returns hat
  rw [if_neg hW, if_neg hW]
  by_cases harg : charAt (p.optstring.dropWhile (· ≠ c)) 1 = ':'
  · rw [if_pos harg, if_pos harg]
    exact shortArgument_returns hat
  · rw [if_neg harg, if_neg harg]
    exact returns_ok (readFlag_decodes ⟨rfl, rfl, rfl, rfl, rfl⟩ rfl rfl)

lemma longOption_returns {longopts : List Longopt} :
    Returns (longOption p p.optstring printErrors longopts w (c :: rest) s)
      (Decodes s rest ws (readLong p longopts w c rest ws)) := by
  unfold longOption readLong
  by_cases hambig : (findLong p.longOnly longopts (c :: rest)).ambigList ≠ [] ∧
      (findLong p.longOnly longopts (c :: rest)).exact = false
  · rw [if_pos hambig, if_pos hambig]
    cases printErrors <;> exact returns_ok ⟨by omega, rfl, ⟨rfl, rfl, rfl, rfl, rfl⟩, .inr rfl, rfl⟩
  rw [if_neg hambig, if_neg hambig]
  cases (findLong p.longOnly longopts (c :: rest)).pfound with
  | some r =>
    exact (takeLong_returns (drop_succ hat) (length_drop_cons hat)).mono
      fun out hout => ⟨readFound_le _ _ _ _, hout⟩
  | none =>
    have hchar : charAt (c :: rest) 0 = c := rfl
    rw [hchar]
    by_cases hnone : p.longOnly = false ∨ charAt w 1 = '-' ∨ c ∉ p.optstring
    · rw [if_pos hnone, if_pos hnone]
      cases printErrors <;> exact returns_ok ⟨by omega, rfl, ⟨rfl, rfl, rfl, rfl, rfl⟩, .inr rfl, rfl⟩
    · simpa [hnone] using shortOption_returns hat

end

lemma decode_returns (hnext : s.nextchar = some (c :: rest))
    (hat : s.argv.drop s.optind = w :: ws) :
    Returns (decode p p.optstring printErrors s) (Decodes s rest ws (read p w ws c rest)) := by
  unfold decode read
  rw [hnext, Option.getD_some]
  cases hlong : p.longopts with
  | none => exact shortOption_returns hat
  | some longopts =>
    dsimp only
    rw [load_drop hat, ok_bind]
    by_cases htries : triesLong p p.optstring w = true
    · simpa [htries] using longOption_returns hat
    · simpa [htries] using shortOption_returns hat

end

end Eglibc.Getopt
