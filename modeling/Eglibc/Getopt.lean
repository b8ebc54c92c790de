import Eglibc.Checked

/-!
# Command line scanning

`posix/getopt.c`: `exchange`, `_getopt_initialize` and `_getopt_internal_r`. A string is
the list of its characters without the NUL, a pointer into it is the rest from there, and
a null pointer is `none`.
-/
namespace Eglibc.Getopt
open Checked

abbrev Word := List Char

/-- `s[i]` for an index that is at most the length of the string. -/
def charAt (s : Word) (i : ℕ) : Char := s.getD i '\x00'

/-- The value of a `char` that is returned as an `int`. -/
def charInt (c : Char) : ℤ := if c.toNat < 128 then c.toNat else c.toNat - 256

/-- `struct option`; the table ends where the list does, and `flag` is an address. -/
structure Longopt where
  name : Word
  hasArg : ℤ
  flag : Option ℕ
  val : ℤ
  deriving DecidableEq, Repr

inductive Order
  | requireOrder
  | permute
  | returnInOrder
  deriving DecidableEq, Repr

/-- The arguments of `_getopt_internal_r` that do not change from call to call. -/
structure Params where
  optstring : Word
  longopts : Option (List Longopt)
  longOnly : Bool
  posixlyCorrect : Bool
  /-- `getenv ("POSIXLY_CORRECT")` finds a value. -/
  environment : Bool

/-- `struct _getopt_data` with what the calls write besides: `argv`, `*longind`, the
stores through `flag` pointers and the messages on `stderr`. -/
structure State where
  argv : List Word
  optind : ℕ
  opterr : ℤ
  optopt : ℤ
  optarg : Option Word
  initialized : Bool
  nextchar : Option Word
  ordering : Order
  posixlyCorrect : Bool
  firstNonopt : ℕ
  lastNonopt : ℕ
  longind : Option ℤ
  stores : List (ℕ × ℤ)
  stderr : List Word
  deriving DecidableEq, Repr

/-- The swapping loops of `exchange`: `argv[a + i]` with `argv[b + i]` for each `i < len`. -/
def swapSegments (argv : List Word) (a b : ℕ) : ℕ → Run (List Word)
  | 0 => .ok argv
  | len + 1 => do
      let tem ← load argv a
      let other ← load argv b
      let argv ← store argv a other
      let argv ← store argv b tem
      swapSegments argv (a + 1) (b + 1) len

structure Exchange where
  argv : List Word
  bottom : ℕ
  middle : ℕ
  top : ℕ

def exchangeBody (e : Exchange) : Run (Exchange ⊕ List Word) :=
  if e.top > e.middle ∧ e.middle > e.bottom then
    if e.top - e.middle > e.middle - e.bottom then do
      -- the bottom segment is the short one
      let len := e.middle - e.bottom
      let argv ← swapSegments e.argv e.bottom (e.top - len) len
      .ok (.inl { e with argv := argv, top := e.top - len })
    else do
      let len := e.top - e.middle
      let argv ← swapSegments e.argv e.bottom e.middle len
      .ok (.inl { e with argv := argv, bottom := e.bottom + len })
  else .ok (.inr e.argv)

def exchange (s : State) : Run State := do
  let argv ← iterate exchangeBody (s.optind + 1) ⟨s.argv, s.firstNonopt, s.lastNonopt, s.optind⟩
  .ok { s with
    argv := argv
    firstNonopt := s.firstNonopt + (s.optind - s.lastNonopt)
    lastNonopt := s.optind }

def getoptInitialize (p : Params) (s : State) : Word × State :=
  let correct := p.posixlyCorrect || p.environment
  let s := { s with
    firstNonopt := s.optind
    lastNonopt := s.optind
    nextchar := none
    posixlyCorrect := correct }
  if charAt p.optstring 0 = '-' then (p.optstring.drop 1, { s with ordering := .returnInOrder })
  else if charAt p.optstring 0 = '+' then
    (p.optstring.drop 1, { s with ordering := .requireOrder })
  else if correct then (p.optstring, { s with ordering := .requireOrder })
  else (p.optstring, { s with ordering := .permute })

def nonoption (w : Word) : Bool := charAt w 0 ≠ '-' || charAt w 1 = '\x00'

def skipBody (argv : List Word) (optind : ℕ) : Run (ℕ ⊕ ℕ) :=
  if optind < argv.length then do
    let w ← load argv optind
    .ok (if nonoption w then .inl (optind + 1) else .inr optind)
  else .ok (.inr optind)

/-- If we have just processed some options following some non-options, exchange them. -/
def moveOptions (s : State) : Run State :=
  if s.firstNonopt ≠ s.lastNonopt ∧ s.lastNonopt ≠ s.optind then exchange s
  else .ok (if s.lastNonopt ≠ s.optind then { s with firstNonopt := s.optind } else s)

/-- The part of the advance that only `PERMUTE` has: bring the options forward, then
skip further non-options. -/
def permute (s : State) : Run State := do
  let s ← moveOptions s
  let optind ← iterate (skipBody s.argv) (s.argv.length + 1) s.optind
  .ok { s with optind := optind, lastNonopt := optind }

/-- The word `--` is exchanged with the non-options before it like an option. -/
def moveDashes (s : State) : Run State :=
  if s.firstNonopt ≠ s.lastNonopt ∧ s.lastNonopt ≠ s.optind then exchange s
  else .ok (if s.firstNonopt = s.lastNonopt then { s with firstNonopt := s.optind } else s)

def prematureEnd (s : State) : Run State := do
  let s ← moveDashes { s with optind := s.optind + 1 }
  .ok { s with lastNonopt := s.argv.length, optind := s.argv.length }

/-- `__first_nonopt` and `__last_nonopt` get rational values when the caller has moved
`optind` back. -/
def clamp (s : State) : State :=
  let s := if s.lastNonopt > s.optind then { s with lastNonopt := s.optind } else s
  if s.firstNonopt > s.optind then { s with firstNonopt := s.optind } else s

def endOptions (s : State) : Run State :=
  if s.optind ≠ s.argv.length then do
    let w ← load s.argv s.optind
    if w = ['-', '-'] then prematureEnd s else .ok s
  else .ok s

/-- Stop at the end of `argv`, or find the next option word. -/
def nextWord (p : Params) (s : State) : Run (State ⊕ ℤ × State) :=
  if s.optind = s.argv.length then
    .ok (.inr (-1, if s.firstNonopt ≠ s.lastNonopt then { s with optind := s.firstNonopt } else s))
  else do
    let w ← load s.argv s.optind
    if nonoption w then
      if s.ordering = .requireOrder then .ok (.inr (-1, s))
      else .ok (.inr (1, { s with optarg := some w, optind := s.optind + 1 }))
    else
      let dashes := if p.longopts.isSome ∧ charAt w 1 = '-' then 2 else 1
      .ok (.inl { s with nextchar := some (w.drop dashes) })

def advance (p : Params) (s : State) : Run (State ⊕ ℤ × State) := do
  let s ← if s.ordering = .permute then permute (clamp s) else .ok (clamp s)
  let s ← endOptions s
  nextWord p s

/-- What the search of the long options has found: the entry with its index, whether
its name is the given one, and the further candidates, the last one first. -/
structure Found where
  pfound : Option (Longopt × ℕ)
  exact : Bool
  ambigList : List Longopt

def longLoop (longOnly : Bool) (abbreviates names : Longopt → Bool) :
    List Longopt → ℕ → Found → Found
  | [], _, f => f
  | p :: ps, optionIndex, f =>
      if abbreviates p then
        if names p then { f with pfound := some (p, optionIndex), exact := true }
        else match f.pfound with
          | none =>
              longLoop longOnly abbreviates names ps (optionIndex + 1)
                { f with pfound := some (p, optionIndex) }
          | some (q, _) =>
              longLoop longOnly abbreviates names ps (optionIndex + 1)
                (if longOnly ∨ q.hasArg ≠ p.hasArg ∨ q.flag ≠ p.flag ∨ q.val ≠ p.val then
                  { f with ambigList := p :: f.ambigList } else f)
      else longLoop longOnly abbreviates names ps (optionIndex + 1) f

def nameOf (nextchar : Word) : Word := nextchar.takeWhile (· ≠ '=')

def nameend (nextchar : Word) : Word := nextchar.dropWhile (· ≠ '=')

/-- The search for `--name`, where `namelen` is an `unsigned int`. -/
def findLong (longOnly : Bool) (longopts : List Longopt) (nextchar : Word) : Found :=
  let namelen := (nameOf nextchar).length % 2 ^ 32
  longLoop longOnly (fun p => p.name.take namelen = nextchar.take namelen)
    (fun p => namelen = p.name.length % 2 ^ 32) longopts 0 ⟨none, false, []⟩

/-- The search for `-W name`, which truncates only one side of the length test. -/
def findW (longOnly : Bool) (longopts : List Longopt) (nextchar : Word) : Found :=
  let namelen := (nameOf nextchar).length
  longLoop longOnly (fun p => p.name.take namelen = nextchar.take namelen)
    (fun p => namelen % 2 ^ 32 = p.name.length) longopts 0 ⟨none, false, []⟩

def text (s : String) : Word := s.toList

def program (s : State) : Word := s.argv.headD []

def report (printErrors : Bool) (message : Word) (s : State) : State :=
  if printErrors then { s with stderr := s.stderr ++ [program s ++ text ": " ++ message ++ text "\n"] }
  else s

def missing (optstring : Word) : ℤ := charInt (if charAt optstring 0 = ':' then ':' else '?')

/-- Answer with a long option whose argument has been dealt with. -/
def answerLong (found : Longopt) (optionIndex : ℕ) (s : State) : ℤ × State :=
  let s := { s with nextchar := some [], longind := s.longind.map fun _ => (optionIndex : ℤ) }
  match found.flag with
  | some address => (0, { s with stores := s.stores ++ [(address, found.val)] })
  | none => (found.val, s)

/-- A long option that was found, `--name` or `-name`; `w` is its word. -/
def takeLong (optstring : Word) (printErrors : Bool) (w nextchar : Word) (found : Longopt)
    (optionIndex : ℕ) (s : State) : Run (ℤ × State) :=
  let s := { s with optind := s.optind + 1 }
  if nameend nextchar ≠ [] then
    if found.hasArg ≠ 0 then
      .ok (answerLong found optionIndex { s with optarg := some ((nameend nextchar).drop 1) })
    else
      let dashes := if charAt w 1 = '-' then text "--" else [charAt w 0]
      let s := report printErrors
        (text "option '" ++ dashes ++ found.name ++ text "' doesn't allow an argument") s
      .ok (charInt '?', { s with nextchar := some [], optopt := found.val })
  else if found.hasArg = 1 then
    if s.optind < s.argv.length then do
      let a ← load s.argv s.optind
      .ok (answerLong found optionIndex { s with optarg := some a, optind := s.optind + 1 })
    else
      let s := report printErrors (text "option '--" ++ found.name ++ text "' requires an argument") s
      .ok (missing optstring, { s with nextchar := some [], optopt := found.val })
  else .ok (answerLong found optionIndex s)

/-- The long option that `-W` was given as its argument; `w` is that argument. -/
def takeW (optstring : Word) (printErrors : Bool) (w : Word) (found : Longopt)
    (optionIndex : ℕ) (s : State) : Run (ℤ × State) :=
  if nameend w ≠ [] then
    if found.hasArg ≠ 0 then
      .ok (answerLong found optionIndex { s with optarg := some ((nameend w).drop 1) })
    else
      let s := report printErrors
        (text "option '-W " ++ found.name ++ text "' doesn't allow an argument") s
      .ok (charInt '?', { s with nextchar := some [] })
  else if found.hasArg = 1 then
    if s.optind < s.argv.length then do
      let a ← load s.argv s.optind
      .ok (answerLong found optionIndex { s with optarg := some a, optind := s.optind + 1 })
    else
      let s := report printErrors (text "option '-W " ++ found.name ++ text "' requires an argument") s
      .ok (missing optstring, { s with nextchar := some [] })
  else .ok (answerLong found optionIndex { s with optarg := none })

/-- `-W` with its argument `w`, looked up in the table. -/
def longW (p : Params) (optstring : Word) (printErrors : Bool) (longopts : List Longopt)
    (w : Word) (s : State) : Run (ℤ × State) :=
  let f := findW p.longOnly longopts w
  if f.ambigList ≠ [] ∧ f.exact = false then
    let s := report printErrors (text "option '-W " ++ w ++ text "' is ambiguous") s
    .ok (charInt '?', { s with nextchar := some [], optind := s.optind + 1 })
  else match f.pfound with
    | some (found, optionIndex) => takeW optstring printErrors w found optionIndex s
    | none => .ok (charInt 'W', { s with nextchar := none })

def missingShort (optstring : Word) (printErrors : Bool) (c : Char) (s : State) : ℤ × State :=
  let s := report printErrors (text "option requires an argument -- '" ++ [c] ++ text "'") s
  (missing optstring, { s with optopt := charInt c })

/-- POSIX `-W foo`, the same as the long option `--foo`. -/
def shortW (p : Params) (optstring : Word) (printErrors : Bool) (c : Char) (nextchar : Word)
    (s : State) : Run (ℤ × State) :=
  match p.longopts with
  | none => .ok (charInt 'W', { s with nextchar := none })
  | some longopts =>
    if nextchar ≠ [] then
      longW p optstring printErrors longopts nextchar
        { s with optarg := some nextchar, optind := s.optind + 1 }
    else if s.optind = s.argv.length then .ok (missingShort optstring printErrors c s)
    else do
      let a ← load s.argv s.optind
      longW p optstring printErrors longopts a { s with optarg := some a, optind := s.optind + 1 }

def shortArgument (optstring : Word) (printErrors : Bool) (optional : Bool) (c : Char)
    (nextchar : Word) (s : State) : Run (ℤ × State) :=
  if nextchar ≠ [] then
    .ok (charInt c, { s with optarg := some nextchar, optind := s.optind + 1, nextchar := none })
  else if optional then .ok (charInt c, { s with optarg := none, nextchar := none })
  else if s.optind = s.argv.length then
    let r := missingShort optstring printErrors c s
    .ok (r.1, { r.2 with nextchar := none })
  else do
    let a ← load s.argv s.optind
    .ok (charInt c, { s with optarg := some a, optind := s.optind + 1, nextchar := none })

def shortOption (p : Params) (optstring : Word) (printErrors : Bool) (nextchar : Word)
    (s : State) : Run (ℤ × State) :=
  match nextchar with
  | [] => .error (.read 0)
  | c :: rest =>
    let temp := optstring.dropWhile (· ≠ c)
    -- optind moves on when the last character of the word is started
    let s := { s with
      nextchar := some rest
      optind := if rest = [] then s.optind + 1 else s.optind }
    if temp = [] ∨ c = ':' ∨ c = ';' then
      let s := report printErrors (text "invalid option -- '" ++ [c] ++ text "'") s
      .ok (charInt '?', { s with optopt := charInt c })
    else if charAt temp 0 = 'W' ∧ charAt temp 1 = ';' then
      shortW p optstring printErrors c rest s
    else if charAt temp 1 = ':' then
      shortArgument optstring printErrors (charAt temp 2 = ':') c rest s
    else .ok (charInt c, s)

/-- A word that may name a long option; what is not found there may still be a short one. -/
def longOption (p : Params) (optstring : Word) (printErrors : Bool) (longopts : List Longopt)
    (w nextchar : Word) (s : State) : Run (ℤ × State) :=
  let f := findLong p.longOnly longopts nextchar
  if f.ambigList ≠ [] ∧ f.exact = false then
    let candidates := (f.pfound.toList.map Prod.fst ++ f.ambigList).flatMap fun q =>
      text " '--" ++ q.name ++ text "'"
    let s := report printErrors
      (text "option '" ++ w ++ text "' is ambiguous; possibilities:" ++ candidates) s
    .ok (charInt '?', { s with nextchar := some [], optind := s.optind + 1, optopt := 0 })
  else match f.pfound with
    | some (found, optionIndex) => takeLong optstring printErrors w nextchar found optionIndex s
    | none =>
      if p.longOnly = false ∨ charAt w 1 = '-' ∨ charAt nextchar 0 ∉ optstring then
        let dashes := if charAt w 1 = '-' then text "--" else [charAt w 0]
        let s := report printErrors (text "unrecognized option '" ++ dashes ++ nextchar ++ text "'") s
        .ok (charInt '?', { s with nextchar := some [], optind := s.optind + 1, optopt := 0 })
      else shortOption p optstring printErrors nextchar s

def triesLong (p : Params) (optstring w : Word) : Bool :=
  charAt w 1 = '-' || (p.longOnly && (charAt w 2 ≠ '\x00' || charAt w 1 ∉ optstring))

/-- Decode the current option word from `nextchar` on. -/
def decode (p : Params) (optstring : Word) (printErrors : Bool) (s : State) : Run (ℤ × State) :=
  let nextchar := s.nextchar.getD []
  match p.longopts with
  | none => shortOption p optstring printErrors nextchar s
  | some longopts => do
      let w ← load s.argv s.optind
      if triesLong p optstring w then longOption p optstring printErrors longopts w nextchar s
      else shortOption p optstring printErrors nextchar s

def enter (p : Params) (s : State) : Word × State :=
  let s := { s with optarg := none }
  if s.optind = 0 ∨ s.initialized = false then
    let r := getoptInitialize p { s with optind := if s.optind = 0 then 1 else s.optind }
    (r.1, { r.2 with initialized := true })
  else if charAt p.optstring 0 = '-' ∨ charAt p.optstring 0 = '+' then (p.optstring.drop 1, s)
  else (p.optstring, s)

def scanCall (p : Params) (optstring : Word) (s : State) : Run (ℤ × State) :=
  let printErrors := decide (s.opterr ≠ 0) && decide (charAt optstring 0 ≠ ':')
  if s.nextchar = none ∨ s.nextchar = some [] then do
    match ← advance p s with
    | .inl s => decode p optstring printErrors s
    | .inr r => .ok r
  else decode p optstring printErrors s

def getoptInternalR (p : Params) (s : State) : Run (ℤ × State) :=
  if s.argv.length < 1 then .ok (-1, s)
  else
    let r := enter p s
    scanCall p r.1 r.2

def callBody (p : Params) (s : State) : Run (State ⊕ State) := do
  let r ← getoptInternalR p s
  .ok (if r.1 = -1 then .inr r.2 else .inl r.2)

/-- Call `_getopt_internal_r` until it returns -1, for at most `calls` calls. -/
def getoptRun (p : Params) (calls : ℕ) (s : State) : Run State := iterate (callBody p) calls s

end Eglibc.Getopt
