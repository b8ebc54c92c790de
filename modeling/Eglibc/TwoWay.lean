import Eglibc.Checked

/-!
# The Two-Way search of string/str-two-way.h

The header is included by `memmem`, `strstr` and `strcasestr`; what each of them
defines beforehand is a `Macros` value. Strings are lists of bytes, pointers into
them are indices, and a NULL result is `none`.
-/
namespace Eglibc.TwoWay
open Checked

/-- What a file defines before it includes the header. `available` also returns the new
value of its argument `h_l`; `cmpFunc` compares two places of the needle. -/
structure Macros where
  available : List UInt8 → ℕ → ℕ → ℕ → Run (Bool × ℕ)
  canonElement : UInt8 → UInt8
  cmpFunc : List UInt8 → ℕ → ℕ → ℕ → Run ℤ
  checkEol : Bool
  ret0If0 : Bool

def longNeedleThreshold : ℕ := 32

structure Factor where
  maxSuffix : ℕ
  j : ℕ
  k : ℕ
  p : ℕ
  deriving DecidableEq, Repr

variable (M : Macros)

/-- One pass of a scan. `less` is the order of the scan; `maxSuffix` starts out as
`SIZE_MAX` and is used modulo the word size. -/
def maxSuffixBody (less : UInt8 → UInt8 → Bool) (needle : List UInt8) (needleLen : ℕ)
    (s : Factor) : Run (Factor ⊕ Factor) :=
  if s.j + s.k < needleLen then do
    let a := M.canonElement (← load needle (s.j + s.k))
    let b := M.canonElement (← load needle (sizeAdd s.maxSuffix s.k))
    if less a b then
      .ok (.inl { s with j := s.j + s.k, k := 1, p := sizeSub (s.j + s.k) s.maxSuffix })
    else if a = b then
      if s.k ≠ s.p then .ok (.inl { s with k := s.k + 1 })
      else .ok (.inl { s with j := s.j + s.p, k := 1 })
    else .ok (.inl { maxSuffix := s.j, j := s.j + 1, k := 1, p := 1 })
  else .ok (.inr s)

def maxSuffixScan (less : UInt8 → UInt8 → Bool) (needle : List UInt8) (needleLen : ℕ) :
    Run Factor :=
  iterate (maxSuffixBody M less needle needleLen) (2 * needleLen + 2)
    { maxSuffix := sizeMax, j := 0, k := 1, p := 1 }

def criticalFactorization (needle : List UInt8) (needleLen : ℕ) : Run (ℕ × ℕ) := do
  let fwd ← maxSuffixScan M (fun a b => a < b) needle needleLen
  let rev ← maxSuffixScan M (fun a b => b < a) needle needleLen
  if sizeAdd rev.maxSuffix 1 < sizeAdd fwd.maxSuffix 1 then
    .ok (sizeAdd fwd.maxSuffix 1, fwd.p)
  else .ok (sizeAdd rev.maxSuffix 1, rev.p)

/-- `while (i < bound && *pneedle++ == *phaystack++) ++i` -/
def scanRightBody (haystack needle : List UInt8) (j bound : ℕ) (i : ℕ) : Run (ℕ ⊕ ℕ) :=
  if i < bound then do
    let a ← load needle i
    let b ← load haystack (i + j)
    if M.canonElement a = M.canonElement b then .ok (.inl (i + 1)) else .ok (.inr i)
  else .ok (.inr i)

def scanRight (haystack needle : List UInt8) (j bound i : ℕ) : Run ℕ :=
  iterate (scanRightBody M haystack needle j bound) (bound + 1) i

/-- `while (more (i) && *pneedle-- == *phaystack--) --i`, where `i` may reach `SIZE_MAX`. -/
def scanLeftBody (haystack needle : List UInt8) (j : ℕ) (more : ℕ → Bool) (i : ℕ) :
    Run (ℕ ⊕ ℕ) :=
  if more i then do
    let a ← load needle i
    let b ← load haystack (i + j)
    if M.canonElement a = M.canonElement b then .ok (.inl (sizeSub i 1)) else .ok (.inr i)
  else .ok (.inr i)

def scanLeft (haystack needle : List UInt8) (j : ℕ) (more : ℕ → Bool) (suffix : ℕ) : Run ℕ :=
  iterate (scanLeftBody M haystack needle j more) (suffix + 1) (sizeSub suffix 1)

structure Periodic where
  j : ℕ
  memory : ℕ
  haystackLen : ℕ
  deriving DecidableEq, Repr

/-- The comparison of one window with a periodic needle, shared by both search
functions: `bound` is where the scan of the right half ends. -/
def periodicWindow (haystack needle : List UInt8) (needleLen suffix period bound : ℕ)
    (s : Periodic) : Run (Periodic ⊕ Option ℕ) := do
  let i ← scanRight M haystack needle s.j bound (max suffix s.memory)
  if bound ≤ i then
    let i ← scanLeft M haystack needle s.j (fun i => s.memory < sizeAdd i 1) suffix
    if sizeAdd i 1 < s.memory + 1 then .ok (.inr (some s.j))
    else .ok (.inl { s with j := s.j + period, memory := needleLen - period })
  else .ok (.inl { s with j := s.j + (i - suffix + 1), memory := 0 })

def shortPeriodicBody (haystack needle : List UInt8) (needleLen suffix period : ℕ)
    (s : Periodic) : Run (Periodic ⊕ Option ℕ) := do
  let (ok, haystackLen) ← M.available haystack s.haystackLen s.j needleLen
  if ok then
    periodicWindow M haystack needle needleLen suffix period needleLen { s with haystackLen }
  else .ok (.inr none)

structure Distinct where
  j : ℕ
  phaystack : ℕ
  haystackLen : ℕ
  deriving DecidableEq, Repr

inductive Scanned
  | stop (i : ℕ)
  | ret0
  deriving DecidableEq, Repr

/-- One pass of the scan of the right half; the state is `i` and `phaystack`. -/
def eolRightBody (haystack needle : List UInt8) (needleLen : ℕ) (s : ℕ × ℕ) :
    Run ((ℕ × ℕ) ⊕ Scanned) :=
  if s.1 < needleLen then do
    let a := M.canonElement (← load needle s.1)
    let haystackChar := M.canonElement (← load haystack s.2)
    if a ≠ haystackChar then
      if M.ret0If0 ∧ haystackChar = 0 then .ok (.inr .ret0) else .ok (.inr (.stop s.1))
    else .ok (.inl (s.1 + 1, s.2 + 1))
  else .ok (.inr (.stop s.1))

def eolLeftBody (haystack needle : List UInt8) (j : ℕ) (i : ℕ) : Run (ℕ ⊕ Scanned) :=
  if i ≠ sizeMax then do
    let a := M.canonElement (← load needle i)
    let haystackChar := M.canonElement (← load haystack (i + j))
    if a ≠ haystackChar then
      if M.ret0If0 ∧ haystackChar = 0 then .ok (.inr .ret0) else .ok (.inr (.stop i))
    else .ok (.inl (sizeSub i 1))
  else .ok (.inr (.stop i))

/-- The end of one pass: under `CHECK_EOL` the next window must be available. -/
def nextWindow (haystack : List UInt8) (needleLen suffix : ℕ) (s : Distinct) :
    Run (Distinct ⊕ Option ℕ) := do
  if M.checkEol then
    let (ok, haystackLen) ← M.available haystack s.haystackLen s.j needleLen
    if ok then .ok (.inl { s with haystackLen, phaystack := suffix + s.j })
    else .ok (.inr none)
  else .ok (.inl { s with phaystack := suffix + s.j })

/-- The comparison of one window whose letter at `suffix` matches; `s.phaystack` is
already past that letter. -/
def distinctWindow (haystack needle : List UInt8) (needleLen suffix period : ℕ) (s : Distinct) :
    Run (Distinct ⊕ Option ℕ) := do
  match ← iterate (eolRightBody M haystack needle needleLen) (needleLen + 1)
      (suffix + 1, s.phaystack) with
  | .ret0 => .ok (.inr none)
  | .stop i =>
    if needleLen ≤ i then
      match ← iterate (eolLeftBody M haystack needle s.j) (suffix + 1) (sizeSub suffix 1) with
      | .ret0 => .ok (.inr none)
      | .stop i =>
        if i = sizeMax then .ok (.inr (some s.j))
        else nextWindow M haystack needleLen suffix { s with j := s.j + period }
    else nextWindow M haystack needleLen suffix { s with j := s.j + (i - suffix + 1) }

/-- The loop condition, which is constant under `CHECK_EOL`. -/
def loopGuard (haystack : List UInt8) (needleLen : ℕ) (s : Distinct) : Run (Bool × ℕ) :=
  if M.checkEol then .ok (true, s.haystackLen)
  else M.available haystack s.haystackLen s.j needleLen

def startGuard (haystack : List UInt8) (haystackLen suffix : ℕ) : Run (Bool × ℕ) :=
  if M.checkEol ∧ haystackLen < suffix + 1 then M.available haystack haystackLen 0 (suffix + 1)
  else .ok (true, haystackLen)

def shortDistinctBody (haystack needle : List UInt8) (needleLen suffix period : ℕ)
    (needleSuffix : UInt8) (s : Distinct) : Run (Distinct ⊕ Option ℕ) := do
  let (ok, haystackLen) ← loopGuard M haystack needleLen s
  if ok then
    let haystackChar := M.canonElement (← load haystack s.phaystack)
    let phaystack := s.phaystack + 1
    if needleSuffix ≠ haystackChar then
      if M.ret0If0 ∧ haystackChar = 0 then .ok (.inr none)
      else .ok (.inl ⟨if M.checkEol then s.j else s.j + 1, phaystack, haystackLen⟩)
    else
      -- Under `CHECK_EOL` the first-character loop does not keep `j` up to date.
      let j := if M.checkEol then phaystack - suffix - 1 else s.j
      distinctWindow M haystack needle needleLen suffix period ⟨j, phaystack, haystackLen⟩
  else .ok (.inr none)

def twoWayShortNeedle (haystack : List UInt8) (haystackLen : ℕ) (needle : List UInt8)
    (needleLen : ℕ) : Run (Option ℕ) := do
  let (suffix, period) ← criticalFactorization M needle needleLen
  if (← M.cmpFunc needle 0 period suffix) = 0 then
    iterate (shortPeriodicBody M haystack needle needleLen suffix period) (haystack.length + 2)
      { j := 0, memory := 0, haystackLen }
  else
    let needleSuffix := M.canonElement (← load needle suffix)
    let (ok, haystackLen) ← startGuard M haystack haystackLen suffix
    if ok then
      let period := max suffix (needleLen - suffix) + 1
      iterate (shortDistinctBody M haystack needle needleLen suffix period needleSuffix)
        (haystack.length + 2) { j := 0, phaystack := suffix, haystackLen }
    else .ok none

def shiftTableBody (needle : List UInt8) (needleLen : ℕ) (s : List ℕ × ℕ) :
    Run ((List ℕ × ℕ) ⊕ List ℕ) :=
  if s.2 < needleLen then do
    let c := M.canonElement (← load needle s.2)
    let table ← store s.1 c.toNat (needleLen - s.2 - 1)
    .ok (.inl (table, s.2 + 1))
  else .ok (.inr s.1)

def shiftTable (needle : List UInt8) (needleLen : ℕ) : Run (List ℕ) :=
  iterate (shiftTableBody M needle needleLen) (needleLen + 1) (List.replicate 256 needleLen, 0)

def longPeriodicBody (haystack needle : List UInt8) (needleLen suffix period : ℕ)
    (table : List ℕ) (s : Periodic) : Run (Periodic ⊕ Option ℕ) := do
  let (ok, haystackLen) ← M.available haystack s.haystackLen s.j needleLen
  if ok then
    let c := M.canonElement (← load haystack (s.j + needleLen - 1))
    let shift ← load table c.toNat
    if 0 < shift then
      let shift := if s.memory ≠ 0 ∧ shift < period then needleLen - period else shift
      .ok (.inl ⟨s.j + shift, 0, haystackLen⟩)
    else
      periodicWindow M haystack needle needleLen suffix period (needleLen - 1)
        { s with haystackLen }
  else .ok (.inr none)

/-- The loop of `two_way_long_needle` for any other needle; the state is `j` and
`haystack_len`. -/
def longDistinctBody (haystack needle : List UInt8) (needleLen suffix period : ℕ)
    (table : List ℕ) (s : ℕ × ℕ) : Run ((ℕ × ℕ) ⊕ Option ℕ) := do
  let (ok, haystackLen) ← M.available haystack s.2 s.1 needleLen
  if ok then
    let c := M.canonElement (← load haystack (s.1 + needleLen - 1))
    let shift ← load table c.toNat
    if 0 < shift then .ok (.inl (s.1 + shift, haystackLen))
    else
      let i ← scanRight M haystack needle s.1 (needleLen - 1) suffix
      if needleLen - 1 ≤ i then
        let i ← scanLeft M haystack needle s.1 (fun i => i ≠ sizeMax) suffix
        if i = sizeMax then .ok (.inr (some s.1))
        else .ok (.inl (s.1 + period, haystackLen))
      else .ok (.inl (s.1 + (i - suffix + 1), haystackLen))
  else .ok (.inr none)

def twoWayLongNeedle (haystack : List UInt8) (haystackLen : ℕ) (needle : List UInt8)
    (needleLen : ℕ) : Run (Option ℕ) := do
  let (suffix, period) ← criticalFactorization M needle needleLen
  let table ← shiftTable M needle needleLen
  if (← M.cmpFunc needle 0 period suffix) = 0 then
    iterate (longPeriodicBody M haystack needle needleLen suffix period table)
      (haystack.length + 2) { j := 0, memory := 0, haystackLen }
  else
    let period := max suffix (needleLen - suffix) + 1
    iterate (longDistinctBody M haystack needle needleLen suffix period table)
      (haystack.length + 2) (0, haystackLen)

end Eglibc.TwoWay
