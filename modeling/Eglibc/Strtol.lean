import Eglibc.Signed

/-!
# Reading an integer

Model of the internal function of `stdlib/strtol_l.c` for narrow characters in the C
locale, without grouping. A pointer is the part of the string that follows, and a read
behind the end of the memory is a fault.
-/
namespace Eglibc.Strtol
open Checked Signed

inductive Errno where
  | EINVAL
  | ERANGE
  deriving DecidableEq, Repr

/-- The variant of the function: `UNSIGNED`, and the bits of `long int` and `LONG int`. -/
structure Target where
  unsigned : Bool
  long : ℕ
  width : ℕ
  deriving DecidableEq, Repr

/-- `strtol`, `strtoul`, `strtoll` and `strtoull` of hosts with 32 or 64 bits. -/
def Target.Valid (t : Target) : Prop :=
  (t.long = 32 ∨ t.long = 64) ∧ (t.width = t.long ∨ t.width = 64)

instance (t : Target) : Decidable t.Valid := inferInstanceAs (Decidable (_ ∧ _))

/-- What is returned, what is stored in `errno`, and the offset that is stored in `*endptr`. -/
structure Result where
  value : ℤ
  errno : Option Errno
  endptr : Option ℕ
  deriving DecidableEq, Repr

def isSpace (c : Char) : Bool := c ∈ [' ', '\t', '\n', '\x0b', '\x0c', '\r']

def isAlpha (c : Char) : Bool := ('a' ≤ c ∧ c ≤ 'z') ∨ ('A' ≤ c ∧ c ≤ 'Z')

def toUpper (c : Char) : Char := if 'a' ≤ c ∧ c ≤ 'z' then Char.ofNat (c.toNat - 32) else c

def digit (c : Char) : Option ℕ :=
  if '0' ≤ c ∧ c ≤ '9' then some (c.toNat - '0'.toNat)
  else if isAlpha c then some ((toUpper c).toNat - 'A'.toNat + 10)
  else none

/-- `ULONG_MAX / X` for the bases from 2 to 36 -/
def maxTab (width : ℕ) : List ℕ := (List.range 35).map fun k => (2 ^ width - 1) / (k + 2)

/-- `ULONG_MAX % X` -/
def remTab (width : ℕ) : List ℕ := (List.range 35).map fun k => (2 ^ width - 1) % (k + 2)

def skipSpace : List Char → Run (List Char)
  | [] => .error (.read 0)
  | c :: s => if isSpace c then skipSpace s else .ok (c :: s)

/-- `negative`, and the text after the sign -/
def sign : List Char → Run (Bool × List Char)
  | [] => .error (.read 0)
  | c :: s => .ok (if c = '-' then (true, s) else if c = '+' then (false, s) else (false, c :: s))

def numberBase (base : ℕ) : List Char → Run (ℕ × List Char)
  | [] => .error (.read 0)
  | c :: s =>
    if c = '0' then
      if base = 0 ∨ base = 16 then do
        let x ← load s 0
        .ok (if toUpper x = 'X' then (16, s.drop 1) else if base = 0 then (8, c :: s) else (base, c :: s))
      else .ok (base, c :: s)
    else .ok (if base = 0 then (10, c :: s) else (base, c :: s))

/-- The loop over the digits: the end, `i` and `overflow`. -/
def digits (width base cutoff cutlim : ℕ) : List Char → ℕ → Bool → Run (List Char × ℕ × Bool)
  | [], _, _ => .error (.read 0)
  | c :: s, i, overflow =>
    if c = '\x00' then .ok (c :: s, i, overflow)
    else
      match digit c with
      | none => .ok (c :: s, i, overflow)
      | some d =>
        if d ≥ base then .ok (c :: s, i, overflow)
        else if i > cutoff ∨ (i = cutoff ∧ d > cutlim) then digits width base cutoff cutlim s i true
        else digits width base cutoff cutlim s ((i * base + d) % 2 ^ width) overflow

/-- The loop with `long int` arithmetic, which enters the other loop at `use_long`. -/
def shortDigits (t : Target) (base jmax cutoff cutlim : ℕ) :
    List Char → ℕ → Run (List Char × ℕ × Bool)
  | [], _ => .error (.read 0)
  | c :: s, j =>
    if c = '\x00' then .ok (c :: s, j, false)
    else
      match digit c with
      | none => .ok (c :: s, j, false)
      | some d =>
        if d ≥ base then .ok (c :: s, j, false)
        else if j ≥ jmax then digits t.width base cutoff cutlim s ((j * base + d) % 2 ^ t.width) false
        else shortDigits t base jmax cutoff cutlim s ((j * base + d) % 2 ^ t.long)

/-- The choice between the loops by the sizes of the types. -/
def readDigits (t : Target) (base : ℕ) (s : List Char) : Run (List Char × ℕ × Bool) := do
  let cutoff ← load (maxTab t.width) (base - 2)
  let cutlim ← load (remTab t.width) (base - 2)
  if t.long = t.width then digits t.width base cutoff cutlim s 0 false
  else do
    let jmax ← load (maxTab t.long) (base - 2)
    shortDigits t base jmax cutoff cutlim s 0

/-- The result for the digits of value `i`. -/
def finish (t : Target) (negative : Bool) (i : ℕ) (overflow : Bool) (endptr : ℕ) : Result :=
  let limit : ℤ :=
    if negative then (-((-2 ^ (t.width - 1) + 1) % 2 ^ t.width) + 1) % 2 ^ t.width
    else 2 ^ (t.width - 1) - 1
  let signed : ℤ := if negative then -i else i
  if t.unsigned then
    if overflow then ⟨2 ^ t.width - 1, some .ERANGE, some endptr⟩
    else ⟨signed % 2 ^ t.width, none, some endptr⟩
  else if overflow ∨ (i : ℤ) > limit then
    ⟨if negative then -2 ^ (t.width - 1) else 2 ^ (t.width - 1) - 1, some .ERANGE, some endptr⟩
  else ⟨wrap t.width signed, none, some endptr⟩

/-- The label `noconv`; `save` is an offset. -/
def noconv (nptr : List Char) (save : ℕ) : Run Result :=
  if save ≥ 2 then do
    let x ← load nptr (save - 1)
    let zero ← load nptr (save - 2)
    .ok ⟨0, none, some (if toUpper x = 'X' ∧ zero = '0' then save - 1 else 0)⟩
  else .ok ⟨0, none, some 0⟩

def readNumber (t : Target) (base : ℕ) (nptr s : List Char) : Run Result := do
  let (negative, s) ← sign s
  let (base, save) ← numberBase base s
  let (s, i, overflow) ← readDigits t base save
  if s.length = save.length then noconv nptr (nptr.length - save.length)
  else .ok (finish t negative i overflow (nptr.length - s.length))

def strtol (t : Target) (base : ℤ) (nptr : List Char) : Run Result :=
  if base < 0 ∨ base = 1 ∨ base > 36 then .ok ⟨0, some .EINVAL, none⟩
  else do
    let s ← skipSpace nptr
    let c ← load s 0
    if c = '\x00' then noconv nptr 0 else readNumber t base.toNat nptr s

/-! ## Numerals -/

def Digits (b : ℕ) : List Char → List ℕ → Prop := List.Forall₂ fun c d => digit c = some d ∧ d < b

inductive Subject (base : ℕ) : List Char → ℕ → List ℕ → Prop
  | plain {c : Char} {cs : List Char} {ds : List ℕ} (hbase : base ≠ 0) (h : Digits base (c :: cs) ds) :
    Subject base (c :: cs) base ds
  | hex {x c : Char} {cs : List Char} {ds : List ℕ} (hbase : base = 0 ∨ base = 16) (hx : x = 'x' ∨ x = 'X')
    (h : Digits 16 (c :: cs) ds) : Subject base ('0' :: x :: c :: cs) 16 ds
  | octal {cs : List Char} {ds : List ℕ} (hbase : base = 0) (h : Digits 8 ('0' :: cs) ds) :
    Subject base ('0' :: cs) 8 ds
  | decimal {c : Char} {cs : List Char} {ds : List ℕ} (hbase : base = 0) (hc : c ≠ '0')
    (h : Digits 10 (c :: cs) ds) : Subject base (c :: cs) 10 ds

/-- The signs, with `negative`. -/
def Sign (sg : List Char) (negative : Bool) : Prop :=
  (sg = ['-'] ∧ negative = true) ∨ ((sg = ['+'] ∨ sg = []) ∧ negative = false)

def Numeral (base : ℕ) (p : List Char) (negative : Bool) (n : ℕ) : Prop :=
  ∃ ws sg body b ds, p = ws ++ (sg ++ body) ∧ (∀ c ∈ ws, isSpace c) ∧ Sign sg negative ∧
    Subject base body b ds ∧ n = Nat.ofDigits b ds.reverse

/-- `p` is the longest numeral at the start of a text. -/
def Longest (base : ℕ) (text p : List Char) (negative : Bool) (n : ℕ) : Prop :=
  p <+: text ∧ Numeral base p negative n ∧
    ∀ q negative' n', q <+: text → Numeral base q negative' n' → q.length ≤ p.length

def converted (t : Target) (negative : Bool) (n : ℕ) : ℤ × Option Errno :=
  let z : ℤ := if negative then -n else n
  if t.unsigned then
    if n < 2 ^ t.width then (z % 2 ^ t.width, none) else (2 ^ t.width - 1, some .ERANGE)
  else if Fits t.width z then (z, none)
  else (if negative then -2 ^ (t.width - 1) else 2 ^ (t.width - 1) - 1, some .ERANGE)

end Eglibc.Strtol
