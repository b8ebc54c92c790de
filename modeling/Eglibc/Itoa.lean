import Eglibc.Checked
import Eglibc.Reciprocal

/-!
# Printing integers with 32-bit limbs

`_itoa` of `stdio-common/_itoa.c` as it is built for limbs of 32 bits on machines where a
division takes more than twice the time of a multiplication.
-/
namespace Eglibc.Itoa
open Checked Reciprocal

/-! ### The buffer -/

/-- The buffer around `buflim`: the bytes before it, the nearest one first, and those
from it on. -/
structure Cursor where
  before : List Char
  after : List Char
  deriving DecidableEq, Repr

/-- `*--buflim = c` -/
def Cursor.put (s : Cursor) (c : Char) : Run Cursor :=
  match s.before with
  | [] => .error (.write 0)
  | _ :: rest => .ok ⟨rest, c :: s.after⟩

/-- The bytes right before `buflim` are overwritten by a text, and `buflim` moves to its start. -/
def Cursor.write (s : Cursor) (text : List Char) : Cursor :=
  ⟨s.before.drop text.length, text ++ s.after⟩

@[simp] lemma Cursor.write_nil (s : Cursor) : s.write [] = s := rfl

@[simp] lemma Cursor.write_write (s : Cursor) (x y : List Char) :
    (s.write x).write y = s.write (y ++ x) := by
  simp [Cursor.write, Nat.add_comm]

@[simp] lemma Cursor.length_before_write (s : Cursor) (x : List Char) :
    (s.write x).before.length = s.before.length - x.length := by
  simp [Cursor.write]

lemma Cursor.put_eq {s : Cursor} (c : Char) (h : 0 < s.before.length) :
    s.put c = .ok (s.write [c]) := by
  cases hb : s.before with
  | nil => simp [hb] at h
  | cons x rest => simp [Cursor.put, Cursor.write, hb]

/-! ### Limbs -/

def limb (x : ℕ) : ℕ := x % 2 ^ 32

def limbSub (a b : ℕ) : ℕ := (a + (2 ^ 32 - b)) % 2 ^ 32

def umulPpmm (u v : ℕ) : ℕ × ℕ := (u * v / 2 ^ 32, u * v % 2 ^ 32)

def subDdmmss (ah al bh bl : ℕ) : ℕ × ℕ :=
  let x := limbSub al bl
  (limbSub (limbSub ah bh) (if al < x then 1 else 0), x)

/-- The last correction of `udivQrnndPreinv`. -/
def settle (q r d : ℕ) : ℕ × ℕ :=
  if d ≤ r then (limb (q + 1), limbSub r d) else (q, r)

/-- Quotient and remainder of the two limbs `nh`, `nl` by the normalised `d` with
the inverse `di`. -/
def udivQrnndPreinv (nh nl d di : ℕ) : ℕ × ℕ :=
  let q := limb ((umulPpmm nh di).1 + nh)
  let p := umulPpmm q d
  let x := subDdmmss nh nl p.1 p.2
  if x.1 ≠ 0 then
    let y := subDdmmss x.1 x.2 0 d
    if y.1 ≠ 0 then settle (limb (limb (q + 1) + 1)) (subDdmmss y.1 y.2 0 d).2 d
    else settle (limb (q + 1)) y.2 d
  else settle q x.2 d

lemma subDdmmss_eq {x y : ℕ} (hx : x < 2 ^ 64) (hy : y ≤ x) :
    subDdmmss (x / 2 ^ 32) (x % 2 ^ 32) (y / 2 ^ 32) (y % 2 ^ 32) =
      ((x - y) / 2 ^ 32, (x - y) % 2 ^ 32) := by
  have hlow : limbSub (x % 2 ^ 32) (y % 2 ^ 32) = (x - y) % 2 ^ 32 := by
    unfold limbSub
    omega
  simp only [subDdmmss, hlow]
  refine Prod.ext ?_ rfl
  dsimp only [limbSub]
  split_ifs <;> omega

lemma subDdmmss_limb {x d : ℕ} (hx : x < 2 ^ 64) (hd : d ≤ x) (hlimb : d < 2 ^ 32) :
    subDdmmss (x / 2 ^ 32) (x % 2 ^ 32) 0 d = ((x - d) / 2 ^ 32, (x - d) % 2 ^ 32) := by
  have h := subDdmmss_eq hx hd
  rwa [Nat.div_eq_of_lt hlimb, Nat.mod_eq_of_lt hlimb] at h

theorem settle_eq {n q r d : ℕ} (hd' : d < 2 ^ 32) (hn : r + d * q = n)
    (hr : r < 2 * d) (hr' : r < 2 ^ 32) (hq : n < d * 2 ^ 32) : settle q r d = (n / d, n % d) := by
  have hlt : n / d < 2 ^ 32 := Nat.div_lt_of_lt_mul hq
  by_cases h : d ≤ r
  · have hn' : r - d + d * (q + 1) = n := by
      rw [Nat.mul_add, Nat.mul_one]
      omega
    obtain ⟨h₁, h₂⟩ := (Nat.div_mod_unique (by omega)).mpr ⟨hn', by omega⟩
    rw [settle, if_pos h, limb, ← h₁, Nat.mod_eq_of_lt hlt, h₂, limbSub]
    congr 1
    omega
  · obtain ⟨h₁, h₂⟩ := (Nat.div_mod_unique (by omega)).mpr ⟨hn, by omega⟩
    rw [settle, if_neg h, h₁, h₂]

section
variable {nh nl d di : ℕ}

lemma estimate_bounds (hd : 0 < d) (hd' : d < 2 ^ 32)
    (hdi : di = (2 ^ 32 * 2 ^ 32 - 1) / d - 2 ^ 32) (hnh : nh < d) :
    ∃ q, limb (nh * di / 2 ^ 32 + nh) = q ∧ d * q ≤ nh * 2 ^ 32 ∧
      nh * 2 ^ 32 < d * q + 2 * d := by
  have hle : nh * ((2 ^ 32 * 2 ^ 32 - 1) / d) / 2 ^ 32 * d ≤ nh * 2 ^ 32 := estimate_le (by omega)
  have hlt := lt_estimate (W := 2 ^ 32) hd hd'.le hnh.le
  have hinv : (2 ^ 32 * 2 ^ 32 - 1) / d = di + 2 ^ 32 := by
    have : 2 ^ 32 ≤ (2 ^ 32 * 2 ^ 32 - 1) / d := (Nat.le_div_iff_mul_le hd).mpr (by omega)
    omega
  rw [hinv, Nat.mul_add, Nat.add_mul_div_right _ _ (by omega), Nat.mul_comm _ d] at hle hlt
  have hq : nh * di / 2 ^ 32 + nh < 2 ^ 32 := Nat.lt_of_mul_lt_mul_left (a := d) (by omega)
  exact ⟨_, Nat.mod_eq_of_lt hq, hle, hlt⟩

lemma udivQrnndPreinv_eq (hd : 2 ^ 31 ≤ d) (hd' : d < 2 ^ 32)
    (hdi : di = (2 ^ 32 * 2 ^ 32 - 1) / d - 2 ^ 32) (hnh : nh < d) (hnl : nl < 2 ^ 32) :
    udivQrnndPreinv nh nl d di = ((nh * 2 ^ 32 + nl) / d, (nh * 2 ^ 32 + nl) % d) := by
  obtain ⟨q, hq, hle, hlt⟩ := estimate_bounds (by omega) hd' hdi hnh
  generalize hn : nh * 2 ^ 32 + nl = n
  have hbound : n < d * 2 ^ 32 := by omega
  have hnext : d * (q + 1) = d * q + d := by ring
  have hnext₂ : d * (q + 1 + 1) = d * q + 2 * d := by ring
  have hsub := subDdmmss_eq (x := n) (y := d * q) (by omega) (by omega)
  rw [show n / 2 ^ 32 = nh by omega, show n % 2 ^ 32 = nl by omega] at hsub
  unfold udivQrnndPreinv
  simp only [umulPpmm, hq, Nat.mul_comm q d, hsub]
  -- the estimate leaves less than a limb and two divisors
  by_cases h₁ : (n - d * q) / 2 ^ 32 = 0
  · rw [if_neg (not_not.mpr h₁)]
    exact settle_eq hd' (by omega) (by omega) (by omega) hbound
  have hlimb : limb (q + 1) = q + 1 := by
    have := Nat.lt_of_mul_lt_mul_left (a := d) (b := q + 1) (c := 2 ^ 32) (by omega)
    exact Nat.mod_eq_of_lt this
  rw [if_pos h₁, subDdmmss_limb (by omega) (by omega) hd', hlimb]
  by_cases h₂ : (n - d * q - d) / 2 ^ 32 = 0
  · rw [if_neg (not_not.mpr h₂)]
    exact settle_eq hd' (by omega) (by omega) (by omega) hbound
  have hlimb' : limb (q + 1 + 1) = q + 1 + 1 := by
    have := Nat.lt_of_mul_lt_mul_left (a := d) (b := q + 1 + 1) (c := 2 ^ 32) (by omega)
    exact Nat.mod_eq_of_lt this
  rw [if_pos h₂, subDdmmss_limb (by omega) (by omega) hd', hlimb']
  exact settle_eq hd' (by omega) (by omega) (by omega) hbound

end

/-! ### The table -/

structure BigBase where
  normalizationSteps : ℕ
  ndigits : ℕ
  base : ℕ
  baseNinv : ℕ
  deriving DecidableEq, Repr, Inhabited

structure BaseTable where
  baseMultiplier : ℕ
  flag : ℕ
  postShift : ℕ
  big : BigBase
  deriving DecidableEq, Repr, Inhabited

/-- `_itoa_base_table`, from base 2 on -/
def itoaBaseTable : List BaseTable :=
  [⟨0, 1, 1, ⟨0, 31, 0x80000000, 0xffffffff⟩⟩, ⟨0xaaaaaaab, 0, 1, ⟨0, 20, 0xcfd41b91, 0x3b563c24⟩⟩,
   ⟨0, 1, 2, ⟨1, 15, 0x40000000, 0xffffffff⟩⟩, ⟨0xcccccccd, 0, 2, ⟨1, 13, 0x48c27395, 0xc25c2684⟩⟩,
   ⟨0xaaaaaaab, 0, 2, ⟨0, 12, 0x81bf1000, 0xf91bd1b6⟩⟩,
   ⟨0x24924925, 1, 3, ⟨1, 11, 0x75db9c97, 0x1607a2cb⟩⟩, ⟨0, 1, 3, ⟨1, 10, 0x40000000, 0xffffffff⟩⟩,
   ⟨0x38e38e39, 0, 1, ⟨0, 10, 0xcfd41b91, 0x3b563c24⟩⟩,
   ⟨0xcccccccd, 0, 3, ⟨2, 9, 0x3b9aca00, 0x12e0be82⟩⟩,
   ⟨0xba2e8ba3, 0, 3, ⟨0, 9, 0x8c8b6d2b, 0xd24cde04⟩⟩,
   ⟨0xaaaaaaab, 0, 3, ⟨3, 8, 0x19a10000, 0x3fa39ab5⟩⟩,
   ⟨0x4ec4ec4f, 0, 2, ⟨2, 8, 0x309f1021, 0x50f8ac5f⟩⟩,
   ⟨0x24924925, 1, 4, ⟨1, 8, 0x57f6c100, 0x74843b1e⟩⟩,
   ⟨0x88888889, 0, 3, ⟨0, 8, 0x98c29b81, 0xad0326c2⟩⟩, ⟨0, 1, 4, ⟨3, 7, 0x10000000, 0xffffffff⟩⟩,
   ⟨0xf0f0f0f1, 0, 4, ⟨3, 7, 0x18754571, 0x4ef0b6bd⟩⟩,
   ⟨0x38e38e39, 0, 2, ⟨2, 7, 0x247dbc80, 0xc0fc48a1⟩⟩,
   ⟨0xaf286bcb, 1, 5, ⟨2, 7, 0x3547667b, 0x33838942⟩⟩,
   ⟨0xcccccccd, 0, 4, ⟨1, 7, 0x4c4b4000, 0xad7f29ab⟩⟩,
   ⟨0x86186187, 1, 5, ⟨1, 7, 0x6b5a6e1d, 0x313c3d15⟩⟩,
   ⟨0xba2e8ba3, 0, 4, ⟨0, 7, 0x94ace180, 0xb8cca9e0⟩⟩,
   ⟨0xb21642c9, 0, 4, ⟨0, 7, 0xcaf18367, 0x42ed6de9⟩⟩,
   ⟨0xaaaaaaab, 0, 4, ⟨4, 6, 0x0b640000, 0x67980e0b⟩⟩,
   ⟨0x51eb851f, 0, 3, ⟨4, 6, 0x0e8d4a51, 0x19799812⟩⟩,
   ⟨0x4ec4ec4f, 0, 3, ⟨3, 6, 0x1269ae40, 0xbce85396⟩⟩,
   ⟨0x2f684bdb, 1, 5, ⟨3, 6, 0x17179149, 0x62c103a9⟩⟩,
   ⟨0x24924925, 1, 5, ⟨3, 6, 0x1cb91000, 0x1d353d43⟩⟩,
   ⟨0x8d3dcb09, 0, 4, ⟨2, 6, 0x23744899, 0xce1decea⟩⟩,
   ⟨0x88888889, 0, 4, ⟨2, 6, 0x2b73a840, 0x790fc511⟩⟩,
   ⟨0x08421085, 1, 5, ⟨2, 6, 0x34e63b41, 0x35b865a0⟩⟩, ⟨0, 1, 5, ⟨1, 6, 0x40000000, 0xffffffff⟩⟩,
   ⟨0x3e0f83e1, 0, 3, ⟨1, 6, 0x4cfa3cc1, 0xa9aed1b3⟩⟩,
   ⟨0xf0f0f0f1, 0, 5, ⟨1, 6, 0x5c13d840, 0x63dfc229⟩⟩,
   ⟨0xd41d41d5, 1, 6, ⟨1, 6, 0x6d91b519, 0x2b0fee30⟩⟩,
   ⟨0x38e38e39, 0, 3, ⟨0, 6, 0x81bf1000, 0xf91bd1b6⟩⟩]

def Sound (base : ℕ) (brec : BaseTable) : Prop :=
  let multiplier := brec.baseMultiplier + if brec.flag ≠ 0 then 2 ^ 32 else 0
  let big := brec.big
  (brec.flag ≠ 0 → 0 < brec.postShift) ∧
  brec.baseMultiplier < 2 ^ 32 ∧
  2 ^ 32 * 2 ^ brec.postShift ≤ multiplier * base ∧
  multiplier * base ≤ 2 ^ 32 * 2 ^ brec.postShift + 2 ^ brec.postShift ∧
  big.base = base ^ big.ndigits ∧
  big.normalizationSteps ≤ 4 ∧
  2 ^ 31 ≤ big.base * 2 ^ big.normalizationSteps ∧
  big.base * 2 ^ big.normalizationSteps < 2 ^ 32 ∧
  big.baseNinv = (2 ^ 32 * 2 ^ 32 - 1) / (big.base * 2 ^ big.normalizationSteps) - 2 ^ 32

instance (base : ℕ) (brec : BaseTable) : Decidable (Sound base brec) :=
  inferInstanceAs (Decidable (_ ∧ _))

lemma itoaBaseTable_sound : ∀ i < 35, Sound (i + 2) (itoaBaseTable.getD i default) := by
  decide

/-! ### The code -/

def itoaUpperDigits : List Char := "0123456789ABCDEFGHIJKLMNOPQRSTUVWXYZ".toList

def itoaLowerDigits : List Char := "0123456789abcdefghijklmnopqrstuvwxyz".toList

/-- The quotient of a limb by the base where the multiplier has one bit more than a limb. -/
def quoAdd (brec : BaseTable) (ti : ℕ) : ℕ :=
  let x := (umulPpmm ti brec.baseMultiplier).1
  limb (x + limbSub ti x >>> 1) >>> (brec.postShift - 1)

def quoShift (brec : BaseTable) (ti : ℕ) : ℕ :=
  (umulPpmm ti brec.baseMultiplier).1 >>> brec.postShift

structure LimbState where
  ti : ℕ
  ndigForThisLimb : ℕ
  out : Cursor

def limbBody (quo : ℕ → ℕ) (base : ℕ) (digits : List Char) (s : LimbState) :
    Run (LimbState ⊕ (ℕ × Cursor)) :=
  if s.ti ≠ 0 then do
    let rem := limbSub s.ti (limb (quo s.ti * base))
    let out ← s.out.put (← load digits rem)
    .ok (.inl ⟨quo s.ti, s.ndigForThisLimb + 1, out⟩)
  else .ok (.inr (s.ndigForThisLimb, s.out))

def limbDigits (brec : BaseTable) (base : ℕ) (digits : List Char) (ti : ℕ) (s : Cursor) :
    Run (ℕ × Cursor) :=
  if brec.flag ≠ 0 then iterate (limbBody (quoAdd brec) base digits) 33 ⟨ti, 0, s⟩
  else iterate (limbBody (quoShift brec) base digits) 33 ⟨ti, 0, s⟩

def padZeros : ℕ → Cursor → Run Cursor
  | 0, s => .ok s
  | lacking + 1, s => do padZeros lacking (← s.put '0')

/-- The loop over the `n` words in `t`, the last one first. -/
def convertWords (brec : BaseTable) (base : ℕ) (digits : List Char) (t : List ℕ) :
    ℕ → Cursor → Run Cursor
  | 0, s => .ok s
  | n + 1, s => do
    let ti ← load t n
    let (ndig, s) ← limbDigits brec base digits ti s
    -- all but the most significant word have the same number of digits
    let s ← padZeros (if n ≠ 0 then brec.big.ndigits - ndig else 0) s
    convertWords brec base digits t n s

/-- The value in one to three words to the base `big.base`, the most significant one first. -/
def splitValue (brec : BaseTable) (value : ℕ) : List ℕ :=
  if 1 ≤ limb (value >>> 32) then
    let steps := brec.big.normalizationSteps
    let bigBaseNorm := limb (brec.big.base <<< steps)
    if brec.big.base ≤ limb (value >>> 32) then
      let xh := if steps = 0 then 0 else limb (value >>> (64 - steps))
      let xl := limb (value >>> (32 - steps))
      let (x1hi, r) := udivQrnndPreinv xh xl bigBaseNorm brec.big.baseNinv
      let xl := limb (limb value <<< steps)
      let (x1lo, x) := udivQrnndPreinv r xl bigBaseNorm brec.big.baseNinv
      let t2 := x >>> steps
      let xh := if steps = 0 then x1hi else limb (x1hi <<< steps) ||| x1lo >>> (32 - steps)
      let xl := limb (x1lo <<< steps)
      let (t0, x) := udivQrnndPreinv xh xl bigBaseNorm brec.big.baseNinv
      [t0, x >>> steps, t2]
    else
      let value := value <<< steps % 2 ^ 64
      let (t0, x) :=
        udivQrnndPreinv (limb (value >>> 32)) (limb value) bigBaseNorm brec.big.baseNinv
      [t0, x >>> steps]
  else [limb value]

/-- `for (cnt = ...; cnt > 0; --cnt)` of `RUN_2N`: the digits, and what is left of the limb. -/
def lowLoop (bits : ℕ) (digits : List Char) : ℕ → ℕ → Cursor → Run (ℕ × Cursor)
  | 0, workLo, s => .ok (workLo, s)
  | cnt + 1, workLo, s => do
    let s ← s.put (← load digits (workLo &&& (1 <<< bits - 1)))
    lowLoop bits digits cnt (workLo >>> bits) s

/-- One pass of the last loop of `RUN_2N`. -/
def highBody (bits : ℕ) (digits : List Char) (s : ℕ × Cursor) : Run ((ℕ × Cursor) ⊕ Cursor) := do
  let out ← s.2.put (← load digits (s.1 &&& (1 <<< bits - 1)))
  let workHi := s.1 >>> bits
  if workHi ≠ 0 then .ok (.inl (workHi, out)) else .ok (.inr out)

def highLoop (bits : ℕ) (digits : List Char) (workHi : ℕ) (s : Cursor) : Run Cursor :=
  iterate (highBody bits digits) 33 (workHi, s)

def middleDigit (bits : ℕ) (digits : List Char) (workHi workLo : ℕ) (s : Cursor) : Run Cursor := do
  let workLo := workLo |||
    limb ((workHi &&& (1 <<< (bits - 32 % bits) - 1)) <<< (32 % bits))
  let workHi := workHi >>> (bits - 32 % bits)
  if workHi = 0 then highLoop bits digits workLo s
  else do
    let s ← s.put (← load digits workLo)
    highLoop bits digits workHi s

def run2N (bits : ℕ) (digits : List Char) (value : ℕ) (s : Cursor) : Run Cursor :=
  let workHi := limb (value >>> 32)
  if workHi ≠ 0 then do
    let (workLo, s) ← lowLoop bits digits (32 / bits) (limb (value &&& 0xffffffff)) s
    if 32 % bits ≠ 0 then middleDigit bits digits workHi workLo s
    else highLoop bits digits workHi s
  else highLoop bits digits (limb (value &&& 0xffffffff)) s

def itoaDefault (brec : BaseTable) (base : ℕ) (digits : List Char) (value : ℕ) (s : Cursor) :
    Run Cursor := do
  let t := splitValue brec value
  let out ← convertWords brec base digits t t.length s
  if out.before.length = s.before.length then out.put '0' else .ok out

def itoa (value : ℕ) (buflim : Cursor) (base : ℕ) (upperCase : Bool) : Run Cursor := do
  let digits := if upperCase then itoaUpperDigits else itoaLowerDigits
  let brec ← load itoaBaseTable (base - 2)
  match base with
  | 8 => run2N 3 digits value buflim
  | 16 => run2N 4 digits value buflim
  | _ => itoaDefault brec base digits value buflim

end Eglibc.Itoa
