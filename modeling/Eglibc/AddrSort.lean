import Mathlib.Data.List.Lex
import Mathlib.Tactic

/-!
# The order of destination addresses

`rfc3484_sort` of `sysdeps/posix/getaddrinfo.c`. IPv4 addresses are numbers in host order,
IPv6 addresses are bytes.
-/
namespace Eglibc.Getaddrinfo

structure ScopeEntry where
  addr : UInt32
  netmask : UInt32
  scope : ℤ

structure PrefixEntry where
  start : ℕ → UInt8
  bits : ℕ
  val : ℤ

/-- A table ends with an entry that all addresses match, of which only the value is kept. -/
structure Table (ε : Type) where
  entries : List ε
  last : ℤ

def Table.value {ε : Type} (t : Table ε) (found : ε → Bool) (val : ε → ℤ) : ℤ :=
  ((t.entries.find? found).map val).getD t.last

structure Tables where
  scopes : Table ScopeEntry
  labels : Table PrefixEntry
  precedence : Table PrefixEntry
  /-- What `0xffffffffu << (32 - n)` is where C leaves it open. -/
  oddMask : ℕ → UInt32

inductive Addr
  | inet (a : UInt32)
  | inet6 (a : ℕ → UInt8)
  | other

/-- The destination and its source address, which have one family: rule 9 asserts it. -/
inductive Route
  | inet (dst src : UInt32)
  | inet6 (dst src : ℕ → UInt8)
  | other

def Route.dst : Route → Addr
  | inet d _ => .inet d
  | inet6 d _ => .inet6 d
  | other => .other

def Route.src : Route → Addr
  | inet _ s => .inet s
  | inet6 _ s => .inet6 s
  | other => .other

/-- `ai_family` -/
def Route.family : Route → ℕ
  | inet _ _ => 2
  | inet6 _ _ => 10
  | other => 0

structure SortResult where
  route : Route
  gotSourceAddr : Bool
  deprecated : Bool
  homeaddress : Bool
  prefixlen : ℕ
  index : ℕ
  native : Bool

namespace Tables
variable (t : Tables)

def getScope : Addr → ℤ
  | .inet6 a =>
    if a 0 ≠ 0xff then
      if a 0 = 0xfe ∧ a 1 &&& 0xc0 = 0x80 ∨ (List.range 15).all (a · = 0) ∧ a 15 = 1 then 2
      else if a 0 = 0xfe ∧ a 1 &&& 0xc0 = 0xc0 then 5
      else 14
    else (a 1 &&& 0xf).toNat
  | .inet a => t.scopes.value (fun e => a &&& e.netmask = e.addr) (·.scope)
  | .other => 15

/-- The loop over the bytes from `i` on, of which `bits` bits are left to compare. -/
def matchBits (mask val : ℕ → UInt8) (i bits : ℕ) : Bool :=
  if 8 ≤ bits then mask i = val i && matchBits mask val (i + 1) (bits - 8)
  else (mask i).toNat &&& (0xff00 >>> bits) = (val i).toNat &&& (0xff00 >>> bits)

def mapped (a : UInt32) (i : ℕ) : UInt8 :=
  if i < 10 then 0 else if i < 12 then 0xff else (a.toNat / 256 ^ (15 - i)).toUInt8

def matchPrefix (list : Table PrefixEntry) (default : ℤ) : Addr → ℤ
  | .inet a => list.value (fun e => matchBits e.start (mapped a) 0 e.bits) (·.val)
  | .inet6 a => list.value (fun e => matchBits e.start a 0 e.bits) (·.val)
  | .other => default

def getLabel : Addr → ℤ := matchPrefix t.labels (2 ^ 31 - 1)

def getPrecedence : Addr → ℤ := matchPrefix t.precedence 0

def fls (a : UInt32) : ℕ := ((List.range 32).find? fun n => a.toNat.testBit (31 - n)).getD 32

def netmask (n : ℕ) : UInt32 :=
  if 0 < n ∧ n ≤ 32 then 0xffffffff <<< (32 - n).toUInt32 else t.oddMask n

def subnetBits (n : ℕ) (dst src : UInt32) : ℕ :=
  if src &&& t.netmask n = dst &&& t.netmask n then fls (dst ^^^ src) else 0

def word (a : ℕ → UInt8) (i : ℕ) : UInt32 :=
  ((List.range 4).foldl (fun n k => n * 256 + (a (4 * i + k)).toNat) 0).toUInt32

def differences (dst src : ℕ → UInt8) : List UInt32 :=
  (List.range 4).map fun i => word dst i ^^^ word src i

/-- `bit1` and `bit2`: both at the first word in which one of the pairs differs. -/
def firstBits : List UInt32 → List UInt32 → ℕ × ℕ
  | x :: xs, y :: ys => if x ≠ 0 ∨ y ≠ 0 then (fls x, fls y) else firstBits xs ys
  | _, _ => (0, 0)

/-- `if (p && !q) return -1; if (!p && q) return 1;` -/
def prefer (p q : Bool) : Option ℤ :=
  if p && !q then some (-1) else if !p && q then some 1 else none

/-- `if (m > n) return -1; if (m < n) return 1;` -/
def higher {α : Type} [LinearOrder α] (m n : α) : Option ℤ :=
  if n < m then some (-1) else if m < n then some 1 else none

def scopeMatches (a : SortResult) : Bool := t.getScope a.route.dst = t.getScope a.route.src

def labelMatches (a : SortResult) : Bool := t.getLabel a.route.dst = t.getLabel a.route.src

/-- Rules 1 to 8; the native flags are known. -/
def rules (a1 a2 : SortResult) : Option ℤ :=
  let got := a1.gotSourceAddr
  prefer a1.gotSourceAddr a2.gotSourceAddr
    <|> (if got then prefer (t.scopeMatches a1) (t.scopeMatches a2) else none)
    <|> (if got then prefer (!a1.deprecated) (!a2.deprecated) else none)
    <|> (if got then prefer a1.homeaddress a2.homeaddress else none)
    <|> (if got then prefer (t.labelMatches a1) (t.labelMatches a2) else none)
    <|> higher (t.getPrecedence a1.route.dst) (t.getPrecedence a2.route.dst)
    <|> (if got ∧ a1.index ≠ a2.index then prefer a1.native a2.native else none)
    <|> higher (t.getScope a2.route.dst) (t.getScope a1.route.dst)

def rule9 (a1 a2 : SortResult) : Option ℤ :=
  if a1.gotSourceAddr then
    let bits := match a1.route, a2.route with
      | .inet d1 s1, .inet d2 s2 => (t.subnetBits a1.prefixlen d1 s1, t.subnetBits a2.prefixlen d2 s2)
      | .inet6 d1 s1, .inet6 d2 s2 => firstBits (differences d1 s1) (differences d2 s2)
      | _, _ => (0, 0)
    higher bits.1 bits.2
  else none

end Tables

/-- The results; those of one interface have one native flag. -/
structure Results (n : ℕ) where
  get : Fin n → SortResult
  native_eq : ∀ i j, (get i).index = (get j).index → (get i).native = (get j).native

def rfc3484Sort (t : Tables) (r : Results n) (idx1 idx2 : Fin n) : ℤ :=
  (t.rules (r.get idx1) (r.get idx2) <|> t.rule9 (r.get idx1) (r.get idx2)).getD
    (if idx1 < idx2 then -1 else 1)

def IsOrder (t : Tables) (r : Results n) : Prop :=
  (∀ i j, i ≠ j → rfc3484Sort t r j i = -rfc3484Sort t r i j) ∧
    ∀ i j k, rfc3484Sort t r i j = -1 → rfc3484Sort t r j k = -1 → rfc3484Sort t r i k = -1

/-- Of three results with equal rank up to rule 8, the one in the middle has another family
than the outer two, which rule 9 exchanges. -/
def Crossed (t : Tables) (r : Results n) : Prop :=
  ∃ i j k, i < j ∧ j < k ∧ t.rules (r.get i) (r.get j) = none ∧ t.rules (r.get j) (r.get k) = none ∧
    (r.get i).route.family ≠ (r.get j).route.family ∧ t.rule9 (r.get i) (r.get k) = some 1

namespace Tables

section
variable {α : Type} [LinearOrder α] {m n : α}

lemma higher_eq_none : higher m n = none ↔ m = n := by
  unfold higher
  grind

lemma higher_eq_neg : higher m n = some (-1) ↔ n < m := by
  unfold higher
  grind

lemma higher_eq_one : higher m n = some 1 ↔ m < n := by
  unfold higher
  grind

@[simp] lemma higher_self (m : α) : higher m m = none := higher_eq_none.mpr rfl

@[simp] lemma higher_neg (m n : ℤ) : higher (-m) (-n) = higher n m := by
  simp [higher]

lemma higher_cons (x y : α) (xs ys : List α) :
    higher (x :: xs) (y :: ys) = (higher x y <|> higher xs ys) := by
  simp only [higher, List.cons_lt_cons_iff]
  grind

end

lemma prefer_eq (p q : Bool) : prefer p q = higher p.toInt q.toInt := by
  cases p <;> cases q <;> rfl

variable (t : Tables)

/-- What rules 1 to 8 compare. -/
def rank (a : SortResult) : List ℤ :=
  [a.gotSourceAddr.toInt, (a.gotSourceAddr && t.scopeMatches a).toInt,
    (a.gotSourceAddr && !a.deprecated).toInt, (a.gotSourceAddr && a.homeaddress).toInt,
    (a.gotSourceAddr && t.labelMatches a).toInt, t.getPrecedence a.route.dst,
    (a.gotSourceAddr && a.native).toInt, -t.getScope a.route.dst]

lemma rules_eq (a b : SortResult) (h : a.index = b.index → a.native = b.native) :
    t.rules a b = higher (t.rank a) (t.rank b) := by
  simp only [rules, rank, higher_cons, prefer_eq]
  -- with rule 1 undecided the other rules ask for both source addresses
  cases ha : a.gotSourceAddr <;> cases hb : b.gotSourceAddr
  · simp
  · rfl
  · rfl
  · by_cases hindex : a.index = b.index
    · simp [hindex, h hindex]
    · simp [hindex]

lemma got_eq {a b : SortResult} (h : t.rank a = t.rank b) : a.gotSourceAddr = b.gotSourceAddr := by
  have := (List.cons.inj h).1
  grind [Bool.toInt]

lemma fls_lt (x : UInt32) : fls x ≤ 32 ∧ (fls x < 32 ↔ x ≠ 0) := by
  unfold fls
  cases hfind : (List.range 32).find? fun n => x.toNat.testBit (31 - n) with
  | some n =>
    have hn : n < 32 := by simpa using List.mem_of_find?_eq_some hfind
    have hbit := List.find?_some hfind
    refine ⟨hn.le, iff_of_true hn ?_⟩
    rintro rfl
    simp at hbit
  | none =>
    refine ⟨le_rfl, iff_of_false (lt_irrefl _) (not_not.mpr ?_)⟩
    apply UInt32.toNat_inj.mp
    apply Nat.eq_of_testBit_eq
    intro k
    rw [UInt32.toNat_zero, Nat.zero_testBit]
    by_cases hk : k < 32
    · have hbit := List.find?_eq_none.mp hfind (31 - k) (by simp; omega)
      simpa [show 31 - (31 - k) = k by omega] using hbit
    · exact Nat.testBit_lt_two_pow (x.toNat_lt.trans_le (Nat.pow_le_pow_right (by omega) (by omega)))

/-- The length of the common prefix. -/
def commonBits : List UInt32 → ℕ
  | [] => 0
  | x :: xs => if x ≠ 0 then fls x else 32 + commonBits xs

lemma higher_firstBits (xs ys : List UInt32) (h : xs.length = ys.length) :
    higher (firstBits xs ys).1 (firstBits xs ys).2 = higher (commonBits xs) (commonBits ys) := by
  induction xs generalizing ys with
  | nil =>
    cases ys with
    | nil => rfl
    | cons y ys => simp at h
  | cons x xs ih =>
    cases ys with
    | nil => simp at h
    | cons y ys =>
      have hx := fls_lt x
      have hy := fls_lt y
      have hrest := ih ys (by simpa using h)
      unfold firstBits commonBits
      unfold higher at hrest ⊢
      grind

def matching (a : SortResult) : ℕ :=
  if a.gotSourceAddr then
    match a.route with
    | .inet d s => t.subnetBits a.prefixlen d s
    | .inet6 d s => commonBits (differences d s)
    | .other => 0
  else 0

lemma rule9_eq (a b : SortResult) (h : a.gotSourceAddr = b.gotSourceAddr) :
    t.rule9 a b = if a.route.family = b.route.family then higher (t.matching a) (t.matching b) else none := by
  unfold rule9 matching
  rw [← h]
  cases a.gotSourceAddr
  · simp
  cases a.route <;> cases b.route <;> simp [Route.family, higher_firstBits, differences]

end Tables

variable {t : Tables} {r : Results n} {i j : Fin n}

def Before (t : Tables) (r : Results n) (i j : Fin n) : Prop :=
  t.rank (r.get j) < t.rank (r.get i) ∨ t.rank (r.get i) = t.rank (r.get j) ∧
    if (r.get i).route.family = (r.get j).route.family then
      t.matching (r.get j) < t.matching (r.get i) ∨ t.matching (r.get i) = t.matching (r.get j) ∧ i < j
    else i < j

lemma sort_cases (t : Tables) (r : Results n) (i j : Fin n) :
    rfc3484Sort t r i j = -1 ∧ Before t r i j ∨ rfc3484Sort t r i j = 1 ∧ ¬ Before t r i j := by
  have hrules := t.rules_eq (r.get i) (r.get j) (r.native_eq i j)
  rw [rfc3484Sort, hrules]
  unfold Before
  rcases lt_trichotomy (t.rank (r.get i)) (t.rank (r.get j)) with h | h | h
  · simp [Tables.higher_eq_one.mpr h, h.not_gt, h.ne]
  · rw [t.rule9_eq _ _ (t.got_eq h), h]
    unfold Tables.higher
    grind
  · simp [Tables.higher_eq_neg.mpr h, h]

lemma sort_eq_neg : rfc3484Sort t r i j = -1 ↔ Before t r i j := by
  grind [sort_cases]

lemma crossed_iff : Crossed t r ↔ ∃ i j k, i < j ∧ j < k ∧
    t.rank (r.get i) = t.rank (r.get j) ∧ t.rank (r.get j) = t.rank (r.get k) ∧
    (r.get i).route.family ≠ (r.get j).route.family ∧
    (r.get i).route.family = (r.get k).route.family ∧
    t.matching (r.get i) < t.matching (r.get k) := by
  unfold Crossed
  simp only [t.rules_eq _ _ (r.native_eq _ _), Tables.higher_eq_none]
  refine exists_congr fun i => exists_congr fun j => exists_congr fun k => ?_
  refine and_congr_right' (and_congr_right' ?_)
  refine and_congr_right fun hij => and_congr_right fun hjk => and_congr_right' ?_
  rw [t.rule9_eq _ _ (t.got_eq (hij.trans hjk))]
  split_ifs with hfamily
  · simp [hfamily, Tables.higher_eq_one]
  · simp [hfamily]

/-- The comparison orders the results exactly if rule 9 never goes across another family. -/
theorem rfc3484_order_iff (t : Tables) (r : Results n) : IsOrder t r ↔ ¬ Crossed t r := by
  rw [crossed_iff]
  constructor
  · rintro ⟨-, htrans⟩ ⟨i, j, k, hij, hjk, hrij, hrjk, hne, heq, hlt⟩
    simp only [sort_eq_neg] at htrans
    have hik := htrans i j k (by simp [Before, hrij, hne, hij]) (by simp [Before, hrjk, ← heq, hne.symm, hjk])
    simp [Before, hrij, hrjk, heq, hlt.not_gt, hlt.ne] at hik
  · intro hcross
    constructor
    · intro i j hne
      have hij := sort_cases t r i j
      have hji := sort_cases t r j i
      unfold Before at hij hji
      grind
    · intro i j k hij hjk
      rw [sort_eq_neg] at hij hjk ⊢
      obtain hij | ⟨hrij, hij⟩ := hij
      · obtain hjk | ⟨hrjk, -⟩ := hjk
        · exact .inl (hjk.trans hij)
        · exact .inl (hrjk ▸ hij)
      obtain hjk | ⟨hrjk, hjk⟩ := hjk
      · exact .inl (hrij ▸ hjk)
      refine .inr ⟨hrij.trans hrjk, ?_⟩
      by_contra hik
      -- the one of another family stands between the two that rule 9 exchanges
      apply hcross
      by_cases hfij : (r.get i).route.family = (r.get j).route.family
      · refine ⟨j, k, i, ?_⟩
        grind
      by_cases hfjk : (r.get j).route.family = (r.get k).route.family
      · refine ⟨k, i, j, ?_⟩
        grind
      · refine ⟨i, j, k, ?_⟩
        grind

/-- Every address has one label, one precedence and scope 14. -/
def flat : Tables := ⟨⟨[], 14⟩, ⟨[], 0⟩, ⟨[], 0⟩, fun _ => 0⟩

/-- An IPv6, an IPv4 and an IPv6 destination; the last one and its source agree for longer
than the first and its source. -/
def mixed : Results 3 where
  get i := ⟨if i.val = 1 then .inet 1 2 else .inet6 (fun _ => 0) fun k => if k = i + 1 then 1 else 0,
    true, false, false, 32, 0, true⟩
  native_eq _ _ _ := rfl

theorem rfc3484_circle : ¬ IsOrder flat mixed := by
  rintro ⟨-, htrans⟩
  have := htrans 0 1 2 (by decide) (by decide)
  revert this
  decide

end Eglibc.Getaddrinfo
