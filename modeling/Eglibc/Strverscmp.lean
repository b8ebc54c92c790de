import Eglibc.Bytes

/-!
# strverscmp of string/strverscmp.c

A pointer is what is left of its string, terminator included. Strings compare as their keys
do, lists of numbers in lexicographic order.
-/
namespace Eglibc.Strverscmp
open Checked Bytes

inductive State
  | normal
  | integral
  | fractional
  | zeros
  deriving DecidableEq

inductive Symbol
  | x
  | d
  | zero
  deriving DecidableEq

inductive Result
  | cmp
  | len
  | sign (r : ℤ)

def isdigit (c : UInt8) : Bool := 0x30 ≤ c.toNat ∧ c.toNat ≤ 0x39

def symbol (c : UInt8) : Symbol :=
  if c.toNat = 0x30 then .zero else if isdigit c then .d else .x

def nextState : State → Symbol → State
  | _, .x => .normal
  | .normal, .d => .integral
  | .normal, .zero => .zeros
  | .integral, _ => .integral
  | .fractional, _ => .fractional
  | .zeros, .d => .fractional
  | .zeros, .zero => .zeros

def resultType : State → Symbol → Symbol → Result
  | .normal, .d, .d => .len
  | .normal, _, _ => .cmp
  | .integral, .x, .x => .cmp
  | .integral, .x, _ => .sign (-1)
  | .integral, _, .x => .sign 1
  | .integral, _, _ => .len
  | .fractional, _, _ => .cmp
  | .zeros, .x, .x => .cmp
  | .zeros, .x, _ => .sign 1
  | .zeros, _, .x => .sign (-1)
  | .zeros, _, _ => .cmp

def compareLength (diff : ℤ) : List UInt8 → List UInt8 → Run ℤ
  | c₁ :: p₁, c₂ :: p₂ =>
    if isdigit c₁ then if isdigit c₂ then compareLength diff p₁ p₂ else .ok 1
    else .ok (if isdigit c₂ then -1 else diff)
  | _, _ => .error (.read 0)

def compareFrom : State → List UInt8 → List UInt8 → Run ℤ
  | state, c₁ :: p₁, c₂ :: p₂ =>
    if c₁ = c₂ then
      if c₁ = 0 then .ok 0 else compareFrom (nextState state (symbol c₁)) p₁ p₂
    else
      match resultType state (symbol c₁) (symbol c₂) with
      | .cmp => .ok (c₁.toNat - c₂.toNat)
      | .len => compareLength (c₁.toNat - c₂.toNat) p₁ p₂
      | .sign r => .ok r
  | _, _, _ => .error (.read 0)

/-- For strings at different addresses; for one address the result is 0 at once. -/
def strverscmp (s₁ s₂ : List UInt8) : Run ℤ := compareFrom .normal s₁ s₂

/-! ### Keys -/

def digits (s : List UInt8) : ℕ := (s.takeWhile isdigit).length

/-- What a character adds to the key; `rest` follows it. -/
def entry (c : UInt8) (rest : List UInt8) : State → Symbol → List ℕ
  | .normal, .d => [0x31, digits rest, c.toNat]
  | .zeros, .x => [0x100 + c.toNat]
  | _, _ => [c.toNat]

def key : State → List UInt8 → List ℕ
  | _, [] => []
  | state, c :: s => entry c s state (symbol c) ++ key (nextState state (symbol c)) s

def Orders (r : ℤ) (k₁ k₂ : List ℕ) : Prop := (r < 0 ↔ k₁ < k₂) ∧ (0 < r ↔ k₂ < k₁)

section
variable {r : ℤ} {a b : ℕ} {k₁ k₂ : List ℕ}

lemma orders_cons (h : Orders r k₁ k₂) : Orders r (a :: k₁) (a :: k₂) := by
  simpa [Orders, List.cons_lt_cons_iff] using h

lemma orders_append (k : List ℕ) (h : Orders r k₁ k₂) : Orders r (k ++ k₁) (k ++ k₂) := by
  induction k with
  | nil => exact h
  | cons a k ih => exact orders_cons ih

lemma orders_head (hlt : r < 0 ↔ a < b) (hgt : 0 < r ↔ b < a) (hne : a ≠ b) :
    Orders r (a :: k₁) (b :: k₂) := by
  simp [Orders, List.cons_lt_cons_iff, hlt, hgt, hne, hne.symm]

lemma orders_refl (k : List ℕ) : Orders 0 k k := by simp [Orders]

lemma Orders.sign_swap (h : Orders r k₁ k₂) (h' : Orders q k₂ k₁) : q.sign = -r.sign := by
  have hneg : r < 0 ↔ 0 < q := h.1.trans h'.2.symm
  have hpos : 0 < r ↔ q < 0 := h.2.trans h'.1.symm
  obtain hr | rfl | hr := lt_trichotomy r 0
  · rw [Int.sign_eq_neg_one_of_neg hr, Int.sign_eq_one_of_pos (hneg.mp hr), neg_neg]
  · have : q = 0 := by omega
    simp [this]
  · rw [Int.sign_eq_one_of_pos hr, Int.sign_eq_neg_one_of_neg (hpos.mp hr)]

end

def Terminated (s : List UInt8) : Prop := ∃ w, 0 ∉ w ∧ s = w ++ [0]

lemma terminated_object (s : CString) : Terminated s.object := ⟨s.bytes, s.nul_free, rfl⟩

/-! ### The comparison -/

section
variable {c c₁ c₂ : UInt8} {s s₁ s₂ : List UInt8}

lemma Terminated.tail (h : Terminated (c :: s)) (hc : c ≠ 0) : Terminated s := by
  obtain ⟨w, hw, heq⟩ := h
  cases w with
  | nil => simp_all
  | cons a w => exact ⟨w, by simp_all, by simp_all⟩

lemma Terminated.nul (h : Terminated (0 :: s)) : s = [] := by
  obtain ⟨w, hw, heq⟩ := h
  cases w with
  | nil | cons a w => simp_all

lemma not_terminated_nil : ¬ Terminated [] := by simp [Terminated]

lemma symbol_cases (c : UInt8) :
    symbol c = .x ∧ isdigit c = false ∧ (c.toNat < 0x30 ∨ 0x39 < c.toNat) ∨
    symbol c = .d ∧ isdigit c = true ∧ 0x30 < c.toNat ∧ c.toNat ≤ 0x39 ∨
    symbol c = .zero ∧ isdigit c = true ∧ c.toNat = 0x30 := by
  simp only [symbol, isdigit, decide_eq_true_eq, decide_eq_false_iff_not]
  split_ifs <;> simp <;> omega

lemma Terminated.exists_cons (h : Terminated s) : ∃ c s', s = c :: s' := by
  cases s with
  | nil => exact absurd h not_terminated_nil
  | cons c s' => exact ⟨c, s', rfl⟩

lemma ne_zero_of_isdigit (h : isdigit c = true) : c ≠ 0 := by
  rintro rfl
  cases h

lemma digits_cons (c : UInt8) (s : List UInt8) :
    digits (c :: s) = if isdigit c then digits s + 1 else 0 := by
  cases h : isdigit c <;> simp [digits, h]

lemma compareLength_returns (diff : ℤ) (h₁ : Terminated s₁) (h₂ : Terminated s₂) :
    Returns (compareLength diff s₁ s₂) fun r =>
      r = if digits s₁ < digits s₂ then -1 else if digits s₂ < digits s₁ then 1 else diff := by
  induction s₁ generalizing s₂ with
  | nil => exact absurd h₁ not_terminated_nil
  | cons c₁ s₁ ih =>
    obtain ⟨c₂, s₂, rfl⟩ := h₂.exists_cons
    cases hd₁ : isdigit c₁ <;> cases hd₂ : isdigit c₂
    case true.true =>
      simpa [compareLength, digits_cons, hd₁, hd₂] using
        ih (h₁.tail (ne_zero_of_isdigit hd₁)) (h₂.tail (ne_zero_of_isdigit hd₂))
    all_goals simp [compareLength, digits_cons, hd₁, hd₂, Returns]

lemma nextState_integral (c : UInt8) :
    nextState .integral (symbol c) = if isdigit c then .integral else .normal := by
  obtain ⟨hs, hd, -⟩ | ⟨hs, hd, -⟩ | ⟨hs, hd, -⟩ := symbol_cases c <;> simp [hs, hd, nextState]

lemma resultType_integral (c₁ c₂ : UInt8) : resultType .integral (symbol c₁) (symbol c₂) =
    if isdigit c₁ then if isdigit c₂ then .len else .sign 1
    else if isdigit c₂ then .sign (-1) else .cmp := by
  obtain ⟨hs, hd, -⟩ | ⟨hs, hd, -⟩ | ⟨hs, hd, -⟩ := symbol_cases c₁ <;>
    obtain ⟨hs', hd', -⟩ | ⟨hs', hd', -⟩ | ⟨hs', hd', -⟩ := symbol_cases c₂ <;>
    simp [hs, hd, hs', hd', resultType]

lemma compareFrom_integral (h₁ : Terminated s₁) (h₂ : Terminated s₂)
    (hne : digits s₁ ≠ digits s₂) : Returns (compareFrom .integral s₁ s₂) fun r =>
      r = if digits s₁ < digits s₂ then -1 else 1 := by
  induction s₁ generalizing s₂ with
  | nil => exact absurd h₁ not_terminated_nil
  | cons c₁ s₁ ih =>
    obtain ⟨c₂, s₂, rfl⟩ := h₂.exists_cons
    rw [digits_cons, digits_cons] at hne ⊢
    rw [compareFrom, resultType_integral, nextState_integral]
    by_cases heq : c₁ = c₂
    · subst heq
      cases hd : isdigit c₁ with
      | false => simp [hd] at hne
      | true =>
        have hc := ne_zero_of_isdigit hd
        simp [hd, hc] at hne ⊢
        simpa using ih (h₁.tail hc) (h₂.tail hc) hne
    rw [if_neg heq]
    cases hd₁ : isdigit c₁ <;> cases hd₂ : isdigit c₂ <;> simp [hd₁, hd₂, Returns] at hne ⊢
    obtain ⟨r, hr, rfl⟩ := compareLength_returns (c₁.toNat - c₂.toNat)
      (h₁.tail (ne_zero_of_isdigit hd₁)) (h₂.tail (ne_zero_of_isdigit hd₂))
    rw [hr]
    split_ifs <;> first | rfl | omega

lemma entry_eq {state : State} {y : Symbol} (h : ¬ (state = .normal ∧ y = .d)) :
    entry c s₁ state y = entry c s₂ state y := by
  cases state <;> cases y <;> simp_all [entry]

lemma compareFrom_parted (state : State) (h₁ : Terminated (c₁ :: s₁)) (h₂ : Terminated (c₂ :: s₂))
    (hne : c₁ ≠ c₂) (hrun : state = .integral → digits (c₁ :: s₁) = digits (c₂ :: s₂)) :
    Returns (compareFrom state (c₁ :: s₁) (c₂ :: s₂)) fun r =>
      Orders r (key state (c₁ :: s₁)) (key state (c₂ :: s₂)) ∧ r ≠ 0 := by
  have hne' : c₁.toNat ≠ c₂.toNat := fun h => hne (UInt8.toNat_inj.mp h)
  have hlen : isdigit c₁ = true → isdigit c₂ = true → Returns
      (compareLength (c₁.toNat - c₂.toNat) s₁ s₂) _ := fun hd₁ hd₂ =>
    compareLength_returns _ (h₁.tail (ne_zero_of_isdigit hd₁)) (h₂.tail (ne_zero_of_isdigit hd₂))
  rw [digits_cons, digits_cons] at hrun
  rw [compareFrom, if_neg hne, key, key]
  obtain ⟨hs₁, hd₁, hc₁⟩ | ⟨hs₁, hd₁, hc₁⟩ | ⟨hs₁, hd₁, hc₁⟩ := symbol_cases c₁ <;>
    obtain ⟨hs₂, hd₂, hc₂⟩ | ⟨hs₂, hd₂, hc₂⟩ | ⟨hs₂, hd₂, hc₂⟩ := symbol_cases c₂ <;>
    cases state <;> simp only [hs₁, hs₂, hd₁, hd₂, resultType, entry, if_true, reduceCtorEq,
      false_implies, forall_const, Nat.add_right_cancel_iff, Bool.false_eq_true, if_false] at hrun hlen ⊢
  -- two numbers part at their first digit
  case inr.inl.inr.inl.normal =>
    refine hlen.mono ?_
    rintro _ rfl
    refine ⟨orders_cons ?_, by split_ifs <;> omega⟩
    by_cases hd : digits s₁ = digits s₂
    · rw [hd]
      refine orders_cons (orders_head ?_ ?_ hne') <;> simp
    · refine orders_head ?_ ?_ hd <;> split_ifs <;> omega
  -- the comparison of the lengths finds no difference, or the bytes decide
  all_goals first
    | exact returns_ok ⟨orders_head (by omega) (by omega) (by omega), by omega⟩
    | refine hlen.mono ?_
      rintro _ rfl
      exact ⟨orders_head (by omega) (by omega) (by omega), by omega⟩

lemma compareFrom_returns (state : State) (h₁ : Terminated s₁) (h₂ : Terminated s₂)
    (hrun : state = .integral → digits s₁ = digits s₂) : Returns (compareFrom state s₁ s₂) fun r =>
      Orders r (key state s₁) (key state s₂) ∧ (r = 0 → s₁ = s₂) := by
  induction s₁ generalizing s₂ state with
  | nil => exact absurd h₁ not_terminated_nil
  | cons c s₁ ih =>
    obtain ⟨c₂, s₂, rfl⟩ := h₂.exists_cons
    by_cases hne : c ≠ c₂
    · exact (compareFrom_parted state h₁ h₂ hne hrun).mono fun r h => ⟨h.1, fun h0 => absurd h0 h.2⟩
    obtain rfl := not_not.mp hne
    rw [compareFrom, if_pos rfl]
    by_cases hc : c = 0
    · subst hc
      rw [if_pos rfl, h₁.nul, h₂.nul]
      exact returns_ok ⟨orders_refl _, fun _ => rfl⟩
    rw [if_neg hc, key, key]
    by_cases hstart : state = .normal ∧ symbol c = .d ∧ digits s₁ ≠ digits s₂
    · -- two numbers of different lengths
      obtain ⟨rfl, hs, hlen⟩ := hstart
      rw [hs]
      refine (compareFrom_integral (h₁.tail hc) (h₂.tail hc) hlen).mono ?_
      rintro _ rfl
      refine ⟨orders_cons (orders_head ?_ ?_ hlen), ?_⟩ <;> split_ifs <;> simp <;> omega
    have hentry : entry c s₁ state (symbol c) = entry c s₂ state (symbol c) := by
      by_cases hd : state = .normal ∧ symbol c = .d
      · simp [hd] at hstart
        simp [hd, entry, hstart]
      · exact entry_eq hd
    have hnext : nextState state (symbol c) = .integral → digits s₁ = digits s₂ := by
      intro hnext
      rcases symbol_cases c with ⟨hs, hd, -⟩ | ⟨hs, hd, -⟩ | ⟨hs, hd, -⟩ <;>
        cases state <;> simp_all [nextState, digits_cons]
    rw [hentry]
    exact (ih _ (h₁.tail hc) (h₂.tail hc) hnext).mono fun r h =>
      ⟨orders_append _ h.1, fun h0 => by rw [h.2 h0]⟩

end

/-- `strverscmp` reads neither string past its terminator and is a total order. -/
theorem strverscmp_total (a b c : CString) :
    ∃ ab ba bc ac, strverscmp a.object b.object = .ok ab ∧ strverscmp b.object a.object = .ok ba ∧
      strverscmp b.object c.object = .ok bc ∧ strverscmp a.object c.object = .ok ac ∧
      (ab = 0 ↔ a = b) ∧ ba.sign = -ab.sign ∧ (ab < 0 → bc < 0 → ac < 0) := by
  have hcompare : ∀ s t : CString, Returns (strverscmp s.object t.object) fun r =>
      Orders r (key .normal s.object) (key .normal t.object) ∧ (r = 0 → s.object = t.object) :=
    fun s t => compareFrom_returns .normal (terminated_object s) (terminated_object t) nofun
  obtain ⟨ab, hab, ⟨hab₁, hab₂⟩, habz⟩ := hcompare a b
  obtain ⟨ba, hba, ⟨hba₁, hba₂⟩, -⟩ := hcompare b a
  obtain ⟨bc, hbc, ⟨hbc₁, -⟩, -⟩ := hcompare b c
  obtain ⟨ac, hac, ⟨hac₁, -⟩, -⟩ := hcompare a c
  refine ⟨ab, ba, bc, ac, hab, hba, hbc, hac, ⟨fun h => ?_, ?_⟩, ?_, fun h h' => ?_⟩
  · exact CString.ext (List.append_cancel_right (habz h))
  · rintro rfl
    rw [lt_self_iff_false, iff_false] at hab₁ hab₂
    omega
  · exact Orders.sign_swap ⟨hab₁, hab₂⟩ ⟨hba₁, hba₂⟩
  · exact hac₁.mpr ((hab₁.mp h).trans (hbc₁.mp h'))

/-- "9" is less than "10" -/
example : strverscmp [0x39, 0] [0x31, 0x30, 0] = .ok (-1) := by decide

end Eglibc.Strverscmp
