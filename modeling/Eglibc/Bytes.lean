import Eglibc.Checked

/-!
# Byte strings

The library functions on byte objects that other code calls, as documented: bytes are read
in order and not past the one that decides the result, except that `memcmp` may read both
of its ranges in full.
-/
namespace Eglibc.Bytes
open Checked

structure Buffer where
  bytes : List UInt8
  size_lt : bytes.length < 2 ^ 64

/-- A string without its terminator. Pointer differences within an object are
`ptrdiff_t` values, so the object ends below `PTRDIFF_MAX`. -/
structure CString where
  bytes : List UInt8
  nul_free : 0 ∉ bytes
  size_lt : bytes.length < 2 ^ 63 - 1

lemma CString.ext {s t : CString} (h : s.bytes = t.bytes) : s = t := by
  cases s
  cases t
  cases h
  rfl

/-- The object that holds the string: nothing after the terminator may be read. -/
def CString.object (s : CString) : List UInt8 := s.bytes ++ [0]

lemma CString.length_object (s : CString) : s.object.length = s.bytes.length + 1 := by
  simp [CString.object]

lemma CString.getD_object (s : CString) (i : ℕ) : s.object.getD i 0 = s.bytes.getD i 0 := by
  unfold CString.object
  rcases Nat.lt_or_ge i s.bytes.length with hi | hi
  · rw [List.getD_append _ _ _ _ hi]
  · rw [List.getD_append_right _ _ _ _ hi, List.getD_eq_default _ _ hi]
    cases i - s.bytes.length <;> rfl

lemma CString.getD_length (s : CString) : s.object.getD s.bytes.length 0 = 0 := by
  rw [s.getD_object, List.getD_eq_default _ _ le_rfl]

lemma CString.getD_ne_zero (s : CString) (hi : i < s.bytes.length) : s.object.getD i 0 ≠ 0 := by
  rw [s.getD_object, List.getD_eq_getElem _ _ hi]
  exact fun h => s.nul_free (h ▸ List.getElem_mem hi)

def memchr (s : List UInt8) (start : ℕ) (c : UInt8) : ℕ → Run (Option ℕ)
  | 0 => .ok none
  | n + 1 => do
      if (← load s start) = c then .ok (some start) else memchr s (start + 1) c n

def memcmp (s : List UInt8) (p q : ℕ) : ℕ → Run ℤ
  | 0 => .ok 0
  | n + 1 => do
      let a ← load s p
      let b ← load s q
      let rest ← memcmp s (p + 1) (q + 1) n
      if a = b then .ok rest else .ok (a.toNat - b.toNat)

def strchrBody (s : List UInt8) (c : UInt8) (i : ℕ) : Run (ℕ ⊕ Option ℕ) := do
  let a ← load s i
  if a = c then .ok (.inr (some i))
  else if a = 0 then .ok (.inr none)
  else .ok (.inl (i + 1))

def strchr (s : List UInt8) (start : ℕ) (c : UInt8) : Run (Option ℕ) :=
  iterate (strchrBody s c) (s.length + 1) start

section
variable {s : List UInt8} {c : UInt8} {start : ℕ}

/-- The first place from `start` on, and before `stop`, that holds the byte. -/
def FirstByte (s : List UInt8) (c : UInt8) (start stop : ℕ) : Option ℕ → Prop
  | some i => start ≤ i ∧ i < stop ∧ s.getD i 0 = c ∧ ∀ x, start ≤ x → x < i → s.getD x 0 ≠ c
  | none => ∀ x, start ≤ x → x < stop → s.getD x 0 ≠ c

theorem memchr_returns (h : start + n ≤ s.length ∨ ∃ i, start ≤ i ∧ i < s.length ∧ s.getD i 0 = c) :
    Returns (memchr s start c n) (FirstByte s c start (start + n)) := by
  induction n generalizing start with
  | zero => exact returns_ok fun x h1 h2 => absurd h2 (by omega)
  | succ n ih =>
    have hlt : start < s.length := by
      rcases h with h | ⟨i, h1, h2, _⟩ <;> omega
    rw [memchr, load_eq 0 hlt, ok_bind]
    split_ifs with he
    · exact returns_ok ⟨le_rfl, by omega, he, fun x h1 h2 => absurd h2 (by omega)⟩
    have hnext : start + 1 + n ≤ s.length ∨ ∃ i, start + 1 ≤ i ∧ i < s.length ∧ s.getD i 0 = c := by
      rcases h with h | ⟨i, h1, h2, h3⟩
      · exact .inl (by omega)
      · refine .inr ⟨i, Nat.lt_of_le_of_ne h1 ?_, h2, h3⟩
        rintro rfl
        exact he h3
    have hskip : ∀ {x}, start ≤ x → (start + 1 ≤ x → s.getD x 0 ≠ c) → s.getD x 0 ≠ c := by
      intro x h1 hx
      rcases Nat.eq_or_lt_of_le h1 with rfl | hlt'
      · exact he
      · exact hx hlt'
    refine (ih hnext).mono ?_
    intro r hr
    cases r with
    | none => exact fun x h1 h2 => hskip h1 fun h => hr x h (by omega)
    | some i =>
      obtain ⟨h1, h2, h3, h4⟩ := hr
      exact ⟨by omega, by omega, h3, fun x h5 h6 => hskip h5 fun h => h4 x h h6⟩

lemma memcmp_returns (hp : p + n ≤ s.length) (hq : q + n ≤ s.length) :
    Returns (memcmp s p q n) (fun z => z = 0 ↔ ∀ i < n, s.getD (p + i) 0 = s.getD (q + i) 0) := by
  induction n generalizing p q with
  | zero => exact returns_ok (by simp)
  | succ n ih =>
    rw [memcmp, load_eq 0 (by omega), ok_bind, load_eq 0 (by omega), ok_bind]
    refine (ih (p := p + 1) (q := q + 1) (by omega) (by omega)).bind fun rest hrest => ?_
    split_ifs with he
    · refine returns_ok (hrest.trans ⟨fun h i hi => ?_, fun h i hi => ?_⟩)
      · cases i with
        | zero => exact he
        | succ i => simpa [Nat.add_comm, Nat.add_left_comm] using h i (by omega)
      · simpa [Nat.add_comm, Nat.add_left_comm] using h (i + 1) (by omega)
    · refine returns_ok ⟨fun h => absurd ?_ he, fun h => absurd (h 0 (by omega)) he⟩
      exact UInt8.toNat_inj.mp (by omega)

lemma strchr_returns (hc : c ≠ 0) (ht : t < s.length) (h0 : s.getD t 0 = 0)
    (hn : ∀ i < t, s.getD i 0 ≠ 0) (hst : start ≤ t) :
    Returns (strchr s start c) (FirstByte s c start t) := by
  refine iterate_returns (I := fun i => start ≤ i ∧ i ≤ t ∧
    ∀ x, start ≤ x → x < i → s.getD x 0 ≠ c) (fun i => s.length - i) ?_
    ⟨le_rfl, hst, fun x h1 h2 => absurd h2 (by omega)⟩ (by omega)
  rintro i ⟨h1, h2, h3⟩
  rw [strchrBody, load_eq 0 (by omega), ok_bind]
  split_ifs with he hz
  · refine returns_ok ⟨h1, Nat.lt_of_le_of_ne h2 ?_, he, h3⟩
    rintro rfl
    exact hc (he.symm.trans h0)
  · obtain rfl : i = t := by
      by_contra hne
      exact hn i (by omega) hz
    exact returns_ok h3
  · have hit : i ≠ t := by
      rintro rfl
      exact hz h0
    refine returns_ok ⟨⟨by omega, by omega, fun x h4 h5 => ?_⟩, by dsimp only; omega⟩
    rcases Nat.lt_succ_iff_lt_or_eq.mp h5 with hx | rfl
    · exact h3 x h4 hx
    · exact he

end

def OccursAt (haystack needle : List UInt8) (j : ℕ) : Prop :=
  j + needle.length ≤ haystack.length ∧ (haystack.drop j).take needle.length = needle

instance (haystack needle : List UInt8) (j : ℕ) : Decidable (OccursAt haystack needle j) :=
  inferInstanceAs (Decidable (_ ∧ _))

lemma occursAt_iff : OccursAt haystack needle j ↔ j + needle.length ≤ haystack.length ∧
      ∀ i < needle.length, haystack.getD (j + i) 0 = needle.getD i 0 := by
  refine and_congr_right fun hle => ⟨fun h i hi => ?_, fun h => ?_⟩
  · have := congrArg (fun xs => xs.getD i 0) h
    simpa [List.getElem?_take, hi, List.getElem?_drop] using this
  · refine List.ext_getElem (by simp; omega) fun i h1 h2 => ?_
    have := h i h2
    rw [List.getD_eq_getElem _ _ (by omega), List.getD_eq_getElem _ _ h2] at this
    simpa using this

def FirstOccurrence (haystack needle : List UInt8) : Option ℕ → Prop
  | some j => IsLeast {i | OccursAt haystack needle i} j
  | none => ∀ j, ¬ OccursAt haystack needle j

lemma FirstOccurrence.some_iff (h : FirstOccurrence haystack needle r) (j : ℕ) :
    r = some j ↔ IsLeast {i | OccursAt haystack needle i} j := by
  cases r with
  | none => exact ⟨fun he => absurd he (by simp), fun he => absurd he.1 (h j)⟩
  | some i => exact ⟨fun he => Option.some.inj he ▸ h, fun he => congrArg some (h.unique he)⟩

lemma FirstOccurrence.none_iff
    (h : FirstOccurrence haystack needle r) : r = none ↔ ∀ j, ¬ OccursAt haystack needle j := by
  cases r with
  | none => exact ⟨fun _ => h, fun _ => rfl⟩
  | some i => exact ⟨fun he => absurd he (by simp), fun he => absurd h.1 (he i)⟩

lemma firstOccurrence_nil (haystack : List UInt8) : FirstOccurrence haystack [] (some 0) :=
  ⟨by simp [OccursAt], fun i _ => Nat.zero_le i⟩

end Eglibc.Bytes
