import Eglibc.TwoWayDistinct

/-! # strstr of string/strstr.c -/
namespace Eglibc.Strstr
open Checked Bytes TwoWay

/-- The length of the part still to be searched is a `size_t` that must not wrap. -/
def available (haystack : List UInt8) (haystackLen j needleLen : ℕ) : Run (Bool × ℕ) :=
  if j + needleLen < 2 ^ 64 ∧ haystackLen ≤ j + needleLen then do
    match ← memchr haystack haystackLen 0 (j + needleLen - haystackLen) with
    | some _ => .ok (false, haystackLen)
    | none => .ok (j + needleLen ≠ 0, j + needleLen)
  else .error .wrap

def macros : Macros where
  available := available
  canonElement c := c
  cmpFunc := memcmp
  checkEol := true
  ret0If0 := true

structure Prefix where
  haystack : ℕ
  needle : ℕ
  ok : Bool
  deriving DecidableEq, Repr

/-- `while (*haystack && *needle) ok &= *haystack++ == *needle++` -/
def prefixBody (haystack needle : List UInt8) (s : Prefix) : Run (Prefix ⊕ Prefix) := do
  let a ← load haystack s.haystack
  if a ≠ 0 then
    let b ← load needle s.needle
    if b ≠ 0 then
      .ok (.inl ⟨s.haystack + 1, s.needle + 1, s.ok && a == b⟩)
    else .ok (.inr s)
  else .ok (.inr s)

def strstr (haystack needle : List UInt8) : Run (Option ℕ) := do
  let s ← iterate (prefixBody haystack needle) (haystack.length + 1) ⟨0, 0, true⟩
  if (← load needle s.needle) ≠ 0 then .ok none
  else if s.ok then .ok (some 0)
  else
    let needleLen := s.needle
    match ← strchr haystack 1 (← load needle 0) with
    | none => .ok none
    | some start =>
      if needleLen = 1 then .ok (some start)
      else
        let haystackLen := if start > needleLen then 1 else needleLen - start
        let search := if needleLen < longNeedleThreshold then twoWayShortNeedle macros
          else twoWayLongNeedle macros
        let found ← search (haystack.drop start) haystackLen needle needleLen
        .ok (found.map (start + ·))

section
variable (haystack needle : CString) {start : ℕ}

theorem text_drop (i : ℕ) :
    text macros (haystack.object.drop start) i = haystack.object.getD (start + i) 0 := by
  simp [text, macros, List.getElem?_drop]

/-- `haystack_len` counts bytes known not to be the terminator and does not exceed the
end of the next window, so the length given to `memchr` does not wrap. -/
theorem window (hpos : 0 < needle.bytes.length) (hstart : start ≤ haystack.bytes.length) :
    Window macros (haystack.object.drop start) needle.object needle.bytes.length
      (haystack.bytes.length - start)
      (fun hl b => hl ≤ haystack.bytes.length - start ∧ hl ≤ b) where
  n_pos := hpos
  n_le := by rw [needle.length_object]; omega
  n_lt := by have := needle.size_lt; omega
  inside := by simp [haystack.length_object]; omega
  mono h hb := ⟨h.1, h.2.trans hb⟩
  available := by
    rintro hl j e ⟨hlL, hlb⟩ hj he hen
    have hlen : (haystack.object.drop start).length = haystack.bytes.length - start + 1 := by
      simp [haystack.length_object]
      omega
    have hend : (haystack.object.drop start).getD (haystack.bytes.length - start) 0 = 0 := by
      rw [show (haystack.object.drop start).getD _ 0 = _ from text_drop haystack _,
        Nat.add_sub_cancel' hstart, haystack.getD_length]
    have h1 := haystack.size_lt
    have h2 := needle.size_lt
    change Returns (available _ hl j e) _
    rw [available, if_pos ⟨by omega, hlb⟩]
    refine (memchr_returns (.inr ⟨_, hlL, by omega, hend⟩)).bind fun r hr => ?_
    cases r with
    | none =>
      have hfit : j + e ≤ haystack.bytes.length - start := by
        by_contra hlt
        exact hr _ hlL (by omega) hend
      refine returns_ok ⟨?_, fun _ => ⟨hfit, le_rfl⟩⟩
      simp
      omega
    | some i =>
      obtain ⟨_, hi, hzero, _⟩ := hr
      have hover : ¬ j + e ≤ haystack.bytes.length - start := by
        intro hle
        rw [show (haystack.object.drop start).getD i 0 = _ from text_drop haystack i] at hzero
        exact haystack.getD_ne_zero (by omega) hzero
      exact returns_ok ⟨⟨by simp, fun h => absurd h hover⟩,
        fun h => absurd h hover⟩
  cmp := by
    intro p l hpl
    have hlen := needle.length_object
    refine (memcmp_returns (by omega) (by omega)).mono fun z hz => hz.trans ?_
    refine forall₂_congr fun i _ => ?_
    rw [Nat.zero_add, Nat.add_comm p i]
    rfl
  ret0 := rfl
  eolEnd _ := by
    rw [List.length_drop, haystack.length_object, text_drop, Nat.add_sub_cancel' hstart,
      haystack.getD_length]
    exact ⟨by omega, rfl⟩
  eolText _ i hi := by
    rw [text_drop]
    exact haystack.getD_ne_zero (by omega)
  eolNeedle _ i hi := needle.getD_ne_zero hi
  eolKnown _ _ _ h := h.1
  eolShrink _ _ _ _ h hb := ⟨h.1, hb⟩

/-- What the first loop has learnt after `i` passes. -/
def PrefixInv (s : Prefix) : Prop :=
  s.needle = s.haystack ∧ s.haystack ≤ haystack.bytes.length ∧ s.needle ≤ needle.bytes.length ∧
    (s.ok = true ↔ ∀ x < s.needle, haystack.object.getD x 0 = needle.object.getD x 0)

lemma prefix_returns :
    Returns (iterate (prefixBody haystack.object needle.object) (haystack.object.length + 1)
      ⟨0, 0, true⟩)
      (fun s => PrefixInv haystack needle s ∧
        (s.needle < needle.bytes.length → s.haystack = haystack.bytes.length)) := by
  have hh := haystack.length_object
  have hn := needle.length_object
  refine iterate_returns (I := PrefixInv haystack needle)
    (fun s => haystack.bytes.length - s.haystack) ?_
    ⟨rfl, Nat.zero_le _, Nat.zero_le _, by simp⟩ (by omega)
  rintro ⟨i, k, ok⟩ ⟨hk, hi, hkn, hok⟩
  dsimp only at hk hi hkn hok
  subst hk
  unfold prefixBody
  dsimp only
  rw [load_eq 0 (by omega), ok_bind]
  split_ifs with ha
  · rw [load_eq 0 (by omega), ok_bind]
    have hlt : k < haystack.bytes.length := by
      refine Nat.lt_of_le_of_ne hi ?_
      rintro rfl
      exact ha haystack.getD_length
    split_ifs with hb
    · have hltn : k < needle.bytes.length := by
        refine Nat.lt_of_le_of_ne hkn ?_
        rintro rfl
        exact hb needle.getD_length
      refine returns_ok ⟨⟨rfl, hlt, hltn, ?_⟩, by dsimp only; omega⟩
      simp only [Bool.and_eq_true, beq_iff_eq, hok]
      exact (Nat.forall_lt_succ_right).symm
    · refine returns_ok ⟨⟨rfl, hi, hkn, hok⟩, fun h => ?_⟩
      exact absurd (needle.getD_ne_zero h) hb
  refine returns_ok ⟨⟨rfl, hi, hkn, hok⟩, fun _ => ?_⟩
  by_contra hne
  exact ha (haystack.getD_ne_zero (by dsimp only at hne; omega))

lemma first_of_found (hf : Found (fun i => haystack.object.getD i 0)
    (fun i => needle.object.getD i 0) needle.bytes.length haystack.bytes.length r) :
    FirstOccurrence haystack.bytes needle.bytes r :=
  hf.first (fun i _ => haystack.getD_object i) (fun i _ => needle.getD_object i)

/-- The first loop decides the search, unless it read all of a needle that is not a prefix.
The end of the needle is read from `stored`. -/
lemma prefix_decides (stored : List UInt8) {rest : Prefix → Run (Option ℕ)}
    (hlen : stored.length = needle.object.length)
    (hnul : ∀ i, stored.getD i 0 = 0 ↔ needle.object.getD i 0 = 0)
    (hrest : ∀ s : Prefix, s.needle = needle.bytes.length → 0 < needle.bytes.length →
      needle.bytes.length ≤ haystack.bytes.length →
      Clean (fun i => haystack.object.getD i 0) (fun i => needle.object.getD i 0)
        needle.bytes.length haystack.bytes.length 1 →
      Returns (rest s) (FirstOccurrence haystack.bytes needle.bytes)) :
    Returns (do
      let s ← iterate (prefixBody haystack.object needle.object) (haystack.object.length + 1)
        ⟨0, 0, true⟩
      if (← load stored s.needle) ≠ 0 then .ok none else if s.ok then .ok (some 0) else rest s)
      (FirstOccurrence haystack.bytes needle.bytes) := by
  have hn := needle.length_object
  refine (prefix_returns haystack needle).bind ?_
  rintro ⟨i, k, ok⟩ ⟨⟨hk, hi, hkn, hok⟩, hstop⟩
  dsimp only at hk hi hkn hok hstop ⊢
  subst hk
  rw [load_eq 0 (by omega), ok_bind]
  by_cases hend : stored.getD k 0 ≠ 0
  · rw [if_pos hend]
    have hlt : k < needle.bytes.length := by
      refine Nat.lt_of_le_of_ne hkn ?_
      rintro rfl
      exact hend ((hnul _).mpr needle.getD_length)
    refine returns_ok fun j ho => ?_
    have := ho.1
    omega
  obtain rfl : k = needle.bytes.length := by
    by_contra hne
    exact hend fun h0 => needle.getD_ne_zero (by omega) ((hnul k).mp h0)
  split_ifs with hpre
  · refine returns_ok (first_of_found haystack needle ⟨by omega, fun x hx => ?_,
      fun x hx => absurd hx (Nat.not_lt_zero x)⟩)
    simpa using hok.mp hpre x hx
  refine hrest _ rfl ?_ hi fun i hi1 _ ho => ?_
  · by_contra h0
    exact hpre (hok.mpr fun x hx => absurd hx (by omega))
  · obtain rfl : i = 0 := by omega
    exact hpre (hok.mpr fun x hx => by simpa using ho x hx)

lemma strstr_first : Returns (strstr haystack.object needle.object)
      (FirstOccurrence haystack.bytes needle.bytes) := by
  have hh := haystack.length_object
  have hn := needle.length_object
  refine prefix_decides haystack needle needle.object rfl (fun _ => Iff.rfl)
    fun s hs hpos hle hfirst => ?_
  rw [hs, load_eq 0 (by omega), ok_bind]
  refine (strchr_returns (needle.getD_ne_zero hpos) (by omega) haystack.getD_length
    (fun i hi => haystack.getD_ne_zero hi) (by omega)).bind fun r hr => ?_
  -- An occurrence other than at 0 begins with a later copy of the first byte.
  have hlater : ∀ {d}, (∀ x, 1 ≤ x → x < d → haystack.object.getD x 0 ≠ needle.object.getD 0 0) →
      Clean (fun i => haystack.object.getD i 0) (fun i => needle.object.getD i 0)
        needle.bytes.length haystack.bytes.length d := by
    intro d hd i hid hiL ho
    rcases Nat.eq_zero_or_pos i with rfl | hi0
    · exact hfirst 0 Nat.one_pos hiL ho
    · exact hd i hi0 hid (ho 0 hpos)
  cases r with
  | none => exact returns_ok (first_of_found _ _ ((hlater hr).none (by omega)))
  | some start =>
    obtain ⟨hs1, hslt, hbyte, hbefore⟩ := hr
    have hclean := hlater hbefore
    dsimp only
    by_cases h1 : needle.bytes.length = 1
    · rw [if_pos h1]
      refine returns_ok (first_of_found _ _ ⟨by omega, fun x hx => ?_, hclean⟩)
      obtain rfl : x = 0 := by omega
      exact hbyte
    rw [if_neg h1]
    have hknown : (if start > needle.bytes.length then 1 else needle.bytes.length - start) ≤
        haystack.bytes.length - start ∧
        (if start > needle.bytes.length then 1 else needle.bytes.length - start) ≤
          needle.bytes.length := by
      split_ifs <;> omega
    refine (search_returns (window haystack needle hpos hslt.le) hknown).bind fun found hf =>
      returns_ok (first_of_found _ _ ?_)
    rw [funext (text_drop haystack)] at hf
    exact hf.offset (h := fun i => haystack.object.getD i 0) hslt.le hclean

end

/-- `strstr` finds the first occurrence, reads no byte after either terminator, and
never passes a wrapped length to `memchr`. -/
theorem strstr_correct (haystack needle : CString) :
    ∃ r, strstr haystack.object needle.object = .ok r ∧
      (∀ j, r = some j ↔ IsLeast {i | OccursAt haystack.bytes needle.bytes i} j) ∧
      (r = none ↔ ∀ j, ¬ OccursAt haystack.bytes needle.bytes j) := by
  obtain ⟨r, hr, hf⟩ := strstr_first haystack needle
  exact ⟨r, hr, hf.some_iff, hf.none_iff⟩

end Eglibc.Strstr
