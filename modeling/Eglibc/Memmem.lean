import Eglibc.TwoWayDistinct

/-! # memmem of string/memmem.c -/
namespace Eglibc.Memmem
open Checked Bytes TwoWay

def macros : Macros where
  available _ haystackLen j needleLen := .ok (j ≤ sizeSub haystackLen needleLen, haystackLen)
  canonElement c := c
  cmpFunc := memcmp
  checkEol := false
  ret0If0 := false

def memmem (haystack needle : List UInt8) : Run (Option ℕ) := do
  if needle.length = 0 then .ok (some 0)
  else if haystack.length < needle.length then .ok none
  else if needle.length < longNeedleThreshold then
    match ← memchr haystack 0 (← load needle 0) haystack.length with
    | none => .ok none
    | some start =>
      if needle.length = 1 then .ok (some start)
      else if haystack.length - start < needle.length then .ok none
      else
        let found ← twoWayShortNeedle macros (haystack.drop start) (haystack.length - start)
          needle needle.length
        .ok (found.map (start + ·))
  else twoWayLongNeedle macros haystack haystack.length needle needle.length

theorem window (haystack needle : List UInt8) (hpos : 0 < needle.length)
    (hle : needle.length ≤ haystack.length) (hlt : haystack.length < 2 ^ 64) :
    Window macros haystack needle needle.length haystack.length
      (fun hl _ => hl = haystack.length) where
  n_pos := hpos
  n_le := le_rfl
  n_lt := by omega
  inside := le_rfl
  mono h _ := h
  available := by
    rintro _ j e rfl hj he hen
    refine returns_ok ⟨?_, fun _ => rfl⟩
    simp only [decide_eq_true_iff]
    rw [sizeSub_eq (by omega) hlt]
    omega
  cmp := by
    intro p l hpl
    refine (memcmp_returns (by omega) hpl).mono fun z hz => hz.trans ?_
    refine forall₂_congr fun i _ => ?_
    rw [Nat.zero_add, Nat.add_comm p i]
    rfl
  ret0 := rfl
  eolEnd h := absurd h (by decide)
  eolText h := absurd h (by decide)
  eolNeedle h := absurd h (by decide)
  eolKnown h := absurd h (by decide)
  eolShrink h := absurd h (by decide)

theorem clean_of_first {h w : ℕ → UInt8} {n L d : ℕ} (hn : 0 < n)
    (hd : ∀ x < d, h x ≠ w 0) : Clean h w n L d :=
  fun i hi _ ho => hd i hi (ho 0 hn)

lemma memmem_first (haystack needle : Buffer) : Returns (memmem haystack.bytes needle.bytes)
      (FirstOccurrence haystack.bytes needle.bytes) := by
  obtain ⟨hay, hhay⟩ := haystack
  obtain ⟨needle, hneedle⟩ := needle
  dsimp only
  unfold memmem
  by_cases h0 : needle.length = 0
  · rw [if_pos h0, List.length_eq_zero_iff.mp h0]
    exact returns_ok (firstOccurrence_nil hay)
  rw [if_neg h0]
  have hpos : 0 < needle.length := by omega
  by_cases hlt : hay.length < needle.length
  · rw [if_pos hlt]
    exact returns_ok fun j ho => absurd ho.1 (by omega)
  rw [if_neg hlt]
  by_cases hshort : needle.length < longNeedleThreshold
  · rw [if_pos hshort, load_eq 0 hpos, ok_bind]
    refine (memchr_returns (.inl (by omega))).bind fun r hr => ?_
    cases r with
    | none =>
      refine returns_ok fun j ho => ?_
      have := (occursAt_iff.mp ho).2 0 hpos
      exact hr j (Nat.zero_le j) (by have := ho.1; omega) this
    | some start =>
      obtain ⟨_, hstart, hbyte, hbefore⟩ := hr
      have hclean : Clean (text macros hay) (text macros needle) needle.length hay.length start :=
        clean_of_first hpos fun x hx => hbefore x (Nat.zero_le x) hx
      dsimp only
      by_cases h1 : needle.length = 1
      · rw [if_pos h1]
        refine returns_ok (Found.first (h := text macros hay) (w := text macros needle)
          ⟨by omega, fun i hi => ?_, hclean⟩ (fun _ _ => rfl) (fun _ _ => rfl))
        obtain rfl : i = 0 := by omega
        exact hbyte
      split_ifs with hrest
      · exact returns_ok (Found.first (hclean.none (by omega)) (fun _ _ => rfl) (fun _ _ => rfl))
      have hlen : (hay.drop start).length = hay.length - start := List.length_drop
      have W := window (hay.drop start) needle hpos (by omega) (by omega)
      rw [hlen] at W
      refine (twoWayShortNeedle_returns W rfl).bind fun found hf => returns_ok ?_
      have htext : text macros (hay.drop start) = fun i => text macros hay (start + i) := by
        funext i
        simp [text, List.getElem?_drop]
      rw [htext] at hf
      exact Found.first (hf.offset (by omega) hclean) (fun _ _ => rfl) (fun _ _ => rfl)
  · rw [if_neg hshort]
    exact (twoWayLongNeedle_returns (window hay needle hpos (by omega) hhay) rfl).mono
      fun r hr => Found.first hr (fun _ _ => rfl) (fun _ _ => rfl)

/-- `memmem` reads only bytes of its two objects and returns the first occurrence. -/
theorem memmem_correct (haystack needle : Buffer) :
    ∃ r, memmem haystack.bytes needle.bytes = .ok r ∧
      (∀ j, r = some j ↔ IsLeast {i | OccursAt haystack.bytes needle.bytes i} j) ∧
      (r = none ↔ ∀ j, ¬ OccursAt haystack.bytes needle.bytes j) ∧
      (needle.bytes = [] → r = some 0) := by
  obtain ⟨r, hr, hf⟩ := memmem_first haystack needle
  refine ⟨r, hr, hf.some_iff, hf.none_iff, fun hn => (hf.some_iff 0).mpr ?_⟩
  rw [hn]
  exact firstOccurrence_nil _

end Eglibc.Memmem
