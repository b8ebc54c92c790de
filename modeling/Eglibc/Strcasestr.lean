import Eglibc.Memmem
import Eglibc.Strstr

/-!
# strcasestr of string/strcasestr.c

The search compares letters after `tolower`, which may be any map of bytes.
-/
namespace Eglibc.Strcasestr
open Checked Bytes TwoWay

variable (lower : UInt8 → UInt8)

def compareCase (s : List UInt8) (p₁ p₂ : ℕ) : ℕ → Run ℤ
  | 0 => .ok 0
  | n + 1 => do
    let a ← load s p₁
    let b ← load s p₂
    let result : ℤ := (lower a).toNat - (lower b).toNat
    if result ≠ 0 ∨ a = 0 then .ok result else compareCase s (p₁ + 1) (p₂ + 1) n

/-- `strncasecmp` of two places of one object -/
def strncasecmp (s : List UInt8) (p₁ p₂ n : ℕ) : Run ℤ :=
  if p₁ = p₂ then .ok 0 else compareCase lower s p₁ p₂ n

def macros : Macros where
  available := Strstr.available
  canonElement := lower
  cmpFunc := strncasecmp lower
  checkEol := true
  ret0If0 := true

/-- `while (*haystack && *needle) ok &= TOLOWER (*haystack++) == TOLOWER (*needle++)` -/
def prefixBody (haystack needle : List UInt8) (s : Strstr.Prefix) :
    Run (Strstr.Prefix ⊕ Strstr.Prefix) := do
  let a ← load haystack s.haystack
  if a ≠ 0 then
    let b ← load needle s.needle
    if b ≠ 0 then .ok (.inl ⟨s.haystack + 1, s.needle + 1, s.ok && lower a == lower b⟩)
    else .ok (.inr s)
  else .ok (.inr s)

def strcasestr (haystack needle : List UInt8) : Run (Option ℕ) := do
  let s ← iterate (prefixBody lower haystack needle) (haystack.length + 1) ⟨0, 0, true⟩
  if (← load needle s.needle) ≠ 0 then .ok none
  else if s.ok then .ok (some 0)
  else
    let needleLen := s.needle
    let search := if needleLen < longNeedleThreshold then twoWayShortNeedle (macros lower)
      else twoWayLongNeedle (macros lower)
    let found ← search (haystack.drop 1) (needleLen - 1) needle needleLen
    .ok (found.map (1 + ·))

section
variable {lower} (hlower : ∀ c, lower c = 0 ↔ c = 0)
include hlower

def mapped (s : CString) : CString where
  bytes := s.bytes.map lower
  nul_free h := by
    obtain ⟨c, hc, h0⟩ := List.mem_map.mp h
    exact s.nul_free ((hlower c).mp h0 ▸ hc)
  size_lt := by simpa using s.size_lt

lemma mapped_object (s : CString) : (mapped hlower s).object = s.object.map lower := by
  simp [CString.object, mapped, (hlower 0).mpr rfl]

lemma prefixBody_eq (haystack needle : List UInt8) : prefixBody lower haystack needle =
      Strstr.prefixBody (haystack.map lower) (needle.map lower) := by
  have hload : ∀ (s : List UInt8) i, load (s.map lower) i = (load s i).map lower := by
    intro s i
    cases h : s[i]? <;> simp [load, h, Except.map]
  funext s
  rw [prefixBody, Strstr.prefixBody, hload, hload]
  cases load haystack s.haystack with
  | error e => rfl
  | ok a =>
    cases load needle s.needle with
    | error e | ok b => simp [Except.map, hlower]

lemma getD_mapped (s : CString) (i : ℕ) :
    (mapped hlower s).object.getD i 0 = lower (s.object.getD i 0) := by
  rw [mapped_object, List.getD_eq_getElem?_getD, List.getElem?_map, List.getD_eq_getElem?_getD]
  cases s.object[i]? with
  | none => exact ((hlower 0).mpr rfl).symm
  | some c => rfl

omit hlower in
lemma length_mapped {hlower : ∀ c, lower c = 0 ↔ c = 0} (s : CString) :
    (mapped hlower s).bytes.length = s.bytes.length := List.length_map _

omit hlower in
lemma compareCase_returns (s : CString) {p q n : ℕ} (hp : p + n ≤ s.bytes.length)
    (hq : q + n ≤ s.bytes.length) : Returns (compareCase lower s.object p q n) fun z =>
      z = 0 ↔ ∀ i < n, lower (s.object.getD (p + i) 0) = lower (s.object.getD (q + i) 0) := by
  have hlen := s.length_object
  induction n generalizing p q with
  | zero => exact returns_ok (by simp)
  | succ n ih =>
    rw [compareCase, load_eq 0 (by omega), ok_bind, load_eq 0 (by omega), ok_bind]
    have hne : ¬ s.object.getD p 0 = 0 := s.getD_ne_zero (by omega)
    by_cases heq : lower (s.object.getD p 0) = lower (s.object.getD q 0)
    · rw [if_neg (not_or.mpr ⟨not_not.mpr (by rw [heq, sub_self]), hne⟩)]
      refine (ih (p := p + 1) (q := q + 1) (by omega) (by omega)).mono fun z hz => hz.trans ?_
      rw [Nat.forall_lt_succ_left]
      simp only [Nat.add_zero, heq, true_and, Nat.add_assoc, Nat.add_comm 1]
    have hnat : (lower (s.object.getD p 0)).toNat ≠ (lower (s.object.getD q 0)).toNat :=
      fun h => heq (UInt8.toNat_inj.mp h)
    rw [if_pos (.inl (by omega))]
    exact returns_ok (iff_of_false (by omega) fun h => heq (by simpa using h 0 (by omega)))

lemma text_mapped (s : CString) (i : ℕ) :
    text (macros lower) s.object i = (mapped hlower s).object.getD i 0 :=
  (getD_mapped hlower s i).symm

lemma text_drop (s : CString) (i : ℕ) :
    text (macros lower) (s.object.drop 1) i = (mapped hlower s).object.getD (1 + i) 0 := by
  rw [getD_mapped, text, List.getD_eq_getElem?_getD, List.getElem?_drop,
    ← List.getD_eq_getElem?_getD]
  rfl

lemma window (haystack needle : CString) (hpos : 0 < needle.bytes.length)
    (hle : 1 ≤ haystack.bytes.length) :
    Window (macros lower) (haystack.object.drop 1) needle.object needle.bytes.length
      (haystack.bytes.length - 1) fun hl b => hl ≤ haystack.bytes.length - 1 ∧ hl ≤ b := by
  have W := Strstr.window haystack needle hpos hle
  refine ⟨W.n_pos, W.n_le, W.n_lt, W.inside, W.mono, W.available, ?_, rfl, fun _ => ?_, ?_, ?_,
    fun _ => fun h => h.1, fun _ => fun h hb => ⟨h.1, hb⟩⟩
  · intro p l hpl
    change Returns (strncasecmp lower needle.object 0 p l) _
    unfold strncasecmp
    split_ifs with hp
    · exact returns_ok (by simp [← hp])
    · refine (compareCase_returns needle (by omega) (by omega)).mono fun z hz => hz.trans ?_
      simp [text, macros, Nat.add_comm p]
  · constructor
    · simp [haystack.length_object]
      omega
    · rw [text_drop hlower, Nat.add_sub_cancel' hle, ← length_mapped haystack]
      exact (mapped hlower haystack).getD_length
  · intro _ i hi
    rw [text_drop hlower]
    exact (mapped hlower haystack).getD_ne_zero (by rw [length_mapped]; omega)
  · intro _ i hi
    rw [text_mapped hlower]
    exact (mapped hlower needle).getD_ne_zero (by rwa [length_mapped])

theorem strcasestr_first (haystack needle : CString) :
    Returns (strcasestr lower haystack.object needle.object)
      (FirstOccurrence (mapped hlower haystack).bytes (mapped hlower needle).bytes) := by
  obtain ⟨H, hH⟩ : ∃ H, mapped hlower haystack = H := ⟨_, rfl⟩
  obtain ⟨N, hN⟩ : ∃ N, mapped hlower needle = N := ⟨_, rfl⟩
  have hh : H.bytes.length = haystack.bytes.length := by rw [← hH, length_mapped]
  have hn : N.bytes.length = needle.bytes.length := by rw [← hN, length_mapped]
  have hzero : ∀ i, needle.object.getD i 0 = 0 ↔ N.object.getD i 0 = 0 := fun i => by
    rw [← hN, getD_mapped, hlower]
  rw [hH, hN, strcasestr, prefixBody_eq hlower, ← mapped_object hlower, ← mapped_object hlower, hH,
    hN, ← haystack.object.length_map lower, ← mapped_object hlower, hH]
  refine Strstr.prefix_decides H N _ (by rw [N.length_object, needle.length_object, hn]) hzero
    fun s hs hpos hle hclean => ?_
  have W := window hlower haystack needle (by omega) (by omega)
  have hsearch : Returns ((if N.bytes.length < longNeedleThreshold then
      twoWayShortNeedle (macros lower) else twoWayLongNeedle (macros lower))
      (haystack.object.drop 1) (N.bytes.length - 1) needle.object N.bytes.length)
      (Found (fun i => H.object.getD (1 + i) 0) (fun i => N.object.getD i 0) N.bytes.length
        (H.bytes.length - 1)) := by
    rw [← hH, ← hN, ← funext (text_drop hlower haystack), ← funext (text_mapped hlower needle),
      length_mapped, length_mapped]
    exact search_returns W ⟨by omega, by omega⟩
  rw [hs]
  exact hsearch.bind fun found hf =>
    returns_ok (Strstr.first_of_found _ _ (hf.offset (by omega) hclean))

end

/-- The first place at which the strings match after both have been mapped, if there is one. -/
theorem strcasestr_correct (lower : UInt8 → UInt8) (hlower : ∀ c, lower c = 0 ↔ c = 0)
    (haystack needle : CString) : ∃ r, strcasestr lower haystack.object needle.object = .ok r ∧
      (∀ j, r = some j ↔
        IsLeast {i | OccursAt (haystack.bytes.map lower) (needle.bytes.map lower) i} j) ∧
      (r = none ↔ ∀ j, ¬ OccursAt (haystack.bytes.map lower) (needle.bytes.map lower) j) := by
  obtain ⟨r, hr, hf⟩ := strcasestr_first hlower haystack needle
  exact ⟨r, hr, hf.some_iff, hf.none_iff⟩

/-- "a" in "bA", where the only letter that is mapped is "A" -/
theorem strcasestr_correct_capital : ∃ r, strcasestr (fun c => if c = 0x41 then 0x61 else c)
    [0x62, 0x41, 0] [0x61, 0] = .ok r ∧ (∀ j, r = some j ↔ IsLeast {i | OccursAt
      ([0x62, 0x41].map fun c => if c = 0x41 then 0x61 else c)
      ([0x61].map fun c => if c = 0x41 then 0x61 else c) i} j) ∧ (r = none ↔ ∀ j, ¬ OccursAt
      ([0x62, 0x41].map fun c => if c = 0x41 then 0x61 else c)
      ([0x61].map fun c => if c = 0x41 then 0x61 else c) j) :=
  strcasestr_correct _ (fun c => by split_ifs with h <;> simp [h])
    ⟨[0x62, 0x41], by decide, by decide⟩ ⟨[0x61], by decide, by decide⟩

/-- A map that sends "a" to the terminator: the search for "bc" in "xbabc" ends at "a". -/
theorem strcasestr_stops_early :
    strcasestr (fun c => if c = 0x61 then 0 else c) [0x78, 0x62, 0x61, 0x62, 0x63, 0]
        [0x62, 0x63, 0] = .ok none ∧
      OccursAt ([0x78, 0x62, 0x61, 0x62, 0x63].map fun c => if c = 0x61 then 0 else c)
        ([0x62, 0x63].map fun c => if c = 0x61 then 0 else c) 3 := by
  decide +kernel

/-- The searches that include the header agree: `strstr` finds what `memmem` finds, and
`strcasestr` what `strstr` finds once both strings have been mapped. -/
theorem searches_agree (lower : UInt8 → UInt8) (hlower : ∀ c, lower c = 0 ↔ c = 0)
    (haystack needle : CString) :
    Strstr.strstr haystack.object needle.object = Memmem.memmem haystack.bytes needle.bytes ∧
      strcasestr lower haystack.object needle.object =
        Strstr.strstr (haystack.object.map lower) (needle.object.map lower) := by
  have hunique {x y : Run (Option ℕ)} {h n : List UInt8} (hx : Returns x (FirstOccurrence h n))
      (hy : Returns y (FirstOccurrence h n)) : x = y := by
    obtain ⟨r, rfl, hr⟩ := hx
    obtain ⟨r', rfl, hr'⟩ := hy
    rw [Option.ext fun j => (hr.some_iff j).trans (hr'.some_iff j).symm]
  have hlt (s : CString) : s.bytes.length < 2 ^ 64 := s.size_lt.trans (by decide)
  rw [← mapped_object hlower, ← mapped_object hlower]
  exact ⟨hunique (Strstr.strstr_first ..) (Memmem.memmem_first ⟨_, hlt _⟩ ⟨_, hlt _⟩),
    hunique (strcasestr_first hlower ..) (Strstr.strstr_first ..)⟩

theorem searches_agree_capital : Strstr.strstr [0x62, 0x41, 0] [0x61, 0] =
      Memmem.memmem [0x62, 0x41] [0x61] ∧
    strcasestr (fun c => if c = 0x41 then 0x61 else c) [0x62, 0x41, 0] [0x61, 0] =
      Strstr.strstr [0x62, 0x61, 0] [0x61, 0] :=
  searches_agree _ (fun c => by split_ifs with h <;> simp [h])
    ⟨[0x62, 0x41], by decide, by decide⟩ ⟨[0x61], by decide, by decide⟩

end Eglibc.Strcasestr
