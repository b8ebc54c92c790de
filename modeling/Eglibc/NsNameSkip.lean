import Eglibc.NsNameSafe

/-! # `ns_name_skip` moves over what `ns_name_unpack` consumes -/
namespace Eglibc.NsName
open Checked

def skipBody (msg : List UInt8) (cp : ℕ) : Run (ℕ ⊕ Option ℕ) := do
  if cp < msg.length then
    let n ← load msg cp
    if n = 0 then .ok (.inr (some (cp + 1)))
    else if n &&& 0xc0 = 0 then .ok (.inl (cp + 1 + n.toNat))
    else if n &&& 0xc0 = 0x40 then
      match ← labellen msg cp with
      | none => .ok (.inr none)
      | some l => .ok (.inl (cp + 1 + l))
    else if n &&& 0xc0 = 0xc0 then .ok (.inr (some (cp + 2)))
    else .ok (.inr none)
  else .ok (.inr (some cp))

/-- The new value of `*ptrptr`; every pass but the last one moves on. -/
def nsNameSkip (msg : List UInt8) (ptr : ℕ) : Run (Option ℕ) := do
  let cp ← iterate (skipBody msg) (msg.length + 1) ptr
  .ok (cp.filter fun cp => cp ≤ msg.length)

section

variable {msg dst : List UInt8} {src p k q : ℕ} {s s' : Unpacking} {n : UInt8}

lemma skipBody_eq (hn : msg[p]? = some n) (h0 : n ≠ 0) (h : n &&& 0xc0 = 0 ∨ n &&& 0xc0 = 0x40)
    {l : ℕ} (hl : labellen msg p = .ok (some l)) : skipBody msg p = .ok (.inl (p + 1 + l)) := by
  have hlt := (List.getElem?_eq_some_iff.mp hn).1
  rw [skipBody, if_pos hlt, load_some hn, ok_bind, if_neg h0]
  rcases h with h | h
  · rw [labellen, load_some hn, ok_bind, h, if_neg (by decide), if_neg (by decide)] at hl
    cases hl
    rw [if_pos h]
  · rw [h, if_neg (by decide), if_pos rfl, hl]
    rfl

/-- What skipping does at the place of a pass: a label moves both on, and a pointer or the
root ends the bytes that are consumed. -/
def Steps (msg : List UInt8) (src : ℕ) (s : Unpacking) : Unpacking ⊕ Unpacked → Prop
  | .inl s' => s'.srcp < msg.length ∧
    ((skipBody msg s.srcp = .ok (.inl s'.srcp) ∧ s.srcp < s'.srcp ∧ s'.len = s.len) ∨
      skipBody msg s.srcp = .ok (.inr (some (s.srcp + 2))) ∧ s.srcp + 2 ≤ msg.length ∧
        s'.len = some (s.len.getD (s.srcp + 1 - src + 1)))
  | .inr none => True
  | .inr (some (n, _)) =>
    skipBody msg s.srcp = .ok (.inr (some (s.srcp + 1))) ∧ n = s.len.getD (s.srcp + 1 - src)

lemma unpackBody_steps {out : Unpacking ⊕ Unpacked} (hlt : s.srcp < msg.length)
    (h : unpackBody msg src s = .ok out) : Steps msg src s out := by
  obtain ⟨n, hn⟩ : ∃ n, msg[s.srcp]? = some n := ⟨_, List.getElem?_eq_getElem hlt⟩
  rw [unpackBody, load_some hn, ok_bind] at h
  by_cases h0 : n = 0
  · rw [if_pos h0] at h
    obtain ⟨dst, -, h⟩ := ok_of_bind h
    unfold unpackEnd at h
    split_ifs at h
    · cases h
      exact ⟨by rw [skipBody, if_pos hlt, load_some hn, ok_bind, if_pos h0], rfl⟩
    · cases h; trivial
  rw [if_neg h0] at h
  by_cases hlabel : n &&& 0xc0 = 0 ∨ n &&& 0xc0 = 0x40
  · rw [if_pos hlabel] at h
    obtain ⟨o, hl, h⟩ := ok_of_bind h
    cases o with
    | none => cases h; trivial
    | some l =>
      dsimp only at h
      split_ifs at h with hroom
      · cases h; trivial
      obtain ⟨checked, -, h⟩ := ok_of_bind h
      obtain ⟨dst1, -, h⟩ := ok_of_bind h
      obtain ⟨label, -, h⟩ := ok_of_bind h
      obtain ⟨dst2, -, h⟩ := ok_of_bind h
      cases h
      exact ⟨by dsimp only; omega, .inl ⟨skipBody_eq hn h0 hlabel hl, by dsimp only; omega, rfl⟩⟩
  rw [if_neg hlabel] at h
  by_cases hpointer : n &&& 0xc0 = 0xc0
  · rw [if_pos hpointer, unpackPointer] at h
    by_cases hend : msg.length ≤ s.srcp + 1
    · rw [if_pos hend] at h
      cases h; trivial
    rw [if_neg hend] at h
    obtain ⟨low, -, h⟩ := ok_of_bind h
    dsimp only at h
    split_ifs at h
    · cases h; trivial
    obtain ⟨checked, -, h⟩ := ok_of_bind h
    split_ifs at h
    · cases h; trivial
    · cases h
      refine ⟨by dsimp only; omega, .inr ⟨?_, by omega, rfl⟩⟩
      rw [skipBody, if_pos hlt, load_some hn, ok_bind, if_neg h0, if_neg (by simp [hpointer]),
        if_neg (by simp [hpointer]), if_pos hpointer]
  · rw [if_neg hpointer] at h
    cases h; trivial

/-- Where skipping stands while the name is unpacked. -/
def Skipping (msg : List UInt8) (src : ℕ) (s : Unpacking) : Prop :=
  s.srcp < msg.length ∧
    ((s.len = none ∧ ∃ k, Reaches (skipBody msg) k src s.srcp ∧ src + k ≤ s.srcp) ∨
      ∃ m, s.len = some m ∧ nsNameSkip msg src = .ok (some (src + m)))

lemma nsNameSkip_eq (h : Reaches (skipBody msg) k src p) (hk : k ≤ msg.length)
    (hexit : skipBody msg p = .ok (.inr (some q))) (hq : q ≤ msg.length) :
    nsNameSkip msg src = .ok (some q) := by
  rw [nsNameSkip, h.exit hexit (by omega), ok_bind]
  simp [hq]

/-- If a name is unpacked, skipping succeeds and moves on by what was consumed. -/
theorem nsNameSkip_of_unpack (msg : List UInt8) (src : ℕ) (dst dst' : List UInt8) (n : ℕ)
    (h : nsNameUnpack msg src dst = .ok (some (n, dst'))) :
    nsNameSkip msg src = .ok (some (src + n)) := by
  unfold nsNameUnpack at h
  split_ifs at h with hsrc
  · cases h
  refine iterate_ok (I := Skipping msg src)
    (Q := fun out => ∀ n dst', out = some (n, dst') → nsNameSkip msg src = .ok (some (src + n)))
    ?_ ?_ ⟨by dsimp only; omega, .inl ⟨rfl, 0, Reaches.refl _, le_rfl⟩⟩ h n dst' rfl
  · rintro s s' ⟨hlt, hs⟩ hbody
    obtain ⟨hin, hstep⟩ := unpackBody_steps hlt hbody
    refine ⟨hin, ?_⟩
    rcases hs with ⟨hlen, k, hk, hsmall⟩ | ⟨m, hm, hskip⟩
    · rcases hstep with ⟨hskip, hnext, hsame⟩ | ⟨hskip, hend, hlen'⟩
      · refine .inl ⟨hsame.trans hlen, k + 1, fun budget => ?_, by omega⟩
        rw [show budget + (k + 1) = budget + 1 + k by omega, hk, iterate_next hskip]
      refine .inr ⟨_, hlen', ?_⟩
      rw [nsNameSkip_eq hk (by omega) hskip hend, hlen, Option.getD_none]
      congr 2
      omega
    · rcases hstep with ⟨-, -, hsame⟩ | ⟨-, -, hlen'⟩
      · exact .inr ⟨m, hsame.trans hm, hskip⟩
      · exact .inr ⟨m, by rw [hlen', hm, Option.getD_some], hskip⟩
  · rintro s r ⟨hlt, hs⟩ hbody n dst' rfl
    obtain ⟨hexit, rfl⟩ := unpackBody_steps hlt hbody
    rcases hs with ⟨hlen, k, hk, hsmall⟩ | ⟨m, hm, hskip⟩
    · rw [nsNameSkip_eq hk (by omega) hexit (by omega), hlen, Option.getD_none]
      congr 2
      omega
    · rw [hm, Option.getD_some]
      exact hskip

/-- A label, then a pointer to another name. -/
theorem nsNameSkip_of_unpack_pointer : nsNameSkip [1, 0x61, 0, 1, 0x62, 0xc0, 0] 3 = .ok (some 7) :=
  nsNameSkip_of_unpack [1, 0x61, 0, 1, 0x62, 0xc0, 0] 3 (List.replicate 255 0)
    ([1, 0x62, 1, 0x61, 0] ++ List.replicate 250 0) 4 (by decide +kernel)

end

end Eglibc.NsName
