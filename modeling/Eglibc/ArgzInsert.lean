import Eglibc.Bytes
import Eglibc.Envz

/-!
# argz_insert

A pointer is its distance from the start of the vector.
-/
namespace Eglibc.Argz
open Bytes Checked Envz Segments

inductive Errno where
  | EINVAL
  | ENOMEM

/-- `while (before[-1]) before--;` -/
def entryStartBody (argz : List UInt8) (before : ℕ) : Run (ℕ ⊕ ℕ) :=
  if before = 0 then .error (.read 0)
  else do
    if (← load argz (before - 1)) ≠ 0 then .ok (.inl (before - 1)) else .ok (.inr before)

/-- What stands from `before` on is moved up, and the entry is put there. -/
def insertAt (junk : ℕ → UInt8) (v : Vec) (before : ℕ) (entry : CString) : Run Vec := do
  let entryLen := (← strlen entry.object 0) + 1
  let block := realloc junk v.block (v.len + entryLen)
  let block ← storeRange block (before + entryLen) (← loadRange block before (v.len - before))
  let block ← storeRange block before (← loadRange entry.object 0 entryLen)
  .ok ⟨some block, v.len + entryLen⟩

def argzInsert (junk : ℕ → UInt8) (memory : Bool) (v : Vec) (before : Option ℤ)
    (entry : CString) : Run (Except Errno Vec) :=
  match before with
  | none => if memory then .ok <$> argzAdd junk v entry.object else .ok (.error .ENOMEM)
  | some before =>
    if before < 0 ∨ before ≥ v.len then .ok (.error .EINVAL)
    else do
      let before ← if before > 0 then
          iterate (entryStartBody v.object) (v.len + 1) before.toNat
        else .ok before.toNat
      if memory then .ok <$> insertAt junk v before entry else .ok (.error .ENOMEM)

/-- A byte of a vector: the one at `offset` of the entry `e`, or the terminator of `e`. -/
structure Place where
  vec : Vec
  left : List (List UInt8)
  e : List UInt8
  right : List (List UInt8)
  offset : ℕ
  is : Is vec (left ++ e :: right)
  offset_le : offset ≤ e.length

def Place.before (p : Place) : ℕ := (encode p.left).length + p.offset

/-- The new entry stands directly before the one that contains the byte. -/
def Place.Inserts (p : Place) (junk : ℕ → UInt8) (entry : CString) : Prop :=
  Returns (argzInsert junk true p.vec (some p.before) entry) fun r =>
    ∃ v, r = .ok v ∧ Is v (p.left ++ entry.bytes :: p.e :: p.right)

lemma entryStart_reaches {s e : List UInt8} (h : Holds s i e) (he : 0 ∉ e) (hj : j ≤ e.length) :
    Reaches (entryStartBody s) j (i + j) i := by
  induction j with
  | zero => exact .refl i
  | succ j ih =>
    have hne : e[j] ≠ 0 := fun h0 => he (h0 ▸ List.getElem_mem hj)
    have hload : load s (i + j) = .ok e[j] := by simp [load, h j hj, List.getElem?_eq_getElem hj]
    refine .head ?_ (ih (by omega))
    simp [entryStartBody, ← Nat.add_assoc, hload, hne]

namespace Place
variable (p : Place)

lemma holds : Holds p.vec.object 0 (encode p.left ++ (p.e ++ 0 :: encode p.right)) := by
  simpa using p.is.holds

lemma holds_e : Holds p.vec.object (encode p.left).length p.e := by
  simpa using Holds.head (Holds.tail p.holds)

lemma e_nul_free : 0 ∉ p.e := p.is.nul_free p.e (by simp)

lemma len_eq : p.vec.len = (encode p.left).length + (p.e ++ 0 :: encode p.right).length := by
  simp [p.is.len]

lemma before_lt : p.before < p.vec.len := by
  have hle := p.offset_le
  simp only [p.len_eq, before, List.length_append, List.length_cons]
  omega

lemma insertAt_returns (junk : ℕ → UInt8) (entry : CString) :
    Returns (insertAt junk p.vec (encode p.left).length entry) fun v =>
      Is v (p.left ++ entry.bytes :: p.e :: p.right) := by
  have hobject : Holds entry.object 0 (entry.bytes ++ [0]) := fun j _ => by
    rw [Nat.zero_add]
    rfl
  have hblock := realloc_holds p.is junk (entry.bytes.length + 1)
  have hlen := p.len_eq
  rw [encode_append, encode_cons, holds_append, Nat.zero_add] at hblock
  have hload := hblock.2.loadRange (n := p.vec.len - (encode p.left).length) (by simp) (by omega)
  rw [insertAt, strlen_eq hobject entry.nul_free, ok_bind]
  dsimp only
  rw [hload, ok_bind]
  apply (storeRange_returns (by rw [realloc_length]; omega)).bind
  intro s₁ h₁
  have hl₁ := h₁.length_eq
  rw [realloc_length] at hl₁
  rw [hobject.loadRange (by simp) (by simp), ok_bind]
  apply (storeRange_overwrites (by simp only [List.length_append, List.length_singleton]; omega)).bind
  intro s₂ h₂
  -- the entries in front, the new one, and those that have been moved
  have hfront := h₂.toWritten.extend (hblock.1.agree h₁.below (by omega)) (by omega)
  have hback := h₂.keeps h₁.holds (by simp)
  refine returns_ok ⟨?_, ?_, ?_⟩
  · simp [p.is.len]
    omega
  · rw [← List.singleton_append, ← List.append_assoc, encode_append, holds_append]
    exact ⟨by simpa [Vec.object] using hfront, by simpa [Vec.object, Nat.add_assoc] using hback⟩
  · intro x hx
    have hfree := p.is.nul_free x
    have hentry := entry.nul_free
    grind

lemma entryStart_eq (h : p.left ≠ []) :
    iterate (entryStartBody p.vec.object) (p.vec.len + 1) p.before =
      .ok (encode p.left).length := by
  obtain ⟨l, x, hleft⟩ := (List.eq_nil_or_concat' p.left).resolve_left h
  have hlt := p.before_lt
  apply (entryStart_reaches p.holds_e p.e_nul_free p.offset_le).exit
  · have hall : Holds p.vec.object 0 (encode l ++ x ++ 0 :: (p.e ++ 0 :: encode p.right)) := by
      simpa [hleft] using p.holds
    have hload : load p.vec.object ((encode l).length + x.length) = .ok 0 := by
      simpa using (Holds.tail hall).load
    simp [entryStartBody, hload, hleft, ← Nat.add_assoc]
  · unfold before at hlt
    omega

lemma entryStart_first (h : p.left = []) :
    iterate (entryStartBody p.vec.object) (p.vec.len + 1) p.before = .error (.read 0) := by
  have hlt := p.before_lt
  have hreach := entryStart_reaches p.holds_e p.e_nul_free p.offset_le
  unfold before at hlt ⊢
  obtain ⟨k, hk⟩ : ∃ k, p.vec.len + 1 = k + 1 + p.offset := ⟨p.vec.len - p.offset, by omega⟩
  rw [hk, hreach, h]
  rfl

end Place

/-- Exactly the bytes of the first entry behind its start are not accepted. -/
theorem argz_inserts_iff (p : Place) (junk : ℕ → UInt8) (entry : CString) :
    p.Inserts junk entry ↔ p.left ≠ [] ∨ p.offset = 0 := by
  have hlt := p.before_lt
  obtain ⟨v, hv, his⟩ := p.insertAt_returns junk entry
  rw [Place.Inserts, argzInsert]
  dsimp only
  rw [if_neg (by omega), Int.toNat_natCast]
  by_cases hleft : p.left = []
  · by_cases hoffset : p.offset = 0
    · have hbefore : p.before = (encode p.left).length := by simp [Place.before, hoffset]
      rw [hbefore, if_neg (by simp [hleft]), ok_bind, hv]
      simpa [hoffset, hleft, Returns] using his
    · rw [if_pos (by unfold Place.before; omega), p.entryStart_first hleft]
      simp [hleft, hoffset, Returns]
  · have hpos : 0 < (encode p.left).length := by
      obtain ⟨x, l, hl⟩ := List.exists_cons_of_ne_nil hleft
      simp [hl]
    rw [if_pos (by unfold Place.before; omega), p.entryStart_eq hleft, ok_bind]
    simpa [hleft, hv, Returns] using his

/-- The second byte of `ab`, the only entry. -/
theorem argz_insert_first_entry :
    ¬ Place.Inserts ⟨⟨some [97, 98, 0], 3⟩, [], [97, 98], [], 1,
      ⟨rfl, fun j _ => by rw [Nat.zero_add]; rfl, by simp⟩, by decide⟩
      (fun _ => 0) ⟨[99], by decide, by decide⟩ := by
  rintro ⟨r, hr, -⟩
  cases hr

end Eglibc.Argz
