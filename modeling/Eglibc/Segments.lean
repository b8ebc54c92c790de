import Eglibc.Checked

/-!
# Segments of an object

`Holds xs i ys`: `ys` stands in the object `xs` from index `i` on. `AgreeBelow n xs ys`: two
states of an object have the same first `n` elements.
-/
namespace Eglibc.Segments
open Checked

variable {α : Type} {xs xs' ys zs : List α} {a : α} {i n : ℕ}

def Holds (xs : List α) (i : ℕ) (ys : List α) : Prop :=
  ∀ j < ys.length, xs[i + j]? = ys[j]?

def AgreeBelow (n : ℕ) (xs xs' : List α) : Prop := ∀ i < n, xs'[i]? = xs[i]?

lemma AgreeBelow.rfl : AgreeBelow n xs xs := fun _ _ => Eq.refl _

lemma AgreeBelow.trans {xs'' : List α} (h : AgreeBelow n xs xs') (h' : AgreeBelow n xs' xs'') :
    AgreeBelow n xs xs'' := by
  intro i hi
  rw [h' i hi, h i hi]

lemma AgreeBelow.mono {m : ℕ} (h : AgreeBelow n xs xs') (hm : m ≤ n) : AgreeBelow m xs xs' :=
  fun i hi => h i (Nat.lt_of_lt_of_le hi hm)

lemma agreeBelow_take : AgreeBelow n xs (xs.take n) := by
  intro i hi
  rw [List.getElem?_take_of_lt hi]

@[simp] lemma holds_nil : Holds xs i [] := by
  intro j hj
  simp at hj

lemma holds_cons : Holds xs i (a :: ys) ↔ xs[i]? = some a ∧ Holds xs (i + 1) ys := by
  constructor
  · intro h
    refine ⟨by simpa using h 0 (by simp), ?_⟩
    intro j hj
    have := h (j + 1) (by simpa using hj)
    rwa [List.getElem?_cons_succ, Nat.add_comm j, ← Nat.add_assoc] at this
  · rintro ⟨h, ht⟩ j hj
    cases j with
    | zero => simpa using h
    | succ j =>
      rw [List.getElem?_cons_succ, Nat.add_comm j, ← Nat.add_assoc]
      exact ht j (by simpa using hj)

lemma holds_append : Holds xs i (ys ++ zs) ↔ Holds xs i ys ∧ Holds xs (i + ys.length) zs := by
  induction ys generalizing i with
  | nil => simp
  | cons y ys ih =>
    rw [List.cons_append, holds_cons, holds_cons, ih, and_assoc, List.length_cons,
      Nat.add_assoc i 1, Nat.add_comm 1]

lemma Holds.agree (h : Holds xs i ys) (ha : AgreeBelow n xs xs') (hn : i + ys.length ≤ n) :
    Holds xs' i ys := by
  intro j hj
  rw [ha _ (by omega), h j hj]

lemma Holds.lt_length (h : Holds xs i (a :: ys)) : i < xs.length := by
  have := (holds_cons.mp h).1
  exact (List.getElem?_eq_some_iff.mp this).1

lemma Holds.le_length (h : Holds xs i ys) (hne : ys ≠ []) : i + ys.length ≤ xs.length := by
  induction ys generalizing i with
  | nil => exact absurd (Eq.refl _) hne
  | cons y ys ih =>
    have hi := h.lt_length
    cases ys with
    | nil => simpa using hi
    | cons z ys =>
      have := ih (holds_cons.mp h).2 (by simp)
      simp only [List.length_cons] at this ⊢
      omega

lemma Holds.load (h : Holds xs i (a :: ys)) : load xs i = .ok a := by
  rw [Checked.load, (holds_cons.mp h).1]

lemma Holds.take_drop (h : Holds xs i ys) : (xs.drop i).take ys.length = ys := by
  apply List.ext_getElem?
  intro j
  rcases Nat.lt_or_ge j ys.length with hj | hj
  · rw [List.getElem?_take_of_lt hj, List.getElem?_drop, h j hj]
  · rw [List.getElem?_eq_none hj, List.getElem?_eq_none]
    simp only [List.length_take]
    omega

lemma Holds.loadRange (h : Holds xs i ys) (hne : ys ≠ []) (hn : n = ys.length) :
    loadRange xs i n = .ok ys := by
  rw [Checked.loadRange, hn, if_pos (h.le_length hne), h.take_drop]

theorem Holds.scan {ρ : Type} {body : ℕ → Run (ℕ ⊕ ρ)} {P : α → Prop} (h : Holds xs i ys)
    (hall : ∀ a ∈ ys, P a) (hnext : ∀ i a, Checked.load xs i = .ok a → P a → body i = .ok (.inl (i + 1))) :
    Reaches body ys.length i (i + ys.length) := by
  induction ys generalizing i with
  | nil => exact .refl i
  | cons y ys ih =>
    have hrest := ih (holds_cons.mp h).2 fun a ha => hall a (List.mem_cons_of_mem _ ha)
    rw [Nat.add_assoc, Nat.add_comm 1] at hrest
    exact .head (hnext i y h.load (hall y List.mem_cons_self)) hrest

structure Written (xs : List α) (i : ℕ) (ys xs' : List α) : Prop where
  length_eq : xs'.length = xs.length
  holds : Holds xs' i ys
  below : AgreeBelow i xs xs'

lemma storeRange_returns (h : i + ys.length ≤ xs.length) :
    Returns (storeRange xs i ys) (Written xs i ys) := by
  rw [storeRange, if_pos h]
  refine returns_ok ⟨?_, ?_, ?_⟩
  · simp
    omega
  · intro j hj
    rw [List.append_assoc, List.getElem?_append_right (by simp), List.length_take,
      Nat.min_eq_left (by omega), Nat.add_sub_cancel_left, List.getElem?_append_left hj]
  · intro j hj
    rw [List.append_assoc, List.getElem?_append_left (by simp; omega),
      List.getElem?_take_of_lt hj]

structure Overwritten (xs : List α) (i : ℕ) (ys xs' : List α) : Prop extends Written xs i ys xs' where
  above : ∀ j, i + ys.length ≤ j → xs'[j]? = xs[j]?

lemma storeRange_overwrites (h : i + ys.length ≤ xs.length) :
    Returns (storeRange xs i ys) (Overwritten xs i ys) := by
  obtain ⟨xs', hxs, hw⟩ := storeRange_returns h
  refine ⟨xs', hxs, hw, ?_⟩
  rw [storeRange, if_pos h] at hxs
  cases hxs
  intro j hj
  rw [List.getElem?_append_right (by simp; omega), List.getElem?_drop]
  congr 1
  simp only [List.length_append, List.length_take]
  omega

lemma Overwritten.keeps (h : Overwritten xs n zs xs') (hy : Holds xs i ys)
    (hn : n + zs.length ≤ i) : Holds xs' i ys := by
  intro j hj
  rw [h.above _ (by omega), hy j hj]

lemma store_returns (h : i < xs.length) : Returns (store xs i a) (Written xs i [a]) := by
  rw [store_eq h]
  refine returns_ok ⟨List.length_set, ?_, ?_⟩
  · rw [holds_cons]
    exact ⟨List.getElem?_set_self h, holds_nil⟩
  · intro j hj
    exact List.getElem?_set_ne (by omega)

theorem Written.extend (h : Written xs n zs xs') (hy : Holds xs i ys) (hn : i + ys.length = n) :
    Holds xs' i (ys ++ zs) := by
  rw [holds_append, hn]
  exact ⟨hy.agree h.below (by omega), h.holds⟩

end Eglibc.Segments
