import Eglibc.Checked

/-! # Lists cut into blocks of one length -/
namespace Eglibc.Blocks
open Checked
variable {α : Type} {s : ℕ} {E F : List (List α)}

def Uniform (s : ℕ) (E : List (List α)) : Prop := ∀ x ∈ E, x.length = s

def chunks (s : ℕ) : ℕ → List α → List (List α)
  | 0, _ => []
  | n + 1, xs => xs.take s :: chunks s n (xs.drop s)

@[simp] lemma length_chunks (n : ℕ) (xs : List α) : (chunks s n xs).length = n := by
  induction n generalizing xs with
  | zero => rfl
  | succ n ih => simp [chunks, ih]

lemma flatten_chunks (h : xs.length = n * s) : (chunks s n xs).flatten = xs := by
  induction n generalizing xs with
  | zero => simpa [chunks] using (List.length_eq_zero_iff.mp (by simpa using h)).symm
  | succ n ih =>
    have hdrop : (xs.drop s).length = n * s := by
      rw [List.length_drop, h, Nat.succ_mul, Nat.add_sub_cancel]
    simp [chunks, ih hdrop]

lemma uniform_chunks (h : xs.length = n * s) : Uniform s (chunks s n xs) := by
  induction n generalizing xs with
  | zero => simp [chunks, Uniform]
  | succ n ih =>
    have hlen : s ≤ xs.length := by
      rw [h, Nat.succ_mul]
      exact Nat.le_add_left _ _
    have hdrop : (xs.drop s).length = n * s := by
      rw [List.length_drop, h, Nat.succ_mul, Nat.add_sub_cancel]
    intro x hx
    rcases List.mem_cons.mp hx with rfl | hx
    · simp [min_eq_left hlen]
    · exact ih hdrop x hx

lemma chunks_flatten (h : Uniform s E) : chunks s E.length E.flatten = E := by
  induction E with
  | nil => rfl
  | cons x E ih =>
    obtain rfl : x.length = s := h x (by simp)
    simp [chunks, ih fun y hy => h y (by simp [hy])]

lemma Uniform.length_flatten (h : Uniform s E) : E.flatten.length = E.length * s := by
  induction E with
  | nil => simp
  | cons x E ih =>
    rw [List.flatten_cons, List.length_append, h x (by simp), ih fun y hy => h y (by simp [hy]),
      List.length_cons]
    ring

lemma uniform_append : Uniform s (E ++ F) ↔ Uniform s E ∧ Uniform s F := by
  simp only [Uniform, List.mem_append, or_imp, forall_and]

lemma uniform_cons : Uniform s (x :: E) ↔ x.length = s ∧ Uniform s E := by
  simp [Uniform, forall_eq_or_imp]

lemma Uniform.of_perm (h : Uniform s E) (hp : F.Perm E) : Uniform s F :=
  fun x hx => h x (hp.mem_iff.mp hx)

section
variable {i : ℕ}

lemma split_block (hi : i < E.length) : E = E.take i ++ E.getD i [] :: E.drop (i + 1) := by
  rw [List.getD_eq_getElem _ _ hi, List.getElem_cons_drop, List.take_append_drop]

lemma flatten_split (hi : i < E.length) :
    E.flatten = (E.take i).flatten ++ E.getD i [] ++ (E.drop (i + 1)).flatten := by
  conv_lhs => rw [split_block hi]
  simp

lemma loadRange_block (h : Uniform s E) (hi : i < E.length) :
    loadRange E.flatten (i * s) s = .ok (E.getD i []) := by
  have hu := h
  rw [split_block hi, uniform_append, uniform_cons] at hu
  rw [flatten_split hi]
  refine loadRange_eq ?_ hu.2.1
  simp [hu.1.length_flatten, min_eq_left hi.le]

lemma storeRange_block (h : Uniform s E) (hi : i < E.length) (hx : x.length = s) :
    storeRange E.flatten (i * s) x = .ok (E.set i x).flatten := by
  have hu := h
  rw [split_block hi, uniform_append, uniform_cons] at hu
  have hset : (E.set i x).flatten = (E.take i).flatten ++ x ++ (E.drop (i + 1)).flatten := by
    rw [List.set_eq_take_append_cons_drop, if_pos hi]
    simp
  rw [flatten_split hi, hset]
  refine storeRange_eq ?_ (hu.2.1.trans hx.symm)
  simp [hu.1.length_flatten, min_eq_left hi.le]

lemma Uniform.set (h : Uniform s E) (hx : x.length = s) : Uniform s (E.set i x) := by
  intro y hy
  rcases List.mem_or_eq_of_mem_set hy with hy | rfl
  · exact h y hy
  · exact hx

end

end Eglibc.Blocks
