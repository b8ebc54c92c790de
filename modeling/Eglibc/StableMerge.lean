import Mathlib

/-!
# Merging and stable sorting

`Merge P Q`: the left head may be taken when `P`, the right one when `Q` holds of the heads.
-/
namespace Eglibc.StableMerge
variable {α β : Type} {P Q : α → α → Prop}

variable {xs ys zs : List α}

inductive Merge (P Q : α → α → Prop) : List α → List α → List α → Prop
  | nil_left (ys : List α) : Merge P Q [] ys ys
  | nil_right (xs : List α) : Merge P Q xs [] xs
  | left {x y : α} {xs ys zs : List α} (h : P x y) (hm : Merge P Q xs (y :: ys) zs) :
      Merge P Q (x :: xs) (y :: ys) (x :: zs)
  | right {x y : α} {xs ys zs : List α} (h : Q x y) (hm : Merge P Q (x :: xs) ys zs) :
      Merge P Q (x :: xs) (y :: ys) (y :: zs)

inductive Sorts (P Q : α → α → Prop) : List α → List α → Prop
  | short {xs : List α} (h : xs.length ≤ 1) : Sorts P Q xs xs
  | merge {xs ys xs' ys' zs : List α} (hx : Sorts P Q xs xs') (hy : Sorts P Q ys ys')
      (hm : Merge P Q xs' ys' zs) : Sorts P Q (xs ++ ys) zs

lemma Merge.perm (h : Merge P Q xs ys zs) : zs.Perm (xs ++ ys) := by
  induction h with
  | nil_left ys => exact List.Perm.refl _
  | nil_right xs => simp
  | left h hm ih => exact ih.cons _
  | right h hm ih => exact (ih.cons _).trans List.perm_middle.symm

lemma Sorts.perm (h : Sorts P Q xs zs) : zs.Perm xs := by
  induction h with
  | short => exact List.Perm.refl _
  | merge hx hy hm ihx ihy => exact hm.perm.trans (ihx.append ihy)

section
variable {P' Q' : β → β → Prop} {f : α → β}

lemma Merge.map (h : Merge P Q xs ys zs) (hP : ∀ x ∈ xs, ∀ y ∈ ys, P x y → P' (f x) (f y))
    (hQ : ∀ x ∈ xs, ∀ y ∈ ys, Q x y → Q' (f x) (f y)) :
    Merge P' Q' (xs.map f) (ys.map f) (zs.map f) := by
  induction h with
  | nil_left ys => exact .nil_left _
  | nil_right xs => exact .nil_right _
  | left h hm ih =>
    refine .left (hP _ (by simp) _ (by simp) h) (ih ?_ ?_)
    · exact fun x hx => hP x (by simp [hx])
    · exact fun x hx => hQ x (by simp [hx])
  | right h hm ih =>
    refine .right (hQ _ (by simp) _ (by simp) h) (ih ?_ ?_)
    · exact fun x hx y hy => hP x hx y (by simp [hy])
    · exact fun x hx y hy => hQ x hx y (by simp [hy])

lemma Sorts.map (h : Sorts P Q xs zs) (hP : ∀ x ∈ xs, ∀ y ∈ xs, P x y → P' (f x) (f y))
    (hQ : ∀ x ∈ xs, ∀ y ∈ xs, Q x y → Q' (f x) (f y)) : Sorts P' Q' (xs.map f) (zs.map f) := by
  induction h with
  | short h => exact .short (by simpa using h)
  | merge hx hy hm ihx ihy =>
    rw [List.map_append]
    refine .merge (ihx ?_ ?_) (ihy ?_ ?_) (hm.map ?_ ?_)
    · exact fun x hx y hy => hP x (by simp [hx]) y (by simp [hy])
    · exact fun x hx y hy => hQ x (by simp [hx]) y (by simp [hy])
    · exact fun x hx y hy => hP x (by simp [hx]) y (by simp [hy])
    · exact fun x hx y hy => hQ x (by simp [hx]) y (by simp [hy])
    · exact fun x hx' y hy' => hP x (by simp [hx.perm.mem_iff.mp hx']) y
        (by simp [hy.perm.mem_iff.mp hy'])
    · exact fun x hx' y hy' => hQ x (by simp [hx.perm.mem_iff.mp hx']) y
        (by simp [hy.perm.mem_iff.mp hy'])

end

structure IsStableSort (le : α → α → Prop) [DecidableRel le] (xs ys : List α) : Prop where
  perm : ys.Perm xs
  sorted : ys.Pairwise le
  stable : ∀ a, ys.filter (fun b => le a b ∧ le b a) = xs.filter (fun b => le a b ∧ le b a)

section
variable {le : α → α → Prop}

section
variable (htrans : ∀ a b c, le a b → le b c → le a c)
include htrans

lemma Merge.sorted
    (hP : ∀ x y, P x y → le x y) (hQ : ∀ x y, Q x y → le y x) (h : Merge P Q xs ys zs)
    (hx : xs.Pairwise le) (hy : ys.Pairwise le) : zs.Pairwise le := by
  induction h with
  | nil_left ys => exact hy
  | nil_right xs => exact hx
  | @left x y xs ys zs h hm ih =>
    obtain ⟨hxs, hx⟩ := List.pairwise_cons.mp hx
    have hyy := (List.pairwise_cons.mp hy).1
    refine List.pairwise_cons.mpr ⟨fun z hz => ?_, ih hx hy⟩
    rcases List.mem_append.mp (hm.perm.mem_iff.mp hz) with hz | hz
    · exact hxs z hz
    · rcases List.mem_cons.mp hz with rfl | hz
      · exact hP _ _ h
      · exact htrans _ _ _ (hP _ _ h) (hyy z hz)
  | @right x y xs ys zs h hm ih =>
    obtain ⟨hys, hy⟩ := List.pairwise_cons.mp hy
    have hxx := (List.pairwise_cons.mp hx).1
    refine List.pairwise_cons.mpr ⟨fun z hz => ?_, ih hx hy⟩
    rcases List.mem_append.mp (hm.perm.mem_iff.mp hz) with hz | hz
    · rcases List.mem_cons.mp hz with rfl | hz
      · exact hQ _ _ h
      · exact htrans _ _ _ (hQ _ _ h) (hxx z hz)
    · exact hys z hz

lemma Sorts.sorted
    (hP : ∀ x y, P x y → le x y) (hQ : ∀ x y, Q x y → le y x) (h : Sorts P Q xs zs) : zs.Pairwise le := by
  induction h with
  | @short xs h =>
    match xs, h with
    | [], _ => exact List.Pairwise.nil
    | [x], _ => exact List.pairwise_singleton _ _
  | merge hx hy hm ihx ihy => exact hm.sorted htrans hP hQ ihx ihy

variable [DecidableRel le]

lemma Merge.stable (hrefl : ∀ a, le a a) (hQ : ∀ x y, Q x y → ¬le x y) (h : Merge P Q xs ys zs)
    (hx : xs.Pairwise le) (a : α) : zs.filter (fun b => le a b ∧ le b a) =
      xs.filter (fun b => le a b ∧ le b a) ++ ys.filter (fun b => le a b ∧ le b a) := by
  induction h with
  | nil_left ys => rfl
  | nil_right xs => simp
  | @left x y xs ys zs h hm ih =>
    rw [List.filter_cons, List.filter_cons, ih (List.pairwise_cons.mp hx).2]
    split_ifs <;> simp
  | @right x y xs ys zs h hm ih =>
    rw [List.filter_cons, ih hx, List.filter_cons (x := y)]
    split_ifs with hy
    · -- The right element is smaller than all left ones, so none of those is equal to it.
      have hnone : (x :: xs).filter (fun b => decide (le a b ∧ le b a)) = [] := by
        simp only [List.filter_eq_nil_iff, decide_eq_true_eq]
        rintro b hb ⟨_, hba⟩
        have hxb : le x b := by
          rcases List.mem_cons.mp hb with rfl | hb
          · exact hrefl b
          · exact (List.pairwise_cons.mp hx).1 b hb
        exact hQ x y h (htrans _ _ _ hxb (htrans _ _ _ hba (decide_eq_true_eq.mp hy).1))
      rw [hnone]
      rfl
    · rfl

theorem Sorts.isStableSort (htotal : ∀ a b, le a b ∨ le b a) (hP : ∀ x y, P x y → le x y)
    (hQ : ∀ x y, Q x y → ¬le x y) (h : Sorts P Q xs zs) : IsStableSort le xs zs := by
  have hrefl : ∀ a, le a a := fun a => (htotal a a).elim id id
  have hQ' : ∀ x y, Q x y → le y x := fun x y hq => (htotal x y).resolve_left (hQ x y hq)
  refine ⟨h.perm, h.sorted htrans hP hQ', fun a => ?_⟩
  induction h with
  | short => rfl
  | merge hx hy hm ihx ihy =>
    rw [hm.stable htrans hrefl hQ (hx.sorted htrans hP hQ') a, ihx, ihy, List.filter_append]

end

end

end Eglibc.StableMerge
