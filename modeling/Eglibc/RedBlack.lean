import Mathlib

/-!
# Red-black trees and their one-hole contexts

A node is written with `join`, so that mirrored cases are one case; a context is the list
of the nodes above a hole, innermost first.
-/
namespace Eglibc.RedBlack
variable {κ : Type}

inductive Side
  | left
  | right
  deriving DecidableEq, Repr

def Side.other : Side → Side
  | .left => .right
  | .right => .left

@[simp] lemma Side.other_other (s : Side) : s.other.other = s := by cases s <;> rfl

inductive PTree (κ : Type)
  | nil
  | node (addr : ℕ) (red : Bool) (left : PTree κ) (key : κ) (right : PTree κ)
  deriving Repr

namespace PTree

def ptr : PTree κ → Option ℕ
  | nil => none
  | node a _ _ _ _ => some a

def isRed : PTree κ → Bool
  | nil => false
  | node _ c _ _ _ => c

def size : PTree κ → ℕ
  | nil => 0
  | node _ _ l _ r => l.size + r.size + 1

def addrs : PTree κ → List ℕ
  | nil => []
  | node a _ l _ r => a :: (l.addrs ++ r.addrs)

def keys : PTree κ → List κ
  | nil => []
  | node _ _ l k r => l.keys ++ k :: r.keys

def Black : PTree κ → ℕ → Prop
  | nil, n => n = 0
  | node _ true l _ r, n => l.Black n ∧ r.Black n
  | node _ false _ _ _, 0 => False
  | node _ false l _ r, n + 1 => l.Black n ∧ r.Black n

def Proper : PTree κ → Prop
  | nil => True
  | node _ c l _ r => (c = true → l.isRed = false ∧ r.isRed = false) ∧ l.Proper ∧ r.Proper

/-- The node whose child on side `s` is `near`. -/
def join (s : Side) (a : ℕ) (c : Bool) (near : PTree κ) (k : κ) (far : PTree κ) : PTree κ :=
  match s with
  | .left => node a c near k far
  | .right => node a c far k near

def paint (c : Bool) : PTree κ → PTree κ
  | nil => nil
  | node a _ l k r => node a c l k r

end PTree

open PTree

variable {n : ℕ} {t : PTree κ}

section
variable (s : Side) (a : ℕ) (c : Bool) (x y : PTree κ) (k : κ)

@[simp] lemma ptr_join : (join s a c x k y).ptr = some a := by cases s <;> rfl

@[simp] lemma join_ne_nil : join s a c x k y ≠ nil := by cases s <;> simp [join]

@[simp] lemma isRed_join : (join s a c x k y).isRed = c := by cases s <;> rfl

@[simp] lemma size_join : (join s a c x k y).size = x.size + y.size + 1 := by
  cases s <;> simp [join, size, Nat.add_comm]

lemma join_other : join s.other a c y k x = join s a c x k y := by cases s <;> rfl

@[simp] lemma ptr_paint : (x.paint c).ptr = x.ptr := by cases x <;> rfl

@[simp] lemma keys_paint : (x.paint c).keys = x.keys := by cases x <;> rfl

@[simp] lemma addrs_paint : (x.paint c).addrs = x.addrs := by cases x <;> rfl

@[simp] lemma size_paint : (x.paint c).size = x.size := by cases x <;> rfl

@[simp] lemma isRed_paint_false : (x.paint false).isRed = false := by cases x <;> rfl

lemma paint_join (d : Bool) : (join s a c x k y).paint d = join s a d x k y := by
  cases s <;> rfl

variable {s a c x y k}

lemma black_join_true : (join s a true x k y).Black n ↔ x.Black n ∧ y.Black n := by
  cases s
  · rfl
  · exact and_comm

lemma black_join_false :
    (join s a false x k y).Black n ↔ ∃ m, n = m + 1 ∧ x.Black m ∧ y.Black m := by
  cases s <;> cases n <;> simp [join, Black, and_comm]

lemma black_join_succ : (join s a false x k y).Black (n + 1) ↔ x.Black n ∧ y.Black n := by
  cases s
  · rfl
  · exact and_comm

lemma proper_join : (join s a c x k y).Proper ↔
    (c = true → x.isRed = false ∧ y.isRed = false) ∧ x.Proper ∧ y.Proper := by
  cases s
  · rfl
  · simp only [join, Proper, and_comm (a := y.Proper), and_comm (a := y.isRed = false)]

lemma addrs_join : (join s a c x k y).addrs.Perm (a :: (x.addrs ++ y.addrs)) := by
  cases s
  · exact List.Perm.refl _
  · exact (List.perm_append_comm).cons a

@[simp] lemma mem_addrs_join :
    b ∈ (join s a c x k y).addrs ↔ b = a ∨ b ∈ x.addrs ∨ b ∈ y.addrs := by
  rw [addrs_join.mem_iff, List.mem_cons, List.mem_append]

@[simp] lemma count_addrs_join (b : ℕ) : (join s a c x k y).addrs.count b =
    (if a = b then 1 else 0) + x.addrs.count b + y.addrs.count b := by
  rw [addrs_join.count_eq, List.count_cons, List.count_append]
  simp only [beq_iff_eq]
  omega

theorem exists_join (s : Side) (h : t.ptr = some a) : ∃ c x k y, t = join s a c x k y := by
  cases t with
  | nil => cases h
  | node b c l k r =>
    cases h
    cases s
    · exact ⟨c, l, k, r, rfl⟩
    · exact ⟨c, r, k, l, rfl⟩

lemma exists_join_of_ne_nil (s : Side) (h : t ≠ nil) : ∃ a c x k y, t = join s a c x k y := by
  cases t with
  | nil => exact absurd rfl h
  | node a c l k r => exact ⟨a, exists_join s rfl⟩

lemma node_eq_join (s : Side) (a : ℕ) (c : Bool) (l : PTree κ) (k : κ) (r : PTree κ) :
    ∃ x y, node a c l k r = join s a c x k y := by
  cases s
  · exact ⟨l, r, rfl⟩
  · exact ⟨r, l, rfl⟩

lemma join_inj (h : join s a c x k y = join s' a' c' x' k' y') : a = a' ∧ c = c' ∧ k = k' ∧
      ((s = s' ∧ x = x' ∧ y = y') ∨ (s ≠ s' ∧ x = y' ∧ y = x')) := by
  cases s <;> cases s' <;> cases h <;> simp

lemma eq_nil_of_ptr (h : t.ptr = none) : t = nil := by
  cases t with
  | nil => rfl
  | node => cases h

lemma PTree.Black.paint (h : t.Black n) (hr : t.isRed = true) : (t.paint false).Black (n + 1) := by
  cases t with
  | nil => cases hr
  | node a c l k r =>
    cases hr
    exact h

lemma PTree.Proper.paint (h : t.Proper) : (t.paint false).Proper := by
  cases t with
  | nil => trivial
  | node a c l k r => exact ⟨fun h => absurd h (by decide), h.2⟩

end

/-- A node above the hole: `side` is where the hole is. -/
structure Frame (κ : Type) where
  side : Side
  addr : ℕ
  red : Bool
  key : κ
  sib : PTree κ

def Frame.fill (f : Frame κ) (t : PTree κ) : PTree κ := join f.side f.addr f.red t f.key f.sib

abbrev Context (κ : Type) := List (Frame κ)

namespace Context

def plug : Context κ → PTree κ → PTree κ
  | [], t => t
  | f :: fs, t => plug fs (f.fill t)

def addrs : Context κ → List ℕ
  | [] => []
  | f :: fs => f.addr :: (f.sib.addrs ++ addrs fs)

def size : Context κ → ℕ
  | [] => 0
  | f :: fs => f.sib.size + 1 + size fs

/-- A tree of black height `n` in the hole gives a tree of black height `N`. -/
def Black : Context κ → ℕ → ℕ → Prop
  | [], n, N => n = N
  | f :: fs, n, N => f.sib.Black n ∧ Black fs (if f.red then n else n + 1) N

/-- No red node outside the hole has a red child when the hole's root has colour `c`. -/
def Proper : Context κ → Bool → Prop
  | [], _ => True
  | f :: fs, c =>
      (f.red = true → c = false ∧ f.sib.isRed = false) ∧ f.sib.Proper ∧ Proper fs f.red

def before : Context κ → List κ
  | [] => []
  | f :: fs => match f.side with
    | .left => before fs
    | .right => before fs ++ (f.sib.keys ++ [f.key])

def after : Context κ → List κ
  | [] => []
  | f :: fs => match f.side with
    | .left => f.key :: f.sib.keys ++ after fs
    | .right => after fs

end Context

section
variable (ctx : Context κ) (t : PTree κ)

@[simp] lemma plug_nil : Context.plug ([] : Context κ) t = t := rfl

@[simp] lemma plug_cons (f : Frame κ) : Context.plug (f :: ctx) t = ctx.plug (f.fill t) := rfl

lemma plug_append (ctx' : Context κ) : Context.plug (ctx ++ ctx') t = ctx'.plug (ctx.plug t) := by
  induction ctx generalizing t with
  | nil => rfl
  | cons f fs ih => exact ih (f.fill t)

lemma addrs_append (ctx' : Context κ) : Context.addrs (ctx ++ ctx') = ctx.addrs ++ ctx'.addrs := by
  induction ctx with
  | nil => rfl
  | cons f fs ih => simp [Context.addrs, ih]

lemma keys_plug : (ctx.plug t).keys = ctx.before ++ t.keys ++ ctx.after := by
  induction ctx generalizing t with
  | nil => simp [Context.plug, Context.before, Context.after]
  | cons f fs ih =>
    obtain ⟨s, a, c, k, sib⟩ := f
    rw [plug_cons, ih]
    cases s <;> simp [Frame.fill, join, keys, Context.before, Context.after]

lemma addrs_plug : (ctx.plug t).addrs.Perm (t.addrs ++ ctx.addrs) := by
  induction ctx generalizing t with
  | nil => simp [Context.plug, Context.addrs]
  | cons f fs ih =>
    refine (ih (f.fill t)).trans ((addrs_join.append_right _).trans ?_)
    simp [Context.addrs]
    exact List.perm_middle.symm

variable {ctx t}

lemma black_fill {f : Frame κ} {m : ℕ} : (f.fill t).Black m ↔
    ∃ n, t.Black n ∧ f.sib.Black n ∧ m = if f.red then n else n + 1 := by
  obtain ⟨s, a, c, k, sib⟩ := f
  cases c with
  | true => simp [Frame.fill, black_join_true]
  | false =>
    simp [Frame.fill, black_join_false]
    exact exists_congr fun n => ⟨fun ⟨h1, h2, h3⟩ => ⟨h2, h3, h1⟩, fun ⟨h1, h2, h3⟩ => ⟨h3, h1, h2⟩⟩

lemma black_plug : (ctx.plug t).Black N ↔ ∃ n, t.Black n ∧ ctx.Black n N := by
  induction ctx generalizing t with
  | nil => simp [Context.Black]
  | cons f fs ih =>
    rw [plug_cons, ih]
    constructor
    · rintro ⟨m, hm, hctx⟩
      obtain ⟨n, hn, hs, rfl⟩ := black_fill.mp hm
      exact ⟨n, hn, hs, hctx⟩
    · rintro ⟨n, hn, hs, hctx⟩
      exact ⟨_, black_fill.mpr ⟨n, hn, hs, rfl⟩, hctx⟩

lemma proper_plug : (ctx.plug t).Proper ↔ t.Proper ∧ ctx.Proper t.isRed := by
  induction ctx generalizing t with
  | nil => simp [Context.Proper]
  | cons f fs ih =>
    rw [plug_cons, ih, Frame.fill, proper_join, isRed_join]
    constructor
    · rintro ⟨⟨h1, h2, h3⟩, h4⟩
      exact ⟨h2, h1, h3, h4⟩
    · rintro ⟨h2, h1, h3, h4⟩
      exact ⟨⟨h1, h2, h3⟩, h4⟩

lemma Context.Proper.mono (h : ctx.Proper c) : ctx.Proper false := by
  cases ctx with
  | nil => trivial
  | cons f fs => exact ⟨fun hr => ⟨rfl, (h.1 hr).2⟩, h.2⟩

end

section
variable [LinearOrder κ]

def Context.Between (ctx : Context κ) (key : κ) : Prop :=
  (∀ k ∈ ctx.before, k < key) ∧ ∀ k ∈ ctx.after, key < k

def Side.Turns (s : Side) (key k : κ) : Prop :=
  match s with
  | .left => key < k
  | .right => k < key

theorem between_cons {ctx : Context κ} {s : Side} {a : ℕ} {c : Bool} {x y : PTree κ} {k key : κ}
    (hs : (ctx.plug (join s a c x k y)).keys.Pairwise (· < ·)) (hb : ctx.Between key)
    (ht : s.Turns key k) : Context.Between (⟨s, a, c, k, y⟩ :: ctx) key := by
  rw [keys_plug] at hs
  have hu := (List.pairwise_append.mp (List.pairwise_append.mp hs).1).2.1
  cases s with
  | left =>
    refine ⟨hb.1, fun j hj => ?_⟩
    have hky : ∀ j ∈ y.keys, k < j := (List.pairwise_cons.mp (List.pairwise_append.mp hu).2.1).1
    simp [Context.after] at hj
    rcases hj with rfl | hj | hj
    · exact ht
    · exact lt_trans ht (hky j hj)
    · exact hb.2 j hj
  | right =>
    refine ⟨fun j hj => ?_, hb.2⟩
    have hyk : ∀ j ∈ y.keys, j < k := fun j hj =>
      (List.pairwise_append.mp hu).2.2 j hj k (List.mem_cons_self ..)
    simp [Context.before] at hj
    rcases hj with hj | hj | rfl
    · exact hb.1 j hj
    · exact lt_trans (hyk j hj) ht
    · exact ht

lemma turns_of_between {ctx : Context κ} {f : Frame κ} {key : κ}
    (h : Context.Between (f :: ctx) key) : f.side.Turns key f.key := by
  obtain ⟨s, a, c, k, y⟩ := f
  cases s with
  | left => exact h.2 k (by simp [Context.after])
  | right => exact h.1 k (by simp [Context.before])

end

end Eglibc.RedBlack
