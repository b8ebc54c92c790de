import Eglibc.Checked
import Eglibc.RedBlack

/-!
# Red-black trees in a store

A slot is the root variable or a child field. `At` says that a store holds a tree, split
at a slot.
-/
namespace Eglibc.TreeStore
open Checked RedBlack PTree
variable {κ : Type}

structure Node (κ : Type) where
  key : κ
  left : Option ℕ
  right : Option ℕ
  red : Bool

def Node.child (n : Node κ) : Side → Option ℕ
  | .left => n.left
  | .right => n.right

def Node.setChild (n : Node κ) (s : Side) (p : Option ℕ) : Node κ :=
  match s with
  | .left => { n with left := p }
  | .right => { n with right := p }

section
variable (n : Node κ) (s : Side) (p : Option ℕ)

@[simp] lemma child_setChild : (n.setChild s p).child s = p := by cases s <;> rfl

@[simp] lemma child_setChild_other : (n.setChild s p).child s.other = n.child s.other := by
  cases s <;> rfl

@[simp] lemma child_setChild_other' : (n.setChild s.other p).child s = n.child s := by
  cases s <;> rfl

@[simp] lemma child_mk (k : κ) (c : Bool) : (Node.mk k p p c).child s = p := by cases s <;> rfl

@[simp] lemma key_setChild : (n.setChild s p).key = n.key := by cases s <;> rfl

@[simp] lemma red_setChild : (n.setChild s p).red = n.red := by cases s <;> rfl

end

inductive Slot
  | root
  | child (addr : ℕ) (side : Side)
  deriving DecidableEq, Repr

/-- `size` counts the nodes allocated so far; it bounds every walk through the tree. -/
structure Store (κ : Type) where
  heap : ℕ → Option (Node κ)
  root : Option ℕ
  size : ℕ

namespace Store

def node (t : Store κ) (a : ℕ) : Run (Node κ) :=
  match t.heap a with
  | some n => .ok n
  | none => .error (.read a)

def deref : Option ℕ → Run ℕ
  | some a => .ok a
  | none => .error (.read 0)

def put (t : Store κ) (a : ℕ) (n : Node κ) : Store κ :=
  { t with heap := Function.update t.heap a (some n) }

def modify (t : Store κ) (a : ℕ) (f : Node κ → Node κ) : Run (Store κ) := do
  let n ← t.node a
  .ok (t.put a (f n))

def setRed (t : Store κ) (a : ℕ) (c : Bool) : Run (Store κ) := t.modify a fun n => { n with red := c }

def setKey (t : Store κ) (a : ℕ) (k : κ) : Run (Store κ) := t.modify a fun n => { n with key := k }

def setChild (t : Store κ) (a : ℕ) (s : Side) (p : Option ℕ) : Run (Store κ) :=
  t.modify a fun n => n.setChild s p

def get (t : Store κ) : Slot → Run (Option ℕ)
  | .root => .ok t.root
  | .child a s => do .ok ((← t.node a).child s)

def set (t : Store κ) (p : Option ℕ) : Slot → Run (Store κ)
  | .root => .ok { t with root := p }
  | .child a s => t.setChild a s p

/-- `p != NULL && p->red` -/
def isRed (t : Store κ) : Option ℕ → Run Bool
  | none => .ok false
  | some a => do .ok (← t.node a).red

end Store

section
variable {t : Store κ} {a b : ℕ} {n : Node κ}

lemma node_eq (h : t.heap a = some n) : t.node a = .ok n := by simp [Store.node, h]

lemma modify_eq (h : t.heap a = some n) (f : Node κ → Node κ) :
    t.modify a f = .ok (t.put a (f n)) := by
  simp [Store.modify, node_eq h]

@[simp] lemma heap_put_self : (t.put a n).heap a = some n := by simp [Store.put]

@[simp] lemma size_put : (t.put a n).size = t.size := rfl

lemma heap_put_ne (h : b ≠ a) : (t.put a n).heap b = t.heap b := by simp [Store.put, h]

lemma heap_put : (t.put a n).heap b = if b = a then some n else t.heap b := by
  simp [Store.put, Function.update_apply]

end

def Rep (h : ℕ → Option (Node κ)) : PTree κ → Prop
  | .nil => True
  | .node a c l k r => h a = some ⟨k, l.ptr, r.ptr, c⟩ ∧ Rep h l ∧ Rep h r

def CtxRep (t : Store κ) : Context κ → Option ℕ → Prop
  | [], p => t.root = p
  | f :: fs, p =>
      t.heap f.addr = some ((Node.mk f.key f.sib.ptr f.sib.ptr f.red).setChild f.side p) ∧
        Rep t.heap f.sib ∧ CtxRep t fs (some f.addr)

def slotOf : Context κ → Slot
  | [] => .root
  | f :: _ => .child f.addr f.side

structure At (t : Store κ) (ctx : Context κ) (u : PTree κ) : Prop where
  rep : Rep t.heap u
  context : CtxRep t ctx u.ptr
  nodup : (u.addrs ++ ctx.addrs).Nodup
  size : u.size + ctx.size ≤ t.size

section
variable {t t' : Store κ} {ctx : Context κ} {u : PTree κ}

lemma rep_congr (hr : Rep h u) (he : ∀ a ∈ u.addrs, h' a = h a) : Rep h' u := by
  induction u with
  | nil => trivial
  | node a c l k r ihl ihr =>
    refine ⟨(he a (by simp [addrs])).trans hr.1, ihl hr.2.1 fun b hb => he b ?_,
      ihr hr.2.2 fun b hb => he b ?_⟩
    · simp [addrs, hb]
    · simp [addrs, hb]

lemma rep_join : Rep h (join s a c x k y) ↔
      h a = some ((Node.mk k y.ptr y.ptr c).setChild s x.ptr) ∧ Rep h x ∧ Rep h y := by
  cases s
  · rfl
  · exact and_congr_right fun _ => and_comm

lemma isRed_ptr (h : Rep t.heap u) : t.isRed u.ptr = .ok u.isRed := by
  cases u with
  | nil => rfl
  | node a c l k r =>
    simp only [ptr, Store.isRed, node_eq h.1, ok_bind]
    rfl

lemma rep_put (ha : a ∉ u.addrs) (hr : Rep t.heap u) : Rep (t.put a n).heap u :=
  rep_congr hr fun _ hb => heap_put_ne fun he => ha (he ▸ hb)

lemma ctxRep_congr (hc : CtxRep t ctx p) (hr : t'.root = t.root)
    (he : ∀ a ∈ ctx.addrs, t'.heap a = t.heap a) : CtxRep t' ctx p := by
  induction ctx generalizing p with
  | nil => exact hr.trans hc
  | cons f fs ih =>
    obtain ⟨h1, h2, h3⟩ := hc
    refine ⟨(he _ (by simp [Context.addrs])).trans h1, rep_congr h2 fun a ha => he a ?_,
      ih h3 fun a ha => he a ?_⟩
    · simp [Context.addrs, ha]
    · simp [Context.addrs, ha]

lemma ctxRep_put (ha : a ∉ ctx.addrs) (hc : CtxRep t ctx p) : CtxRep (t.put a n) ctx p :=
  ctxRep_congr hc rfl fun _ hb => heap_put_ne fun he => ha (he ▸ hb)

lemma at_cons : At t (f :: ctx) u ↔ At t ctx (f.fill u) := by
  have hperm : (u.addrs ++ Context.addrs (f :: ctx)).Perm ((f.fill u).addrs ++ ctx.addrs) := by
    refine List.Perm.trans ?_ (addrs_join.symm.append_right _)
    simp only [Context.addrs, List.cons_append, List.append_assoc]
    exact List.perm_middle
  have hsize : u.size + Context.size (f :: ctx) = (f.fill u).size + ctx.size := by
    rw [Frame.fill, size_join]
    simp only [Context.size]
    omega
  constructor
  · rintro ⟨h1, ⟨h2, h3, h4⟩, h5, h6⟩
    exact ⟨rep_join.mpr ⟨h2, h1, h3⟩, by rwa [Frame.fill, ptr_join], hperm.nodup_iff.mp h5,
      hsize ▸ h6⟩
  · rintro ⟨h1, h2, h5, h6⟩
    obtain ⟨h3, h4, h7⟩ := rep_join.mp h1
    rw [Frame.fill, ptr_join] at h2
    exact ⟨h4, ⟨h3, h7, h2⟩, hperm.nodup_iff.mpr h5, hsize ▸ h6⟩

lemma at_swap : At t (⟨s, a, c, k, v⟩ :: ctx) u ↔ At t (⟨s.other, a, c, k, u⟩ :: ctx) v := by
  rw [at_cons, at_cons]
  exact iff_of_eq (congrArg (At t ctx) (join_other s a c u v k).symm)

lemma at_plug : At t ctx u ↔ At t [] (ctx.plug u) := by
  induction ctx generalizing u with
  | nil => rfl
  | cons f fs ih => rw [at_cons, ih, plug_cons]

lemma at_append : At t (pre ++ ctx) u ↔ At t ctx (pre.plug u) := by
  rw [at_plug, plug_append]
  exact at_plug.symm

lemma At.get_slot (h : At t ctx u) : t.get (slotOf ctx) = .ok u.ptr := by
  cases ctx with
  | nil => exact congrArg _ h.context
  | cons f fs =>
    simp only [slotOf, Store.get, node_eq h.context.1, ok_bind]
    rw [child_setChild]

lemma CtxRep.set_slot (hc : CtxRep t ctx p) (hn : ctx.addrs.Nodup)
    (q : Option ℕ) : ∃ t', t.set q (slotOf ctx) = .ok t' ∧ CtxRep t' ctx q ∧ t'.size = t.size ∧
      ∀ a ∉ ctx.addrs, t'.heap a = t.heap a := by
  cases ctx with
  | nil => exact ⟨_, rfl, rfl, rfl, fun _ _ => rfl⟩
  | cons f fs =>
    obtain ⟨h1, h2, h3⟩ := hc
    have hf := List.nodup_cons.mp hn
    simp at hf
    refine ⟨_, modify_eq h1 _, ⟨?_, rep_put hf.1.1 h2, ctxRep_put hf.1.2 h3⟩, rfl, ?_⟩
    · rw [heap_put_self]
      cases f.side <;> rfl
    · intro a ha
      exact heap_put_ne fun he => ha (by simp [Context.addrs, he])

lemma set_hole (hc : CtxRep t ctx p) (hr : Rep t.heap u)
    (hn : (u.addrs ++ ctx.addrs).Nodup) (hs : u.size + ctx.size ≤ t.size) :
    ∃ t', t.set u.ptr (slotOf ctx) = .ok t' ∧ At t' ctx u := by
  obtain ⟨hu, hctx, hdisj⟩ := List.nodup_append.mp hn
  obtain ⟨t', hset, hc', hsize, hframe⟩ := hc.set_slot hctx u.ptr
  exact ⟨t', hset, rep_congr hr fun a ha => hframe a fun hb => hdisj a ha a hb rfl, hc', hn,
    hsize ▸ hs⟩

lemma rep_mem (hr : Rep h u) (ha : a ∈ u.addrs) : h a ≠ none := by
  induction u with
  | nil => cases ha
  | node b c l k r ihl ihr =>
    simp [addrs] at ha
    rcases ha with rfl | ha | ha
    · simp [hr.1]
    · exact ihl hr.2.1 ha
    · exact ihr hr.2.2 ha

lemma ctxRep_mem (hc : CtxRep t ctx p) (ha : a ∈ ctx.addrs) : t.heap a ≠ none := by
  induction ctx generalizing p with
  | nil => cases ha
  | cons f fs ih =>
    obtain ⟨h1, h2, h3⟩ := hc
    simp [Context.addrs] at ha
    rcases ha with rfl | ha | ha
    · simp [h1]
    · exact rep_mem h2 ha
    · exact ih h3 ha

lemma nodup_of_count {l l' : List ℕ} (h : l.Nodup) (hc : ∀ a, l'.count a = l.count a) : l'.Nodup :=
  (List.perm_iff_count.mpr hc).nodup_iff.mpr h

end

end Eglibc.TreeStore
