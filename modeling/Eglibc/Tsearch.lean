import Eglibc.TreeStore

/-!
# tsearch, tfind, tdelete and twalk of misc/tsearch.c

`node *` variables are slots. The code treats left and right in mirrored branches;
here the branch taken is a `Side`. `malloc` is whatever allocator a call is given.
-/
namespace Eglibc.Tsearch
open Checked RedBlack TreeStore
variable {κ : Type}

def sideOf (r : ℤ) : Side := if r < 0 then .left else .right

/-- `if (p != NULL) p->red = 0` -/
def blacken (t : Store κ) : Option ℕ → Run (Store κ)
  | some a => t.setRed a false
  | none => .ok t

def paintSplit (t : Store κ) (root : ℕ) : Run (Store κ) := do
  let t ← t.setRed root true
  let n ← t.node root
  let t ← blacken t n.right
  blacken t n.left

/-- The two red edges differ in type: the child is put at the top, with its parent and
grandparent as successors. `s` is the side of the parent the child is on. -/
def liftChild (t : Store κ) (root p gp : ℕ) (gparentp : Slot) (s : Side) : Run (Store κ) := do
  let t ← t.setRed p true
  let t ← t.setRed gp true
  let t ← t.setRed root false
  let t ← t.setChild p s ((← t.node root).child s.other)
  let t ← t.setChild root s.other (some p)
  let t ← t.setChild gp s.other ((← t.node root).child s)
  let t ← t.setChild root s (some gp)
  t.set (some root) gparentp

/-- Both red edges are of the same type: the parent becomes the top of the tree,
grandparent and child are its successors. -/
def liftParent (t : Store κ) (p gp : ℕ) (gparentp : Slot) (s : Side) : Run (Store κ) := do
  let t ← t.set (some p) gparentp
  let t ← t.setRed p false
  let t ← t.setRed gp true
  let t ← t.setChild gp s ((← t.node p).child s.other)
  t.setChild p s.other (some gp)

/-- The parent of a node that has become red: if it is red too, a rotation is needed. -/
def fixRedParent (t : Store κ) (root : ℕ) (parentp gparentp : Option Slot) (p_r gp_r : ℤ) :
    Run (Store κ) :=
  match parentp with
  | none => .ok t
  | some parentp => do
    let p ← Store.deref (← t.get parentp)
    if (← t.node p).red then
      match gparentp with
      | none => .error (.read 0)
      | some gparentp =>
        let gp ← Store.deref (← t.get gparentp)
        if decide (0 < p_r) ≠ decide (0 < gp_r) then liftChild t root p gp gparentp (sideOf p_r)
        else liftParent t p gp gparentp (sideOf p_r)
    else .ok t

def maybeSplitForInsert (t : Store κ) (rootp : Slot) (parentp gparentp : Option Slot)
    (p_r gp_r : ℤ) (mode : ℕ) : Run (Store κ) := do
  let root ← Store.deref (← t.get rootp)
  let n ← t.node root
  let rightRed ← t.isRed n.right
  let leftRed ← t.isRed n.left
  if mode = 1 ∨ (rightRed ∧ leftRed) then
    let t ← paintSplit t root
    fixRedParent t root parentp gparentp p_r gp_r
  else .ok t

structure Descent (κ : Type) where
  store : Store κ
  rootp : Slot
  parentp : Option Slot
  gparentp : Option Slot
  r : ℤ
  p_r : ℤ
  gp_r : ℤ

inductive Reached (κ : Type)
  | found (store : Store κ) (root : ℕ)
  | place (d : Descent κ) (nextp : Slot)

def searchBody (compar : κ → κ → ℤ) (key : κ) (d : Descent κ) : Run (Descent κ ⊕ Reached κ) := do
  match ← d.store.get d.rootp with
  | none => .ok (.inr (.place d d.rootp))
  | some root =>
    let r := compar key (← d.store.node root).key
    if r = 0 then .ok (.inr (.found d.store root))
    else
      let t ← maybeSplitForInsert d.store d.rootp d.parentp d.gparentp d.p_r d.gp_r 0
      -- After a rotation `parentp` and `gparentp` are garbage.
      let nextp := Slot.child root (sideOf r)
      match ← t.get nextp with
      | none => .ok (.inr (.place { d with store := t, r } nextp))
      | some _ => .ok (.inl ⟨t, nextp, some d.rootp, d.parentp, r, r, d.p_r⟩)

/-- An allocator returns an address that holds no node, or fails. -/
structure Allocator (κ : Type) where
  alloc : (ℕ → Option (Node κ)) → Option ℕ
  fresh : ∀ h a, alloc h = some a → h a = none

/-- The returned pointer is the node that holds the key, or NULL without memory. -/
def tsearch (malloc : Allocator κ) (compar : κ → κ → ℤ) (key : κ) (t : Store κ) :
    Run (Store κ × Option ℕ) := do
  let t ← blacken t t.root
  match ← iterate (searchBody compar key) (2 * t.size + 1) ⟨t, .root, none, none, 0, 0, 0⟩ with
  | .found t root => .ok (t, some root)
  | .place d nextp =>
    match malloc.alloc d.store.heap with
    | none => .ok (d.store, none)
    | some q =>
      let t := d.store.put q ⟨key, none, none, true⟩
      let t ← Store.set { t with size := t.size + 1 } (some q) nextp
      if nextp ≠ d.rootp then
        let t ← maybeSplitForInsert t nextp (some d.rootp) d.parentp d.r d.p_r 1
        .ok (t, some q)
      else .ok (t, some q)

def findBody (compar : κ → κ → ℤ) (key : κ) (t : Store κ) (rootp : Slot) :
    Run (Slot ⊕ Option ℕ) := do
  match ← t.get rootp with
  | none => .ok (.inr none)
  | some root =>
    let r := compar key (← t.node root).key
    if r = 0 then .ok (.inr (some root)) else .ok (.inl (.child root (sideOf r)))

def tfind (compar : κ → κ → ℤ) (key : κ) (t : Store κ) : Run (Option ℕ) :=
  iterate (findBody compar key t) (t.size + 1) .root

/-- `nodestack`, the last entry first, and the room that has been made for it. -/
structure NodeStack where
  slots : List Slot
  stacksize : ℕ

def NodeStack.push (s : NodeStack) (slot : Slot) : NodeStack :=
  ⟨slot :: s.slots, if s.slots.length = s.stacksize then s.stacksize + 20 else s.stacksize⟩

/-- `nodestack[sp++] = slot`, with no look at the room that is left. -/
def NodeStack.put (s : NodeStack) (slot : Slot) : Run NodeStack :=
  if s.slots.length < s.stacksize then .ok { s with slots := slot :: s.slots }
  else .error (.write s.slots.length)

structure Walk where
  rootp : Slot
  p : Option ℕ
  stack : NodeStack

def walkBody (compar : κ → κ → ℤ) (key : κ) (t : Store κ) (w : Walk) :
    Run (Walk ⊕ Option Walk) := do
  let root ← Store.deref (← t.get w.rootp)
  let cmp := compar key (← t.node root).key
  if cmp = 0 then .ok (.inr (some w))
  else
    let rootp := Slot.child root (sideOf cmp)
    match ← t.get rootp with
    | none => .ok (.inr none)
    | some _ => .ok (.inl ⟨rootp, some root, w.stack.push w.rootp⟩)

/-- The way to the successor; the state is `parent`, `up` and the stack. -/
def successorBody (t : Store κ) (s : Slot × Slot × NodeStack) :
    Run ((Slot × Slot × NodeStack) ⊕ (ℕ × NodeStack)) := do
  let stack := s.2.2.push s.1
  let up ← Store.deref (← t.get s.2.1)
  match (← t.node up).left with
  | none => .ok (.inr (up, stack))
  | some _ => .ok (.inl (s.2.1, .child up .left, stack))

def chooseUnchained (t : Store κ) (root : ℕ) (w : Walk) : Run (ℕ × NodeStack) := do
  let n ← t.node root
  match n.left, n.right with
  | some _, some _ =>
    iterate (successorBody t) (t.size + 1) (w.rootp, .child root .right, w.stack)
  | _, _ => .ok (root, w.stack)

/-- Chain `r`, the only child of `unchained`, into its parent. -/
def unchain (t : Store κ) (rootp : Slot) (unchained : ℕ) (r : Option ℕ) (stack : NodeStack) :
    Run (Store κ) := do
  match stack.slots with
  | [] => t.set r rootp
  | pp :: _ =>
    let q ← Store.deref (← t.get pp)
    if (← t.node q).right = some unchained then t.setChild q .right r else t.setChild q .left r

/-- Rotate P towards R, which is on its side `s`: Q becomes the top node. -/
def rotateUp (t : Store κ) (p q : ℕ) (pp : Slot) (s : Side) : Run (Store κ) := do
  let t ← t.setChild p s.other ((← t.node q).child s)
  let t ← t.setChild q s (some p)
  t.set (some q) pp

/-- Q2, a child of Q, becomes the top node, with P and Q as successors. -/
def liftInner (t : Store κ) (p q q2 : ℕ) (pp : Slot) (s : Side) : Run (Store κ) := do
  let t ← t.setChild p s.other ((← t.node q2).child s)
  let t ← t.setChild q s ((← t.node q2).child s.other)
  let t ← t.setChild q2 s.other (some q)
  let t ← t.setChild q2 s (some p)
  t.set (some q2) pp

def rotateRed (t : Store κ) (p q : ℕ) (pp : Slot) (s : Side) : Run (Store κ) := do
  let t ← t.setRed q false
  let t ← t.setRed p true
  rotateUp t p q pp s

def repairNear (t : Store κ) (p q : ℕ) (pp : Slot) (s : Side) : Run (Store κ) := do
  let q2 ← Store.deref ((← t.node q).child s)
  let t ← t.setRed q2 (← t.node p).red
  let t ← liftInner t p q q2 pp s
  t.setRed p false

def repairFar (t : Store κ) (p q : ℕ) (pp : Slot) (s : Side) : Run (Store κ) := do
  let t ← t.setRed q (← t.node p).red
  let t ← t.setRed p false
  let t ← t.setRed (← Store.deref ((← t.node q).child s.other)) false
  rotateUp t p q pp s

structure Balance (κ : Type) where
  store : Store κ
  r : Option ℕ
  stack : NodeStack

/-- The rest of a pass, once Q is known to be black. -/
def balanceBlack (t : Store κ) (p q : ℕ) (pp : Slot) (s : Side) (stack : NodeStack) :
    Run (Balance κ) := do
  let n ← t.node q
  let nearRed ← t.isRed (n.child s)
  let farRed ← t.isRed (n.child s.other)
  if nearRed = false ∧ farRed = false then
    let t ← t.setRed q true
    .ok ⟨t, some p, { stack with slots := stack.slots.tail }⟩
  else
    -- `sp = 1` and the decrement that follows end the loop.
    let t ← if farRed = false then repairNear t p q pp s else repairFar t p q pp s
    .ok ⟨t, none, { stack with slots := [] }⟩

def balanceBody (b : Balance κ) : Run (Balance κ ⊕ Balance κ) := do
  match b.stack.slots with
  | [] => .ok (.inr b)
  | pp :: _ =>
    if ← b.store.isRed b.r then .ok (.inr b)
    else
      let p ← Store.deref (← b.store.get pp)
      let s := if b.r = (← b.store.node p).left then Side.left else .right
      let q ← Store.deref ((← b.store.node p).child s.other)
      if (← b.store.node q).red then
        let t ← rotateRed b.store p q pp s
        let stack ← b.stack.put (.child q s)
        let q' ← Store.deref ((← t.node p).child s.other)
        .ok (.inl (← balanceBlack t p q' (.child q s) s stack))
      else .ok (.inl (← balanceBlack b.store p q pp s b.stack))

def rebalance (t : Store κ) (r : Option ℕ) (stack : NodeStack) : Run (Store κ) := do
  let b ← iterate balanceBody (2 * stack.slots.length + 2) ⟨t, r, stack⟩
  blacken b.store b.r

def moveKey (t : Store κ) (root unchained : ℕ) : Run (Store κ) :=
  if unchained ≠ root then do
    t.setKey root (← t.node unchained).key
  else .ok t

def free (t : Store κ) (a : ℕ) : Store κ :=
  { t with heap := Function.update t.heap a none }

/-- The returned pointer is the parent of the deleted node. -/
def tdelete (compar : κ → κ → ℤ) (key : κ) (t : Store κ) : Run (Store κ × Option ℕ) := do
  match t.root with
  | none => .ok (t, none)
  | some p =>
    match ← iterate (walkBody compar key t) (t.size + 1) ⟨.root, some p, ⟨[], 40⟩⟩ with
    | none => .ok (t, none)
    | some w =>
      let root ← Store.deref (← t.get w.rootp)
      let (unchained, stack) ← chooseUnchained t root w
      let u ← t.node unchained
      let r := u.left.or u.right
      let t ← unchain t w.rootp unchained r stack
      let t ← moveKey t root unchained
      if u.red = false then
        let t ← rebalance t r stack
        .ok (free t unchained, w.p)
      else .ok (free t unchained, w.p)

inductive Visit
  | preorder
  | postorder
  | endorder
  | leaf

/-- The calls of `action`, with the key of the node and the level. -/
def trecurse (t : Store κ) : ℕ → ℕ → ℕ → Run (List (κ × Visit × ℕ))
  | 0, _, _ => .error .budget
  | budget + 1, level, root => do
    let n ← t.node root
    if n.left = none ∧ n.right = none then .ok [(n.key, .leaf, level)]
    else
      let left ← n.left.elim (.ok []) (trecurse t budget (level + 1))
      let right ← n.right.elim (.ok []) (trecurse t budget (level + 1))
      .ok ((n.key, .preorder, level) :: left ++ (n.key, .postorder, level) :: right ++
        [(n.key, .endorder, level)])

def twalk (t : Store κ) : Run (List (κ × Visit × ℕ)) :=
  t.root.elim (.ok []) (trecurse t t.size 0)

end Eglibc.Tsearch
