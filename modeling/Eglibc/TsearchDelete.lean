import Eglibc.TsearchInsert

/-!
# Deletion from the tree

If a black node has left, the subtree in its place is one black node short; the loop moves
the missing node towards the root. In its first pass it may push a slot on a full stack.
-/
namespace Eglibc.Tsearch
open Checked RedBlack TreeStore PTree
variable {κ : Type} {t : Store κ}

variable {u : PTree κ} {stack : NodeStack}

def slots : Context κ → List Slot
  | [] => []
  | _ :: rest => slotOf rest :: slots rest

lemma length_slots (ctx : Context κ) : (slots ctx).length = ctx.length := by
  induction ctx with
  | nil => rfl
  | cons f rest ih => simp [slots, ih]

def Contents (K : List κ) (a : ℕ) (T : PTree κ) : Prop := T.keys = K ∧ a ∉ T.addrs

def Short (ctx : Context κ) (R : PTree κ) : Prop :=
  (R.paint false).Proper ∧ ctx.Proper false ∧ ∃ m N, R.Black m ∧ ctx.Black (m + 1) N

section
variable {s : Side} {p q q₂ a : ℕ} {cp : Bool} {kp kq k₂ : κ} {R N F N₁ N₂ : PTree κ}
variable {ctx rest : Context κ} {K : List κ}

lemma mem_addrs_plug : a ∈ (ctx.plug u).addrs ↔ a ∈ u.addrs ∨ a ∈ ctx.addrs := by
  simp [(addrs_plug ctx u).mem_iff]

lemma contents_of_inner (ctx : Context κ) (h : Contents K a (ctx.plug u)) (hk : u'.keys = u.keys)
    (ha : a ∈ u'.addrs → a ∈ u.addrs) : Contents K a (ctx.plug u') := by
  obtain ⟨hK, hmem⟩ := h
  rw [mem_addrs_plug] at hmem
  refine ⟨by rw [← hK, keys_plug, keys_plug, hk], ?_⟩
  rw [mem_addrs_plug]
  tauto

lemma paint_of_black (h : u.isRed = false) : u.paint false = u := by
  cases u with
  | nil => rfl
  | node a c l k r =>
    cases h
    rfl

theorem Short.balanced_of_red (h : Short ctx R) (hr : R.isRed = true) :
    Balanced (ctx.plug (R.paint false)) := by
  obtain ⟨hp, hc, m, N, hm, hN⟩ := h
  exact ⟨proper_plug.mpr ⟨hp, by simpa using hc⟩, N, black_plug.mpr ⟨_, hm.paint hr, hN⟩⟩

lemma Short.balanced_of_nil (h : Short [] R) : Balanced (R.paint false) := by
  obtain ⟨hp, _, m, N, hm, _⟩ := h
  cases hr : R.isRed with
  | true => exact ⟨hp, _, hm.paint hr⟩
  | false => exact ⟨hp, m, by rwa [paint_of_black hr]⟩

lemma Short.sibling (h : Short (f :: rest) R) : f.sib ≠ .nil := by
  obtain ⟨_, _, m, N, _, hs, _⟩ := h
  intro he
  rw [he] at hs
  exact absurd hs (by simp [PTree.Black])

lemma Short.rotate (h : Short (⟨s, p, cp, kp, join s q true N kq F⟩ :: rest) R) :
    cp = false ∧ N.isRed = false ∧
      Short (⟨s, p, true, kp, N⟩ :: ⟨s, q, false, kq, F⟩ :: rest) R := by
  obtain ⟨hp, ⟨hcp, hsib, hrest⟩, m, M, hm, hs, hM⟩ := h
  obtain ⟨hq, hN, hF⟩ := proper_join.mp hsib
  obtain ⟨hNm, hFm⟩ := black_join_true.mp hs
  obtain rfl : cp = false := by
    cases cp with
    | false => rfl
    | true => exact absurd (hcp rfl).2 (by simp)
  refine ⟨rfl, (hq rfl).1, hp, ⟨fun _ => ⟨rfl, (hq rfl).1⟩, hN, ?_, hF, hrest⟩, m, M, hm, hNm, hFm, hM⟩
  simp

lemma Short.recolour (h : Short (⟨s, p, cp, kp, join s q false N kq F⟩ :: rest) R)
    (hR : R.isRed = false) (hN : N.isRed = false) (hF : F.isRed = false) :
    Short rest (join s p cp R kp (join s q true N kq F)) := by
  obtain ⟨hp, ⟨hcp, hsib, hrest⟩, m, M, hm, hs, hM⟩ := h
  rw [paint_of_black hR] at hp
  obtain ⟨_, hpN, hpF⟩ := proper_join.mp hsib
  obtain ⟨hNm, hFm⟩ := black_join_succ.mp hs
  refine ⟨?_, hrest.mono, if cp then m else m + 1, M, ?_, ?_⟩
  · rw [paint_join]
    exact proper_join.mpr ⟨by simp, hp,
      proper_join.mpr ⟨fun _ => ⟨hN, hF⟩, hpN, hpF⟩⟩
  · exact black_fill (f := ⟨s, p, cp, kp, _⟩).mpr ⟨_, hm, black_join_true.mpr ⟨hNm, hFm⟩, rfl⟩
  · cases cp <;> exact hM

lemma Short.far (h : Short (⟨s, p, cp, kp, join s q false N kq F⟩ :: rest) R)
    (hR : R.isRed = false) (hF : F.isRed = true) :
    Balanced (Context.plug (⟨s, p, false, kp, N⟩ :: ⟨s, q, cp, kq, F.paint false⟩ :: rest) R) := by
  obtain ⟨hp, ⟨hcp, hsib, hrest⟩, m, M, hm, hs, hM⟩ := h
  rw [paint_of_black hR] at hp
  obtain ⟨_, hpN, hpF⟩ := proper_join.mp hsib
  obtain ⟨hNm, hFm⟩ := black_join_succ.mp hs
  refine ⟨proper_plug.mpr ⟨hp, ?_, hpN, ?_, hpF.paint, hrest⟩, M, black_plug.mpr
    ⟨_, hm, hNm, hFm.paint hF, hM⟩⟩
  · simp
  · exact fun _ => ⟨rfl, by simp⟩

lemma Short.near
    (h : Short (⟨s, p, cp, kp, join s q false (join s q₂ true N₁ k₂ N₂) kq F⟩ :: rest) R)
    (hR : R.isRed = false) :
    Balanced (rest.plug (join s q₂ cp (join s p false R kp N₁) k₂ (join s q false N₂ kq F))) := by
  obtain ⟨hp, ⟨hcp, hsib, hrest⟩, m, M, hm, hs, hM⟩ := h
  rw [paint_of_black hR] at hp
  obtain ⟨_, hpN, hpF⟩ := proper_join.mp hsib
  obtain ⟨_, hpN1, hpN2⟩ := proper_join.mp hpN
  obtain ⟨hNm, hFm⟩ := black_join_succ.mp hs
  obtain ⟨hN1m, hN2m⟩ := black_join_true.mp hNm
  have hleft : (join s p false R kp N₁).Black (m + 1) := black_join_succ.mpr ⟨hm, hN1m⟩
  have hright : (join s q false N₂ kq F).Black (m + 1) :=
    black_join_succ.mpr ⟨hN2m, hFm⟩
  refine ⟨proper_plug.mpr ⟨proper_join.mpr ⟨fun _ => ?_, proper_join.mpr ⟨?_, hp, hpN1⟩,
    proper_join.mpr ⟨?_, hpN2, hpF⟩⟩, by simpa using hrest⟩, M, black_plug.mpr ⟨_,
    black_fill (f := ⟨s, q₂, cp, k₂, _⟩).mpr ⟨_, hleft, hright, rfl⟩, hM⟩⟩
  · simp
  · simp
  · simp

end

/-- The first pass of the loop does not push on a full stack: R is red, or there is room, or
its brother is black. -/
def Room (stack : NodeStack) (ctx : Context κ) (R : PTree κ) : Prop :=
  ctx.length ≤ stack.stacksize ∧
    (R.isRed = false → ctx.length = stack.stacksize → ∀ f ∈ ctx.head?, f.sib.isRed = false)

inductive Mending (K : List κ) (a : ℕ) (b : Balance κ) : ℕ → Prop
  | short {m : ℕ} (ctx : Context κ) (R : PTree κ) (layout : At b.store ctx R)
      (contents : Contents K a (ctx.plug R)) (short : Short ctx R) (r_eq : b.r = R.ptr)
      (stack_eq : b.stack.slots = slots ctx) (room : Room b.stack ctx R)
      (hm : m = 2 * ctx.length + if R.isRed then 0 else 1) : Mending K a b m
  | done (T : PTree κ) (layout : At b.store [] T) (contents : Contents K a T)
      (balanced : Balanced T) (r_eq : b.r = none) (stack_eq : b.stack.slots = []) : Mending K a b 0

def Mended (K : List κ) (a : ℕ) (b : Balance κ) : Prop :=
  ∃ t' T, blacken b.store b.r = .ok t' ∧ At t' [] T ∧ Contents K a T ∧ Balanced T

section
variable {s : Side} {p q a : ℕ} {cp : Bool} {kp kq : κ} {R N F : PTree κ}
variable {rest : Context κ} {K : List κ}

theorem balanceBlack_returns (hat : At t (⟨s, p, cp, kp, join s q false N kq F⟩ :: rest) R)
    (hshort : Short (⟨s, p, cp, kp, join s q false N kq F⟩ :: rest) R) (hR : R.isRed = false)
    (hK : Contents K a (Context.plug (⟨s, p, cp, kp, join s q false N kq F⟩ :: rest) R))
    (hstack : stack.slots = slotOf rest :: slots rest)
    (hroom : rest.length ≤ stack.stacksize ∧ (cp = false → rest.length < stack.stacksize)) :
    Returns (balanceBlack t p q (slotOf rest) s stack)
      (fun b => Mending K a b (2 * rest.length + if cp then 0 else 1) ∨ Mending K a b 0) := by
  have hq := rep_join.mp hat.context.2.1
  unfold balanceBlack
  simp only [node_eq hq.1, ok_bind, child_setChild, child_setChild_other, child_mk,
    isRed_ptr hq.2.1, isRed_ptr hq.2.2]
  by_cases hblack : N.isRed = false ∧ F.isRed = false
  · rw [if_pos hblack]
    obtain ⟨t', he, hat'⟩ := setRed_at (at_swap.mp hat) true
    rw [he, ok_bind]
    refine returns_ok (.inl (.short rest _ (at_cons.mp (at_swap.mpr hat')) ?_
      (hshort.recolour hR hblack.1 hblack.2) (by simp [Frame.fill]) (by simp [hstack]) ⟨hroom.1, ?_⟩
      (by simp [Frame.fill])))
    · refine contents_of_inner _ hK ?_ (by simp [Frame.fill])
      cases s <;> rfl
    · simp only [Frame.fill, isRed_join]
      intro hcp hfull
      exact absurd hfull (hroom.2 hcp).ne
  rw [if_neg hblack]
  cases hF : F.isRed with
  | true =>
    obtain ⟨t', he, hat'⟩ := repairFar_at hat hF
    simp [he, ok_bind]
    refine returns_ok (.inr (.done _ (at_plug.mp hat') ?_ (hshort.far hR hF) rfl rfl))
    refine contents_of_inner rest hK ?_ ?_
    · cases s <;> simp [Frame.fill, join, keys]
    · simp [Frame.fill]
      tauto
  | false =>
    obtain ⟨q₂, hptr⟩ : ∃ q₂, N.ptr = some q₂ := by
      cases N with
      | nil => exact absurd ⟨rfl, hF⟩ hblack
      | node q₂ c l k r => exact ⟨q₂, rfl⟩
    obtain ⟨c₂, N₁, k₂, N₂, rfl⟩ := exists_join s hptr
    obtain rfl : c₂ = true := by simpa [hF] using hblack
    obtain ⟨t', he, hat'⟩ := repairNear_at hat
    simp only [if_true, he, ok_bind]
    refine returns_ok (.inr (.done _ (at_plug.mp hat') ?_ (hshort.near hR) rfl rfl))
    refine contents_of_inner rest hK ?_ ?_
    · cases s <;> simp [Frame.fill, join, keys]
    · simp [Frame.fill]
      tauto

lemma side_found (h : At t (f :: rest) R) (hs : f.sib ≠ .nil) :
    (if R.ptr = ((Node.mk f.key f.sib.ptr f.sib.ptr f.red).setChild f.side R.ptr).left
      then Side.left else .right) = f.side := by
  obtain ⟨s, p, c, k, sib⟩ := f
  cases s with
  | left => simp [Node.setChild]
  | right =>
    refine if_neg fun he => ?_
    cases sib with
    | nil => exact hs rfl
    | node q cq l k r =>
      cases R with
      | nil => cases he
      | node q' c' l' k' r' =>
        cases he
        have hd := (List.nodup_append.mp h.nodup).2.2
        exact hd q (by simp [addrs]) q (by simp [Context.addrs, addrs]) rfl

lemma balanceBody_returns (m : ℕ) (b : Balance κ) (h : Mending K a b m) :
    Returns (balanceBody b) (Closer (fun m b => Mending K a b m) (Mended K a) m) := by
  obtain ⟨ctx, R, hat, hK, hshort, hr, hstack, hroom, rfl⟩ | ⟨T, hat, hK, hb, hr, hstack⟩ := h
  swap
  · simp only [balanceBody, hstack]
    exact returns_ok ⟨b.store, T, by rw [hr]; rfl, hat, hK, hb⟩
  have hblacken : ∀ hb : Balanced (ctx.plug (R.paint false)), Mended K a b := by
    intro hb
    obtain ⟨t', he, hat'⟩ := blacken_at hat
    exact ⟨t', _, hr ▸ he, at_plug.mp hat', contents_of_inner _ hK (by simp) (by simp), hb⟩
  unfold balanceBody
  cases ctx with
  | nil =>
    rw [hstack]
    exact returns_ok (hblacken hshort.balanced_of_nil)
  | cons f rest =>
    simp only [hstack, slots, hr, isRed_ptr hat.rep, ok_bind]
    cases hR : R.isRed with
    | true => exact returns_ok (hblacken (hshort.balanced_of_red hR))
    | false =>
      have hp : b.store.get (slotOf rest) = .ok (some f.addr) := by
        rw [(at_cons.mp hat).get_slot, Frame.fill, ptr_join]
      simp [hp, Store.deref, ok_bind, node_eq hat.context.1, side_found hat hshort.sibling,
        child_setChild_other, child_mk]
      obtain ⟨s, p, cp, kp, sib⟩ := f
      obtain ⟨q, cq, N, kq, F, rfl⟩ := exists_join_of_ne_nil s hshort.sibling
      simp only [ptr_join, ok_bind, node_eq (rep_join.mp hat.context.2.1).1, red_setChild]
      cases cq with
      | false =>
        have hlt : rest.length < b.stack.stacksize := by simpa using hroom.1
        refine (balanceBlack_returns hat hshort hR hK (by simpa [slots] using hstack)
          ⟨hlt.le, fun _ => hlt⟩).bind fun b' hb' => ?_
        obtain hb' | hb' := hb'
        · exact returns_ok ⟨_, by cases cp <;> simp, hb'⟩
        · exact returns_ok ⟨0, by simp, hb'⟩
      | true =>
        obtain ⟨rfl, hN, hshort'⟩ := hshort.rotate
        obtain ⟨t', he, hat'⟩ := rotateRed_at hat
        obtain ⟨q', cq', N₁, kq', N₂, rfl⟩ := exists_join_of_ne_nil s hshort'.sibling
        obtain rfl : cq' = false := by simpa using hN
        have hK' : Contents K a (Context.plug (⟨s, p, true, kp, join s q' false N₁ kq' N₂⟩ ::
            ⟨s, q, false, kq, F⟩ :: rest) R) := by
          refine contents_of_inner rest hK ?_ ?_
          · cases s <;> simp [Frame.fill, join, keys]
          · simp [Frame.fill]
            tauto
        -- the brother is red, so the stack is not full
        have hlt : rest.length + 1 < b.stack.stacksize := by
          refine lt_of_le_of_ne hroom.1 fun hfull => ?_
          simpa using hroom.2 hR hfull _ rfl
        have hput : b.stack.put (.child q s) =
            .ok { b.stack with slots := .child q s :: b.stack.slots } := by
          rw [NodeStack.put, hstack, length_slots, List.length_cons, if_pos hlt]
        simp only [if_true, he, ok_bind, hput, node_eq hat'.context.1, child_setChild_other, child_mk,
          ptr_join]
        have hslots : NodeStack.slots { b.stack with slots := .child q s :: b.stack.slots } =
            slotOf (⟨s, q, false, kq, F⟩ :: rest) :: slots (⟨s, q, false, kq, F⟩ :: rest) := by
          simp [hstack, slots, slotOf]
        refine (balanceBlack_returns hat' hshort' hR hK' hslots ⟨hlt.le, by simp⟩).bind
          fun b' hb' => ?_
        obtain hb' | hb' := hb'
        · exact returns_ok ⟨_, by simp, hb'⟩
        · exact returns_ok ⟨0, by simp, hb'⟩

lemma rebalance_returns (hat : At t ctx R)
    (hK : Contents K a (ctx.plug R)) (hshort : Short ctx R) (hstack : stack.slots = slots ctx)
    (hroom : Room stack ctx R) :
    Returns (rebalance t R.ptr stack) fun t' => ∃ T, At t' [] T ∧ Contents K a T ∧ Balanced T := by
  refine (iterate_closer balanceBody_returns (.short ctx R hat hK hshort rfl hstack hroom rfl) ?_).bind ?_
  · rw [hstack, length_slots]
    split_ifs <;> omega
  · rintro b ⟨t', T, he, hT⟩
    exact ⟨t', he, T, hT⟩

/-- The brother is red and the stack is full: the slot is stored behind it. -/
lemma balanceBody_overruns {b : Balance κ}
    (hat : At b.store (⟨s, p, cp, kp, join s q true N kq F⟩ :: rest) R) (hR : R.isRed = false)
    (hr : b.r = R.ptr)
    (hstack : b.stack.slots = slots (⟨s, p, cp, kp, join s q true N kq F⟩ :: rest))
    (hfull : b.stack.slots.length = b.stack.stacksize) :
    balanceBody b = .error (.write b.stack.stacksize) := by
  have hput : b.stack.put (.child q s) = .error (.write b.stack.stacksize) := by
    rw [NodeStack.put, if_neg (by omega), hfull]
  have hp : b.store.get (slotOf rest) = .ok (some p) := by
    rw [(at_cons.mp hat).get_slot, Frame.fill, ptr_join]
  have hside := side_found hat (by cases s <;> simp [join])
  dsimp only at hside
  rw [ptr_join] at hside
  obtain ⟨t', he, -⟩ := rotateRed_at hat
  unfold balanceBody
  simp only [hstack, slots, hr, isRed_ptr hat.rep, ok_bind, hR, hp, Store.deref,
    node_eq hat.context.1, hside, child_setChild_other, child_mk, ptr_join,
    node_eq (rep_join.mp hat.context.2.1).1, red_setChild, if_true, he, hput, error_bind,
    Bool.false_eq_true, if_false]

lemma rebalance_overruns (hat : At t ctx R) (hR : R.isRed = false)
    (hstack : stack.slots = slots ctx) (hfull : stack.slots.length = stack.stacksize)
    (hf : f ∈ ctx.head?) (hred : f.sib.isRed = true) :
    rebalance t R.ptr stack = .error (.write stack.stacksize) := by
  cases ctx with
  | nil => cases hf
  | cons g rest =>
    obtain rfl : g = f := by simpa using hf
    obtain ⟨s, p, cp, kp, sib⟩ := g
    obtain ⟨q, cq, N, kq, F, rfl⟩ := exists_join_of_ne_nil s (show sib ≠ .nil by
      rintro rfl
      cases hred)
    obtain rfl : cq = true := by simpa using hred
    have hbody := balanceBody_overruns (b := ⟨t, R.ptr, stack⟩) hat hR rfl hstack hfull
    rw [rebalance, iterate, hbody]
    rfl

end

/-! ## The node that leaves the tree -/

def PTree.noRed : PTree κ → Bool
  | .nil => true
  | .node _ c l _ r => !c && !l.isRed && !r.isRed

/-- The leftmost node of a tree, with the nodes above it. -/
def leftmost : PTree κ → Context κ → Context κ × PTree κ
  | .nil, ctx => (ctx, .nil)
  | .node a c l k r, ctx =>
    match l.ptr with
    | none => (ctx, .node a c l k r)
    | some _ => leftmost l (⟨.left, a, c, k, r⟩ :: ctx)

/-- The node that is taken out of the tree to delete a key, with the nodes above it: the
node of the key, or of the next key if it has two children. -/
def unchained [LinearOrder κ] (key : κ) : PTree κ → Context κ → Option (Context κ × PTree κ)
  | .nil, _ => none
  | .node a c l k r, ctx =>
    if key < k then unchained key l (⟨.left, a, c, k, r⟩ :: ctx)
    else if k < key then unchained key r (⟨.right, a, c, k, l⟩ :: ctx)
    else
      match l.ptr, r.ptr with
      | some _, some _ => some (leftmost r (⟨.right, a, c, k, l⟩ :: ctx))
      | _, _ => some (ctx, .node a c l k r)

/-- The stack is full with the nodes above (it has 40 places, then 60, 80 and so on), neither
the node nor its child is red, and its brother is. -/
def Overflows (ctx : Context κ) (u : PTree κ) : Prop :=
  40 ≤ ctx.length ∧ ctx.length % 20 = 0 ∧ PTree.noRed u = true ∧ ∃ f ∈ ctx.head?, f.sib.isRed = true

/-- The stack has room for what deleting the key from the tree pushes. -/
def RoomFor [LinearOrder κ] (key : κ) (T : PTree κ) : Prop :=
  ∀ ctx u, unchained key T [] = some (ctx, u) → ¬ Overflows ctx u

/-- The room is made in steps of 20 places, when it is needed. -/
def NodeStack.Grown (s : NodeStack) : Prop :=
  40 ≤ s.stacksize ∧ s.stacksize % 20 = 0 ∧ s.slots.length ≤ s.stacksize ∧
    (s.stacksize = 40 ∨ s.stacksize < s.slots.length + 20)

lemma NodeStack.Grown.push {s : NodeStack} (h : s.Grown) (slot : Slot) : (s.push slot).Grown := by
  obtain ⟨hleast, hmod, hle, hstep⟩ := h
  unfold NodeStack.push
  split_ifs with hfull
  · refine ⟨?_, ?_, ?_, .inr ?_⟩ <;> simp <;> omega
  · refine ⟨hleast, hmod, ?_, ?_⟩ <;> simp <;> omega

section
variable {s : Side} {a : ℕ} {c : Bool} {k : κ} {R : PTree κ} {ctx pre : Context κ} {f : Frame κ}

lemma ptr_ne_none (h : u ≠ .nil) : ∃ a, u.ptr = some a := by
  cases u with
  | nil => exact absurd rfl h
  | node a c l k r => exact ⟨a, rfl⟩

lemma leftmost_plug (acc : Context κ) (h : ∀ g ∈ pre, g.side = .left) (hu : u ≠ .nil) :
    leftmost (pre.plug u) acc = leftmost u (pre ++ acc) := by
  induction pre generalizing u with
  | nil => rfl
  | cons g pre ih =>
    obtain ⟨s, a, c, k, sib⟩ := g
    obtain rfl : s = .left := h _ List.mem_cons_self
    obtain ⟨b, hb⟩ := ptr_ne_none hu
    rw [plug_cons, ih (fun g hg => h g (List.mem_cons_of_mem _ hg)) (by simp [Frame.fill])]
    simp [Frame.fill, join, leftmost, hb]

lemma unchained_plug [LinearOrder κ] {key : κ} (acc : Context κ) (h : Context.Between ctx key) :
    unchained key (ctx.plug u) acc = unchained key u (ctx ++ acc) := by
  induction ctx generalizing u with
  | nil => rfl
  | cons g ctx ih =>
    obtain ⟨s, a, c, k, sib⟩ := g
    cases s with
    | left =>
      simp only [Context.Between, Context.before, Context.after, List.mem_cons, List.mem_append] at h
      have hlt := h.2 k (.inl (.inl rfl))
      rw [plug_cons, ih ⟨h.1, fun k' hk' => h.2 k' (.inr hk')⟩]
      simp [Frame.fill, join, unchained, hlt]
    | right =>
      simp only [Context.Between, Context.before, Context.after, List.mem_append,
        List.mem_singleton] at h
      have hlt := h.1 k (.inr (.inr rfl))
      rw [plug_cons, ih ⟨fun k' hk' => h.1 k' (.inl hk'), h.2⟩]
      simp [Frame.fill, join, unchained, hlt, hlt.not_gt]

lemma roomFor_iff [LinearOrder κ] {key : κ} {T : PTree κ}
    (h : unchained key T [] = some (ctx, u)) : RoomFor key T ↔ ¬ Overflows ctx u := by
  refine ⟨fun hroom => hroom _ _ h, fun hroom ctx' u' h' => ?_⟩
  cases h.symm.trans h'
  exact hroom

lemma room_iff (hgrown : stack.Grown) (hstack : stack.slots = slots ctx)
    (hu : PTree.noRed u = true ↔ c = false ∧ R.isRed = false) :
    ¬ Overflows ctx u ↔ (c = false → Room stack ctx R) := by
  have hlength : stack.slots.length = ctx.length := by rw [hstack, length_slots]
  obtain ⟨hleast, hmod, hle, hstep⟩ := hgrown
  constructor
  · intro h hc
    refine ⟨hlength ▸ hle, fun hR hfull f hf => ?_⟩
    by_contra hred
    exact h ⟨by omega, by omega, hu.mpr ⟨hc, hR⟩, f, hf, by simpa using hred⟩
  · rintro h ⟨hdepth, hfull, hblack, f, hf, hred⟩
    obtain ⟨hc, hR⟩ := hu.mp hblack
    have hsib := (h hc).2 hR (by omega) f hf
    rw [hred] at hsib
    cases hsib

lemma room_rekey (k : κ) : Room stack (pre ++ { f with key := k } :: ctx) R ↔
    Room stack (pre ++ f :: ctx) R := by
  cases pre <;> simp [Room]

structure Leftmost (t : Store κ) (f : Frame κ) (ctx : Context κ) (u₀ : PTree κ)
    (pre : Context κ) (u : PTree κ) (stack : List Slot) : Prop where
  layout : At t (pre ++ f :: ctx) u
  plug_eq : pre.plug u = u₀
  lefts : ∀ g ∈ pre, g.side = .left
  stack_eq : stack = slots (pre ++ f :: ctx)

lemma successorBody_returns (m : ℕ) (w : Slot × Slot × NodeStack)
    (h : ∃ pre u, Leftmost t f ctx u0 pre u (w.1 :: w.2.2.slots) ∧ w.2.2.Grown ∧ u ≠ .nil ∧
      w.2.1 = slotOf (pre ++ f :: ctx) ∧ m = u.size) :
    Returns (successorBody t w) (Closer (fun m w => ∃ pre u,
      Leftmost t f ctx u0 pre u (w.1 :: w.2.2.slots) ∧ w.2.2.Grown ∧ u ≠ .nil ∧
        w.2.1 = slotOf (pre ++ f :: ctx) ∧ m = u.size)
      (fun out => ∃ pre c k r, Leftmost t f ctx u0 pre (.node out.1 c .nil k r) out.2.slots ∧
        out.2.Grown) m) := by
  obtain ⟨pre, u, h, hgrown, hne, hup, rfl⟩ := h
  have hget := h.layout.get_slot
  rw [← hup] at hget
  cases u with
  | nil => exact absurd rfl hne
  | node x c l k r =>
    simp only [successorBody, hget, ptr, Store.deref, ok_bind, node_eq h.layout.rep.1]
    cases l with
    | nil => exact returns_ok ⟨pre, c, k, r, h, hgrown.push _⟩
    | node y cy ly ky ry =>
      refine returns_ok ⟨_, ?_, ⟨.left, x, c, k, r⟩ :: pre, _, ⟨at_cons.mpr h.layout, h.plug_eq, ?_,
        ?_⟩, hgrown.push _, by simp, rfl, rfl⟩
      · simp [size]
      · rintro g (_ | ⟨_, hg⟩)
        · rfl
        · exact h.lefts g hg
      · simp [NodeStack.push, slots, hup, ← h.stack_eq]

lemma unchain_returns (rootp : Slot) (h : At t ctx (join s a c .nil k R))
    (hroot : ctx = [] → rootp = .root) (hstack : stack.slots = slots ctx) :
    ∃ t', unchain t rootp a R.ptr stack = .ok t' ∧ At t' ctx R ∧ a ∉ (ctx.plug R).addrs ∧
      t'.heap a = t.heap a := by
  obtain ⟨hrep, hctx, hnd, hsz⟩ := h
  have hcells : (a :: (R.addrs ++ ctx.addrs)).Nodup := by
    refine nodup_of_count hnd fun b => ?_
    simp [List.count_cons, addrs]
    ring
  obtain ⟨hnot, hRc⟩ := List.nodup_cons.mp hcells
  obtain ⟨_, hc, hdisj⟩ := List.nodup_append.mp hRc
  rw [List.mem_append, not_or] at hnot
  obtain ⟨t', hset, hc', hsize, hframe⟩ := hctx.set_slot hc R.ptr
  refine ⟨t', ?_, ⟨rep_congr (rep_join.mp hrep).2.2 fun b hb => hframe b fun hb' =>
    hdisj b hb b hb' rfl, hc', hRc, ?_⟩, ?_, hframe a hnot.2⟩
  · cases ctx with
    | nil => simpa [unchain, hstack, slots, hroot, slotOf] using hset
    | cons f rest =>
      have hq : t.get (slotOf rest) = .ok (some f.addr) := by
        have := (at_cons.mp ⟨hrep, hctx, hnd, hsz⟩).get_slot
        rwa [Frame.fill, ptr_join] at this
      obtain ⟨d, q, cq, kq, sib⟩ := f
      rw [ptr_join] at hctx
      simp only [unchain, hstack, slots, hq, Store.deref, ok_bind, node_eq hctx.1]
      cases d with
      | right => exact (if_pos rfl).trans hset
      | left =>
        rw [if_neg]
        · exact hset
        intro he
        cases sib with
        | nil => cases he
        | node b cb lb kb rb =>
          cases he
          exact hnot.2 (by simp [Context.addrs, addrs])
  · rw [size_join] at hsz
    omega
  · rw [mem_addrs_plug]
    tauto

lemma setKey_at (h : At t (pre ++ f :: ctx) u) (k : κ) :
    ∃ t', t.setKey f.addr k = .ok t' ∧ At t' (pre ++ { f with key := k } :: ctx) u := by
  simp only [at_append] at h ⊢
  obtain ⟨hrep, ⟨hf, hsib, hctx⟩, hnd, hsz⟩ := h
  have hcells : (f.addr :: ((pre.plug u).addrs ++ (f.sib.addrs ++ ctx.addrs))).Nodup := by
    refine nodup_of_count hnd fun b => ?_
    simp [List.count_cons, Context.addrs]
    ring
  have hnot := (List.nodup_cons.mp hcells).1
  simp at hnot
  refine ⟨_, modify_eq hf _, rep_put hnot.1 hrep, ⟨?_, rep_put hnot.2.1 hsib,
    ctxRep_put hnot.2.2 hctx⟩, hnd, hsz⟩
  rw [heap_put_self]
  cases f.side <;> rfl

section
variable (k : κ)

lemma proper_rekey : Context.Proper (pre ++ { f with key := k } :: ctx) c ↔
    Context.Proper (pre ++ f :: ctx) c := by
  induction pre generalizing c with
  | nil => rfl
  | cons g pre ih => exact and_congr_right fun _ => and_congr_right fun _ => ih

lemma black_rekey {n N : ℕ} : Context.Black (pre ++ { f with key := k } :: ctx) n N ↔
    Context.Black (pre ++ f :: ctx) n N := by
  induction pre generalizing n with
  | nil => rfl
  | cons g pre ih => exact and_congr_right fun _ => ih

lemma slots_rekey : slots (pre ++ { f with key := k } :: ctx) = slots (pre ++ f :: ctx) := by
  induction pre with
  | nil => rfl
  | cons g pre ih =>
    have hslot : slotOf (pre ++ { f with key := k } :: ctx) = slotOf (pre ++ f :: ctx) := by
      cases pre <;> rfl
    simp [slots, hslot, ih]

end

def Leaving (c : Bool) (ctx : Context κ) (R : PTree κ) : Prop :=
  R.Proper ∧ (c = true → R.isRed = false) ∧ ctx.Proper c ∧
    ∃ m N, R.Black m ∧ ctx.Black (if c then m else m + 1) N

lemma leaving_of_balanced (h : Balanced (ctx.plug (join s a c .nil k R))) : Leaving c ctx R := by
  obtain ⟨hp, N, hN⟩ := h
  obtain ⟨hu, hctx⟩ := proper_plug.mp hp
  obtain ⟨hc, _, hR⟩ := proper_join.mp hu
  obtain ⟨n, hn, hctxN⟩ := black_plug.mp hN
  obtain ⟨m, _, hm, rfl⟩ := black_fill (f := ⟨s, a, c, k, R⟩).mp hn
  exact ⟨hR, fun h => (hc h).2, by simpa using hctx, m, N, hm, hctxN⟩

lemma Leaving.rekey (h : Leaving c (pre ++ f :: ctx) R) (k : κ) :
    Leaving c (pre ++ { f with key := k } :: ctx) R := by
  obtain ⟨hR, hc, hctx, m, N, hm, hN⟩ := h
  exact ⟨hR, hc, (proper_rekey k).mpr hctx, m, N, hm, (black_rekey k).mpr hN⟩

lemma Leaving.short (h : Leaving false ctx R) : Short ctx R := by
  obtain ⟨hR, _, hctx, m, N, hm, hN⟩ := h
  exact ⟨hR.paint, hctx, m, N, hm, hN⟩

lemma Leaving.balanced (h : Leaving true ctx R) : Balanced (ctx.plug R) := by
  obtain ⟨hR, hc, hctx, m, N, hm, hN⟩ := h
  refine ⟨proper_plug.mpr ⟨hR, ?_⟩, N, black_plug.mpr ⟨m, hm, hN⟩⟩
  rw [hc rfl]
  exact hctx.mono

lemma keys_plug_lefts (h : ∀ g ∈ pre, g.side = .left) :
    (pre.plug u).keys = u.keys ++ pre.after := by
  have hb : pre.before = [] := by
    induction pre with
    | nil => rfl
    | cons g pre ih =>
      rw [Context.before, h g (by simp)]
      exact ih fun g hg => h g (by simp [hg])
  simp [keys_plug, hb]

lemma free_at (h : At t [] T) (ha : a ∉ T.addrs) : At (free t a) [] T := by
  obtain ⟨hrep, hctx, hnd, hsz⟩ := h
  refine ⟨rep_congr hrep fun b hb => ?_, hctx, hnd, hsz⟩
  exact Function.update_of_ne (fun he : b = a => ha (he ▸ hb)) _ _

end

section
variable [LinearOrder κ] {key : κ} {K : List κ}

structure Walking (K : List κ) (key : κ) (t : Store κ) (m : ℕ) (w : Walk) (ctx : Context κ)
    (u : PTree κ) : Prop where
  cut : Cut K key t ctx u
  slot : w.rootp = slotOf ctx
  stack : w.stack.slots = slots ctx
  grown : w.stack.Grown
  parent : w.p ≠ none
  ne_nil : u ≠ .nil
  bound : m = u.size

def WalkEnds (K : List κ) (key : κ) (t : Store κ) : Option Walk → Prop
  | none => key ∉ K
  | some w => ∃ m ctx root c l r, Walking K key t m w ctx (.node root c l key r)

lemma walkBody_returns (o : Comparison κ) (hK : K.Pairwise (· < ·)) (m : ℕ) (w : Walk)
    (h : ∃ ctx u, Walking K key t m w ctx u) : Returns (walkBody o.compar key t w)
      (Closer (fun m w => ∃ ctx u, Walking K key t m w ctx u) (WalkEnds K key t) m) := by
  obtain ⟨ctx, u, h⟩ := h
  have hget := h.cut.layout.get_slot
  rw [← h.slot] at hget
  simp only [walkBody, hget, ok_bind]
  cases u with
  | nil => exact absurd rfl h.ne_nil
  | node x c l kx r =>
    simp only [ptr, Store.deref, node_eq h.cut.layout.rep.1, ok_bind]
    split_ifs with hr
    · obtain rfl := (o.zero key kx).mp hr
      exact returns_ok ⟨m, ctx, x, c, l, r, h⟩
    have hs := o.turns hr
    generalize sideOf (o.compar key kx) = s at hs ⊢
    obtain ⟨X, Y, hu⟩ := node_eq_join s x c l kx r
    rw [hu] at h
    have hpush := h.cut.push hK hs
    have hX : t.get (.child x s) = .ok X.ptr := hpush.layout.get_slot
    rw [hX, ok_bind]
    cases hp : X.ptr with
    | none =>
      obtain rfl := eq_nil_of_ptr hp
      exact returns_ok hpush.not_mem
    | some a =>
      refine returns_ok ⟨X.size, ?_, _, X, hpush, rfl, ?_, h.grown.push _, by simp, ?_, rfl⟩
      · rw [h.bound, size_join]
        omega
      · simp [NodeStack.push, slots, h.slot, h.stack]
      · rintro rfl
        cases hp

lemma erase_of_sorted (h : (A ++ key :: B).Pairwise (· < ·)) :
    (A ++ key :: B).erase key = A ++ B := by
  have hA : key ∉ A := fun hm =>
    lt_irrefl _ ((List.pairwise_append.mp h).2.2 key hm key (List.mem_cons_self ..))
  rw [List.erase_append_right _ hA, List.erase_cons_head]

/-- The node at `a`, of colour `c`, has left the tree. `Fits` is what the stack has to meet. -/
def Unlinked (Fits : Prop) (K : List κ) (a : ℕ) (c : Bool) (r : Option ℕ) (stack : NodeStack)
    (t : Store κ) : Prop :=
  ∃ ctx R, r = R.ptr ∧ At t ctx R ∧ Contents K a (ctx.plug R) ∧ Leaving c ctx R ∧
    stack.slots = slots ctx ∧ stack.Grown ∧ (Fits ↔ (c = false → Room stack ctx R))

section
variable {w : Walk} {ctx : Context κ} {root m : ℕ} {c : Bool} {l r : PTree κ}

lemma unlink_self (hK : K.Pairwise (· < ·)) (h : Walking K key t m w ctx (.node root c l key r))
    (hnil : l = .nil ∨ r = .nil) : ∃ t1,
      unchain t w.rootp root (l.ptr.or r.ptr) w.stack = .ok t1 ∧ moveKey t1 root root = .ok t1 ∧
        Unlinked (RoomFor key (ctx.plug (.node root c l key r))) (K.erase key) root c
          (l.ptr.or r.ptr) w.stack t1 := by
  obtain ⟨s, R, hu, hR, hkeys, hred⟩ : ∃ s R, PTree.node root c l key r = join s root c .nil key R ∧
      l.ptr.or r.ptr = R.ptr ∧ l.keys ++ r.keys = R.keys ∧
        (PTree.noRed (.node root c l key r) = true ↔ c = false ∧ R.isRed = false) := by
    have hnone : (PTree.nil : PTree κ).isRed = false := rfl
    rcases hnil with rfl | rfl
    · exact ⟨.left, r, rfl, rfl, rfl, by simp [PTree.noRed, hnone]⟩
    · exact ⟨.right, l, rfl, by simp [ptr], by simp [keys], by simp [PTree.noRed, hnone]⟩
  have hlocated : unchained key (ctx.plug (.node root c l key r)) [] =
      some (ctx, .node root c l key r) := by
    rw [unchained_plug [] h.cut.between]
    rcases hnil with rfl | rfl
    · simp [unchained, ptr]
    · cases l <;> simp [unchained, ptr]
  have hK' : K = (ctx.before ++ l.keys) ++ key :: (r.keys ++ ctx.after) := by
    rw [← h.cut.keys_eq, keys_plug]
    simp [keys]
  obtain ⟨hcut, hslot, hstack, hgrown, _, _, _⟩ := h
  rw [hu] at hcut
  obtain ⟨t1, he, hat, hnot, _⟩ := unchain_returns w.rootp hcut.layout
    (fun h => by rw [hslot, h]; rfl) hstack
  refine ⟨t1, hR ▸ he, if_neg (by simp), ctx, R, hR, hat, ⟨?_, hnot⟩,
    leaving_of_balanced hcut.balanced, hstack, hgrown,
    (roomFor_iff hlocated).trans (room_iff hgrown hstack hred)⟩
  rw [hK', erase_of_sorted (hK' ▸ hK), keys_plug, ← hkeys]
  simp

theorem unlink_successor (hK : K.Pairwise (· < ·))
    (h : Walking K key t m w ctx (.node root c l key r)) (hleft : l ≠ .nil) (hright : r ≠ .nil)
    (hgrown : stack.Grown)
    (hl : Leftmost t ⟨.right, root, c, key, l⟩ ctx r pre (.node a c1 .nil k1 R) stack.slots) :
    ∃ t1 t2, unchain t w.rootp a R.ptr stack = .ok t1 ∧ moveKey t1 root a = .ok t2 ∧
      Unlinked (RoomFor key (ctx.plug (.node root c l key r))) (K.erase key) a c1 R.ptr stack t2 := by
  obtain ⟨hat, hplug, hlefts, hstack⟩ := hl
  have hnone : (PTree.nil : PTree κ).isRed = false := rfl
  have hlocated : unchained key (ctx.plug (.node root c l key r)) [] =
      some (pre ++ ⟨.right, root, c, key, l⟩ :: ctx, .node a c1 .nil k1 R) := by
    obtain ⟨b, hb⟩ := ptr_ne_none hleft
    obtain ⟨d, hd⟩ := ptr_ne_none hright
    have hnext : leftmost r (⟨.right, root, c, key, l⟩ :: ctx) =
        (pre ++ ⟨.right, root, c, key, l⟩ :: ctx, .node a c1 .nil k1 R) := by
      rw [← hplug, leftmost_plug _ hlefts (by simp)]
      rfl
    rw [unchained_plug [] h.cut.between]
    simp [unchained, hb, hd, hnext]
  have hbal : Balanced (Context.plug (pre ++ ⟨.right, root, c, key, l⟩ :: ctx)
      (.node a c1 .nil k1 R)) := by
    rw [plug_append, hplug]
    exact h.cut.balanced
  obtain ⟨t1, he, hat1, hnot, hheap⟩ := unchain_returns (s := .left) w.rootp hat
    (by simp) hstack
  obtain ⟨t2, he2, hat2⟩ := setKey_at hat1 k1
  have hne : a ≠ root := by
    rintro rfl
    rw [mem_addrs_plug, not_or] at hnot
    exact hnot.2 (by simp [addrs_append, Context.addrs])
  have hnode : t1.node a = .ok ⟨k1, none, R.ptr, c1⟩ := node_eq (hheap.trans hat.rep.1)
  refine ⟨t1, t2, he, ?_, _, R, rfl, hat2, ⟨?_, ?_⟩, (leaving_of_balanced (s := .left) hbal).rekey k1,
    by rw [hstack, slots_rekey], hgrown, ?_⟩
  · rwa [moveKey, if_pos hne, hnode, ok_bind]
  · have hr : r.keys = k1 :: (R.keys ++ pre.after) := by
      rw [← hplug, keys_plug_lefts hlefts]
      rfl
    have hK' : K = (ctx.before ++ l.keys) ++ key :: (r.keys ++ ctx.after) := by
      rw [← h.cut.keys_eq, keys_plug]
      simp [keys]
    rw [hK', erase_of_sorted (hK' ▸ hK), plug_append, plug_cons, keys_plug, Frame.fill]
    simp [join, keys, keys_plug_lefts hlefts, hr]
  · rw [mem_addrs_plug] at hnot ⊢
    simpa only [addrs_append, Context.addrs] using hnot
  · rw [roomFor_iff hlocated, room_iff (c := c1) (R := R) hgrown hstack (by simp [PTree.noRed, hnone]),
      room_rekey]

lemma chooseUnchained_returns (hK : K.Pairwise (· < ·))
    (h : Walking K key t m w ctx (.node root c l key r)) :
    Returns (chooseUnchained t root w) fun out => ∃ u t1 t2, t.node out.1 = .ok u ∧
      unchain t w.rootp out.1 (u.left.or u.right) out.2 = .ok t1 ∧ moveKey t1 root out.1 = .ok t2 ∧
      Unlinked (RoomFor key (ctx.plug (.node root c l key r))) (K.erase key) out.1 u.red
        (u.left.or u.right) out.2 t2 := by
  have hnode := node_eq h.cut.layout.rep.1
  simp only [chooseUnchained, hnode, ok_bind]
  cases l with
  | nil =>
    obtain ⟨t1, he1, he2, hu⟩ := unlink_self hK h (.inl rfl)
    exact returns_ok ⟨_, t1, t1, hnode, he1, he2, hu⟩
  | node y cy ly ky ry =>
    cases r with
    | nil =>
      obtain ⟨t1, he1, he2, hu⟩ := unlink_self hK h (.inr rfl)
      exact returns_ok ⟨_, t1, t1, hnode, he1, he2, hu⟩
    | node z cz lz kz rz =>
      have hat := at_cons (f := ⟨.right, root, c, key, .node y cy ly ky ry⟩).mpr h.cut.layout
      have hsize := hat.size
      refine (iterate_closer successorBody_returns ⟨[], _, ⟨hat, rfl, by simp, ?_⟩, h.grown, by simp,
        rfl, rfl⟩ (by omega)).mono ?_
      · simp [slots, h.slot, h.stack]
      · rintro ⟨a, stack⟩ ⟨pre, c1, k1, R, hl, hgrown⟩
        obtain ⟨t1, t2, he1, he2, hu⟩ := unlink_successor hK h (by simp) (by simp) hgrown hl
        exact ⟨_, t1, t2, node_eq hl.layout.rep.1, he1, he2, hu⟩

end

/-- What is left to do once the node has been unchained. -/
def settle (c : Bool) (t : Store κ) (r : Option ℕ) (stack : NodeStack) (a : ℕ) (p : Option ℕ) :
    Run (Store κ × Option ℕ) :=
  if c = false then do
    let t ← rebalance t r stack
    .ok (free t a, p)
  else .ok (free t a, p)

theorem settle_returns (hK : K.Pairwise (· < ·)) (h : Unlinked Fits K a c r stack t) (hfits : Fits) :
    Returns (settle c t r stack a p) fun out => (∃ T, Holds out.1 T ∧ T.keys = K) ∧ out.2 = p := by
  obtain ⟨ctx, R, rfl, hat, hcontents, hleaving, hstack, -, hroom⟩ := h
  have hholds : ∀ {t' : Store κ} {T : PTree κ}, At t' [] T → Contents K a T → Balanced T →
      ∃ T, Holds (free t' a) T ∧ T.keys = K := fun hat hc hb =>
    ⟨_, ⟨free_at hat hc.2, hc.1.symm ▸ hK, hb⟩, hc.1⟩
  cases c with
  | true => exact returns_ok ⟨hholds (at_plug.mp hat) hcontents hleaving.balanced, rfl⟩
  | false =>
    refine (rebalance_returns hat hcontents hleaving.short hstack (hroom.mp hfits rfl)).bind ?_
    rintro t' ⟨T, hT, hc, hb⟩
    exact returns_ok ⟨hholds hT hc hb, rfl⟩

omit [LinearOrder κ] in
lemma settle_overruns (h : Unlinked Fits K a c r stack t) (hfits : ¬ Fits) :
    settle c t r stack a p = .error (.write stack.stacksize) := by
  obtain ⟨ctx, R, rfl, hat, -, -, hstack, hgrown, hroom⟩ := h
  have hlength : stack.slots.length = ctx.length := by rw [hstack, length_slots]
  rw [hroom] at hfits
  push Not at hfits
  obtain ⟨hc, hroom⟩ := hfits
  simp only [Room, ← hlength, hgrown.2.2.1, true_and] at hroom
  push Not at hroom
  obtain ⟨hR, hfull, f, hf, hred⟩ := hroom
  rw [settle, if_pos hc, rebalance_overruns hat hR hstack hfull hf (by simpa using hred), error_bind]

omit [LinearOrder κ] in
lemma rep_unique {v : PTree κ} (hu : Rep h u) (hv : Rep h v) (hptr : u.ptr = v.ptr) : u = v := by
  induction u generalizing v with
  | nil => exact (eq_nil_of_ptr hptr.symm).symm
  | node a c l k r ihl ihr =>
    cases v with
    | nil => cases hptr
    | node b d l' k' r' =>
      cases hptr
      have hnode := Option.some.inj (hu.1.symm.trans hv.1)
      rw [Node.mk.injEq] at hnode
      obtain ⟨rfl, hl, hr, rfl⟩ := hnode
      rw [ihl hu.2.1 hv.2.1 hl, ihr hu.2.2 hv.2.2 hr]

lemma mem_of_unchained {ctx : Context κ} (h : unchained key T ctx = some out) : key ∈ T.keys := by
  induction T generalizing ctx with
  | nil => cases h
  | node a c l k r ihl ihr =>
    unfold unchained at h
    rw [keys, List.mem_append, List.mem_cons]
    split_ifs at h with hlt hgt
    · exact .inl (ihl h)
    · exact .inr (.inr (ihr h))
    · exact .inr (.inl (le_antisymm (not_lt.mp hgt) (not_lt.mp hlt)))

lemma tdelete_unlinks (o : Comparison κ) (h : Holds t T) (key : κ) :
    (tdelete o.compar key t = .ok (t, none) ∧ key ∉ T.keys) ∨
      key ∈ T.keys ∧ ∃ a c r stack t' p, p ≠ none ∧
        tdelete o.compar key t = settle c t' r stack a p ∧
        Unlinked (RoomFor key T) (T.keys.erase key) a c r stack t' := by
  have hroot : t.root = T.ptr := h.layout.context
  rw [tdelete, hroot]
  cases T with
  | nil => exact .inl ⟨rfl, by simp [keys]⟩
  | node x c l k r =>
    have hstart : Walking (PTree.node x c l k r).keys key t (PTree.node x c l k r).size
        ⟨.root, some x, ⟨[], 40⟩⟩ [] (.node x c l k r) :=
      ⟨⟨h.layout, rfl, h.balanced, by simp [Context.Between, Context.before, Context.after]⟩, rfl,
        rfl, ⟨le_rfl, by simp, by simp, .inl rfl⟩, by simp, by simp, rfl⟩
    have hsize : (PTree.node x c l k r).size ≤ t.size := by
      simpa [Context.size] using h.layout.size
    have hwalks : Returns (iterate (walkBody o.compar key t) (t.size + 1)
        ⟨.root, some x, ⟨[], 40⟩⟩) (WalkEnds (PTree.node x c l k r).keys key t) :=
      iterate_closer (walkBody_returns o h.sorted) ⟨_, _, hstart⟩ (by omega)
    obtain ⟨w, hw, hends⟩ := hwalks
    simp only [ptr, hw, ok_bind]
    cases w with
    | none => exact .inl ⟨rfl, hends⟩
    | some w =>
      obtain ⟨m, ctx, root, c', l', r', hwalk⟩ := hends
      have hget := hwalk.cut.layout.get_slot
      rw [← hwalk.slot] at hget
      have hwhole : ctx.plug (.node root c' l' key r') = .node x c l k r := by
        have hat := at_plug.mp hwalk.cut.layout
        exact rep_unique hat.rep h.layout.rep (hat.context.symm.trans h.layout.context)
      obtain ⟨⟨a, stack⟩, hchoose, u, t1, t2, hu, he1, he2, hunlinked⟩ :=
        chooseUnchained_returns h.sorted hwalk
      rw [hwhole] at hunlinked
      refine .inr ⟨hwalk.cut.mem, a, u.red, u.left.or u.right, stack, t2, w.p, hwalk.parent, ?_,
        hunlinked⟩
      simp only [hget, ptr, Store.deref, ok_bind, hchoose, hu, he1, he2]
      rfl

def Deleted (key : κ) (T : PTree κ) (out : Store κ × Option ℕ) : Prop :=
  (∃ T', Holds out.1 T' ∧ T'.keys = T.keys.erase key) ∧ (out.2 = none ↔ key ∉ T.keys)

lemma tdelete_returns (o : Comparison κ) (h : Holds t T) (hroom : RoomFor key T) :
    Returns (tdelete o.compar key t) (Deleted key T) := by
  obtain ⟨hrun, hnot⟩ | ⟨hmem, a, c, r, stack, t', p, hp, hrun, hunlinked⟩ := tdelete_unlinks o h key
  · rw [hrun]
    exact returns_ok ⟨⟨T, h, (List.erase_of_not_mem hnot).symm⟩, fun _ => hnot, fun _ => rfl⟩
  · rw [hrun]
    refine (settle_returns (h.sorted.sublist List.erase_sublist) hunlinked hroom).mono ?_
    rintro out ⟨hT, rfl⟩
    exact ⟨hT, iff_of_false hp (not_not.mpr hmem)⟩

lemma tdelete_overruns (o : Comparison κ) (h : Holds t T) (hroom : ¬ RoomFor key T) :
    ∃ stacksize, tdelete o.compar key t = .error (.write stacksize) := by
  obtain ⟨-, hnot⟩ | ⟨-, a, c, r, stack, t', p, -, hrun, hunlinked⟩ := tdelete_unlinks o h key
  · exact absurd (fun ctx u hu => absurd (mem_of_unchained hu) hnot) hroom
  · exact ⟨_, hrun.trans (settle_overruns hunlinked hroom)⟩

end

end Eglibc.Tsearch
