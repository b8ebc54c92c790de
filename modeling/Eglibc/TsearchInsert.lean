import Eglibc.TsearchSteps

/-!
# Insertion into the tree

On the way down a black node with two red children is split, and the red edge that this
moves up is rotated away at once.
-/
namespace Eglibc.Tsearch
open Checked RedBlack TreeStore PTree
variable {κ : Type} {t : Store κ}

variable {s : Side} {c : Bool} {k : κ} {u : PTree κ} {ctx : Context κ} {K : List κ}

def Balanced (u : PTree κ) : Prop := u.Proper ∧ ∃ n, u.Black n

def Calm : PTree κ → Prop
  | .nil => False
  | .node _ c l _ r => c = false ∧ l.isRed = false ∧ r.isRed = false

lemma calm_join : Calm (join s a c X k Y) ↔ c = false ∧ X.isRed = false ∧ Y.isRed = false := by
  cases s
  · rfl
  · simp only [join, Calm, and_comm (a := Y.isRed = false)]

lemma calm_paint (hr : u.isRed = true) (hp : u.Proper) : Calm (u.paint false) := by
  cases u with
  | nil => cases hr
  | node a c l k r => exact ⟨rfl, hp.1 hr⟩

lemma Calm.isRed (h : Calm u) : u.isRed = false := by
  cases u with
  | nil => exact h.elim
  | node a c l k r => exact h.1

lemma Calm.ne_nil (h : Calm u) : u ≠ .nil := by
  rintro rfl
  exact h

/-- The tree after a split of `x` in a context, seen from the child of `x` on side `s`. -/
inductive Restored (s : Side) (x : ℕ) (X : PTree κ) (kx : κ) (Y : PTree κ) :
    Context κ → Context κ → PTree κ → Prop
  | flip {ctx : Context κ} (h : ∀ f ∈ ctx.head?, f.red = false) :
      Restored s x X kx Y ctx (⟨s, x, true, kx, Y⟩ :: ctx) X
  | straight (d : Side) (p g : ℕ) (kp kg : κ) (Sp Sg : PTree κ) (rest : Context κ) :
      Restored s x X kx Y (⟨d, p, true, kp, Sp⟩ :: ⟨d, g, false, kg, Sg⟩ :: rest)
        (⟨s, x, true, kx, Y⟩ :: ⟨d, p, false, kp, join d g true Sp kg Sg⟩ :: rest) X
  | below (p g : ℕ) (kp kg : κ) (Sp Sg : PTree κ) (rest : Context κ) :
      Restored s x X kx Y (⟨s, p, true, kp, Sp⟩ :: ⟨s.other, g, false, kg, Sg⟩ :: rest)
        (⟨s, x, false, kx, join s p true Y kp Sp⟩ :: rest) (join s.other g true X kg Sg)
  | beside (p g : ℕ) (kp kg : κ) (Sp Sg : PTree κ) (rest : Context κ) :
      Restored s x X kx Y (⟨s.other, p, true, kp, Sp⟩ :: ⟨s, g, false, kg, Sg⟩ :: rest)
        (⟨s, x, false, kx, join s g true Y kg Sg⟩ :: rest) (join s.other p true X kp Sp)

def UncleBlack : Context κ → Prop
  | [] => True
  | [f] => f.red = false
  | f :: g :: _ => f.red = true → g.sib.isRed = false

section
variable {s : Side} {x : ℕ} {X Y u' : PTree κ} {kx : κ} {ctx ctx' : Context κ}

section
variable (h : Restored s x X kx Y ctx ctx' u')
include h

lemma Restored.slot : slotOf ctx' = .child x s := by
  cases h <;> rfl

lemma Restored.node (hat : At t ctx' u') : ∃ n, t.heap x = some n ∧ n.key = kx := by
  cases h <;> exact ⟨_, hat.context.1, key_setChild ..⟩

lemma Restored.ne_nil (hX : X ≠ .nil) : u' ≠ .nil := by
  cases h with
  | flip | straight => exact hX
  | below | beside => simp

lemma Restored.keys_eq : (ctx'.plug u').keys = (ctx.plug (join s x true X kx Y)).keys := by
  cases h with
  | flip => rfl
  | straight d =>
    simp only [keys_plug, plug_cons]
    cases d <;> simp [Frame.fill, join, keys]
  | below | beside =>
    simp only [keys_plug, plug_cons]
    cases s <;> simp [Frame.fill, join, keys, Side.other]

lemma Restored.black (hb : (ctx.plug (join s x true X kx Y)).Black N) : (ctx'.plug u').Black N := by
  obtain ⟨n, hn, hctx⟩ := black_plug.mp hb
  obtain ⟨hX, hY⟩ := black_join_true.mp hn
  cases h with
  | flip => exact hb
  | straight d p g kp kg Sp Sg rest =>
    obtain ⟨hSp, hSg, hrest⟩ := hctx
    exact black_plug.mpr ⟨n, hX, hY, black_join_true.mpr ⟨hSp, hSg⟩, hrest⟩
  | below p g kp kg Sp Sg rest =>
    obtain ⟨hSp, hSg, hrest⟩ := hctx
    exact black_plug.mpr ⟨n, black_join_true.mpr ⟨hX, hSg⟩, black_join_true.mpr ⟨hY, hSp⟩, hrest⟩
  | beside p g kp kg Sp Sg rest =>
    obtain ⟨hSp, hSg, hrest⟩ := hctx
    exact black_plug.mpr ⟨n, black_join_true.mpr ⟨hX, hSp⟩, black_join_true.mpr ⟨hY, hSg⟩, hrest⟩

lemma Restored.proper (hX : X.Proper ∧ X.isRed = false)
    (hY : Y.Proper ∧ Y.isRed = false) (hctx : ctx.Proper false) (hu : UncleBlack ctx) :
    (ctx'.plug u').Proper := by
  cases h with
  | flip hf =>
    refine proper_plug.mpr ⟨hX.1, fun _ => ⟨hX.2, hY.2⟩, hY.1, ?_⟩
    cases ctx with
    | nil => trivial
    | cons f fs => exact ⟨fun hr => absurd (hr.symm.trans (hf f rfl)) (by decide), hctx.2⟩
  | straight d p g kp kg Sp Sg rest =>
    obtain ⟨hp, hSp, hg, hSg, hrest⟩ := hctx
    exact proper_plug.mpr ⟨hX.1, fun _ => ⟨hX.2, hY.2⟩, hY.1, by simp,
      proper_join.mpr ⟨fun _ => ⟨(hp rfl).2, hu rfl⟩, hSp, hSg⟩, hrest⟩
  | below p g kp kg Sp Sg rest =>
    obtain ⟨hp, hSp, hg, hSg, hrest⟩ := hctx
    exact proper_plug.mpr ⟨proper_join.mpr ⟨fun _ => ⟨hX.2, hu rfl⟩, hX.1, hSg⟩,
      by simp, proper_join.mpr ⟨fun _ => ⟨hY.2, (hp rfl).2⟩, hY.1, hSp⟩, hrest⟩
  | beside p g kp kg Sp Sg rest =>
    obtain ⟨hp, hSp, hg, hSg, hrest⟩ := hctx
    exact proper_plug.mpr ⟨proper_join.mpr ⟨fun _ => ⟨hX.2, (hp rfl).2⟩, hX.1, hSp⟩,
      by simp, proper_join.mpr ⟨fun _ => ⟨hY.2, hu rfl⟩, hY.1, hSg⟩, hrest⟩

end

end

def Linked : Context κ → Option Slot → Option Slot → ℤ → ℤ → Prop
  | [], parentp, _, _, _ => parentp = none
  | f :: rest, parentp, gparentp, p_r, gp_r =>
      parentp = some (slotOf rest) ∧ p_r ≠ 0 ∧ sideOf p_r = f.side ∧ (f.red = true →
        ∃ g rest', rest = g :: rest' ∧ gparentp = some (slotOf rest') ∧ gp_r ≠ 0 ∧
          sideOf gp_r = g.side ∧ g.sib.isRed = false)

lemma sides_differ (hp : p_r ≠ 0) (hg : gp_r ≠ 0) :
    decide (0 < p_r) ≠ decide (0 < gp_r) ↔ sideOf gp_r = (sideOf p_r).other := by
  unfold sideOf
  split_ifs <;> simp [Side.other] <;> omega

section
variable {s : Side} {x : ℕ} {X Y : PTree κ} {kx : κ} {ctx : Context κ}
variable {parentp gparentp : Option Slot} {p_r gp_r : ℤ}

lemma Linked.uncleBlack (h : Linked ctx parentp gparentp p_r gp_r) : UncleBlack ctx := by
  cases ctx with
  | nil => trivial
  | cons f rest =>
    cases rest with
    | nil =>
      cases hr : f.red with
      | false => exact hr
      | true => obtain ⟨g, rest', he, _⟩ := h.2.2.2 hr; cases he
    | cons g rest =>
      intro hr
      obtain ⟨g', rest', he, _, _, _, hs⟩ := h.2.2.2 hr
      cases he
      exact hs

lemma liftChild_restored (h : At t (⟨d, p, true, kp, Sp⟩ :: ⟨d.other, g, false, kg, Sg⟩ :: rest)
      (join s x true X kx Y)) :
    ∃ t' ctx' u', liftChild t x p g (slotOf rest) d = .ok t' ∧ Restored s x X kx Y
      (⟨d, p, true, kp, Sp⟩ :: ⟨d.other, g, false, kg, Sg⟩ :: rest) ctx' u' ∧ At t' ctx' u' := by
  by_cases hs : d = s
  · subst hs
    obtain ⟨t', he, hat⟩ := liftChild_at h
    exact ⟨t', _, _, he, .below p g kp kg Sp Sg rest, at_cons.mpr hat⟩
  obtain rfl : d = s.other := by
    revert hs
    cases s <;> cases d <;> simp [Side.other]
  rw [← join_other] at h
  obtain ⟨t', he, hat⟩ := liftChild_at h
  rw [Side.other_other, join_other] at hat
  rw [Side.other_other]
  exact ⟨t', _, _, he, .beside p g kp kg Sp Sg rest, at_cons.mpr hat⟩

lemma fixRedParent_returns (h : At t ctx (join s x true X kx Y)) (hc : ctx.Proper false)
    (hl : Linked ctx parentp gparentp p_r gp_r) :
    ∃ t' ctx' u', fixRedParent t x parentp gparentp p_r gp_r = .ok t' ∧
      Restored s x X kx Y ctx ctx' u' ∧ At t' ctx' u' := by
  cases ctx with
  | nil =>
    cases hl
    exact ⟨t, _, _, rfl, .flip (by simp), at_cons.mpr h⟩
  | cons f rest =>
    obtain ⟨d, p, cp, kp, Sp⟩ := f
    obtain ⟨rfl, hp0, rfl, hred⟩ := hl
    have hparent : t.get (slotOf rest) = .ok (some p) := by
      rw [(at_cons.mp h).get_slot, Frame.fill, ptr_join]
    have hnode := node_eq h.context.1
    simp only [fixRedParent, hparent, Store.deref, ok_bind, hnode, red_setChild]
    cases cp with
    | false => exact ⟨t, _, _, rfl, .flip (by simp), at_cons.mpr h⟩
    | true =>
      obtain ⟨⟨e, g, cg, kg, Sg⟩, rest, rfl, rfl, hg0, rfl, _⟩ := hred rfl
      obtain rfl : cg = false := by
        cases cg with
        | false => rfl
        | true => exact absurd (hc.2.2.1 rfl).1 (by simp)
      have hgrand : t.get (slotOf rest) = .ok (some g) := by
        rw [(at_cons.mp (at_cons.mp h)).get_slot, Frame.fill, ptr_join]
      simp only [hgrand, ok_bind, if_true]
      split_ifs with hne
      · rw [(sides_differ hp0 hg0).mp hne] at h ⊢
        exact liftChild_restored h
      obtain hd : sideOf gp_r = sideOf p_r := by
        have := mt (sides_differ hp0 hg0).mpr hne
        revert this
        cases sideOf gp_r <;> cases sideOf p_r <;> simp [Side.other]
      rw [hd] at h ⊢
      obtain ⟨t', he, hat⟩ := liftParent_at h
      exact ⟨t', _, _, he, .straight _ _ _ _ _ _ _ _, at_cons.mpr (at_cons.mpr hat)⟩

end

section
variable {s : Side} {x mode : ℕ} {c : Bool} {X Y u' : PTree κ} {kx : κ} {ctx ctx' : Context κ}
variable {parentp gparentp : Option Slot} {p_r gp_r : ℤ}

lemma maybeSplitForInsert_eq (h : At t ctx (join s x c X kx Y)) :
    maybeSplitForInsert t (slotOf ctx) parentp gparentp p_r gp_r mode =
      if mode = 1 ∨ (X.isRed ∧ Y.isRed) then do
        let t ← paintSplit t x
        fixRedParent t x parentp gparentp p_r gp_r
      else .ok t := by
  obtain ⟨hx, hX, hY⟩ := rep_join.mp h.rep
  unfold maybeSplitForInsert
  simp only [h.get_slot, ptr_join, Store.deref, ok_bind, node_eq hx]
  cases s
  · simp [Node.setChild, isRed_ptr hX, isRed_ptr hY, and_comm]
  · simp [Node.setChild, isRed_ptr hX, isRed_ptr hY]

lemma maybeSplitForInsert_returns (mode : ℕ) (h : At t ctx (join s x c X kx Y))
    (hsplit : mode = 1 ∨ (X.isRed ∧ Y.isRed)) (hc : ctx.Proper false)
    (hl : Linked ctx parentp gparentp p_r gp_r) :
    ∃ t' ctx' u', maybeSplitForInsert t (slotOf ctx) parentp gparentp p_r gp_r mode = .ok t' ∧
      Restored s x (X.paint false) kx (Y.paint false) ctx ctx' u' ∧ At t' ctx' u' := by
  obtain ⟨t1, he, hat⟩ := paintSplit_at h
  rw [maybeSplitForInsert_eq h, if_pos hsplit, he, ok_bind]
  exact fixRedParent_returns hat hc hl

theorem split_balanced (hb : Balanced (ctx.plug (join s x c X kx Y))) (hX : X.isRed = true)
    (hY : Y.isRed = true) (hu : UncleBlack ctx)
    (h : Restored s x (X.paint false) kx (Y.paint false) ctx ctx' u') :
    Balanced (ctx'.plug u') := by
  obtain ⟨hp, N, hN⟩ := hb
  obtain ⟨hpu, hpc⟩ := proper_plug.mp hp
  obtain ⟨hcx, hpX, hpY⟩ := proper_join.mp hpu
  obtain rfl : c = false := by
    cases c with
    | false => rfl
    | true => exact absurd (hX.symm.trans (hcx rfl).1) (by decide)
  obtain ⟨n, hn, hctx⟩ := black_plug.mp hN
  obtain ⟨m, rfl, hmX, hmY⟩ := black_join_false.mp hn
  refine ⟨h.proper ⟨hpX.paint, by simp⟩ ⟨hpY.paint, by simp⟩ (by simpa using hpc) hu, N,
    h.black (black_plug.mpr ⟨m + 1, black_join_true.mpr ⟨?_, ?_⟩, hctx⟩)⟩
  · exact hmX.paint hX
  · exact hmY.paint hY

end

lemma slot_ne (h : At t (⟨s, x, c, kx, Y⟩ :: ctx) X) : slotOf ctx ≠ .child x s := by
  cases ctx with
  | nil => exact Slot.noConfusion
  | cons f rest =>
    have hn := (List.nodup_append.mp h.nodup).2.1
    simp [Context.addrs] at hn
    exact fun he => hn.1.2.1 (Slot.child.inj he).1.symm

lemma Balanced.paint (h : Balanced u) : Balanced (u.paint false) := by
  obtain ⟨hp, n, hn⟩ := h
  cases hr : u.isRed with
  | true => exact ⟨hp.paint, n + 1, hn.paint hr⟩
  | false =>
    refine ⟨hp.paint, n, ?_⟩
    cases u with
    | nil => exact hn
    | node a c l k r =>
      cases hr
      exact hn

theorem insert_balanced (hb : Balanced (ctx.plug (.nil : PTree κ))) (hu : UncleBlack ctx)
    (h : Restored .left q .nil key .nil ctx ctx' u') : Balanced (ctx'.plug u') := by
  obtain ⟨hp, N, hN⟩ := hb
  obtain ⟨n, hn, hctx⟩ := black_plug.mp hN
  refine ⟨h.proper ⟨trivial, rfl⟩ ⟨trivial, rfl⟩ (proper_plug.mp hp).2 hu, N, h.black ?_⟩
  exact black_plug.mpr ⟨n, ⟨hn, hn⟩, hctx⟩

lemma link_at (key : κ) (h : At t ctx (.nil : PTree κ)) (hq : t.heap q = none) :
    ∃ t', Store.set { t.put q ⟨key, none, none, true⟩ with size := t.size + 1 } (some q)
      (slotOf ctx) = .ok t' ∧ At t' ctx (.node q true .nil key .nil) := by
  obtain ⟨_, hctx, hnd, hsz⟩ := h
  have hnot : q ∉ ctx.addrs := fun ha => ctxRep_mem hctx ha hq
  refine set_hole (u := .node q true .nil key .nil) (p := none) ?_ ?_ ?_ ?_
  · exact ctxRep_congr (ctxRep_put hnot hctx) rfl fun _ _ => rfl
  · exact ⟨by simp [ptr], trivial, trivial⟩
  · simpa [addrs, hnot] using hnd
  · simp [size] at hsz ⊢
    omega

section
variable [LinearOrder κ] {key : κ}

structure Comparison (κ : Type) [LinearOrder κ] where
  compar : κ → κ → ℤ
  neg : ∀ a b, compar a b < 0 ↔ a < b
  zero : ∀ a b, compar a b = 0 ↔ a = b

lemma Comparison.turns (o : Comparison κ) (h : o.compar key k ≠ 0) :
    (sideOf (o.compar key k)).Turns key k := by
  unfold sideOf
  split_ifs with hneg
  · exact (o.neg key k).mp hneg
  · exact lt_of_le_of_ne (not_lt.mp (mt (o.neg key k).mpr hneg))
      (Ne.symm (mt (o.zero key k).mpr h))

lemma turns_unique (hs : s.Turns key k) (hd : d.Turns key k) : s = d := by
  cases s <;> cases d
  · rfl
  · exact absurd hs (lt_asymm hd)
  · exact absurd hs (lt_asymm hd)
  · rfl

/-- The root is black; any other red node that is met has a black brother. -/
def Lone : Context κ → PTree κ → Prop
  | [], u => u.isRed = false
  | f :: _, u => u.isRed = true → f.sib.isRed = false

/-- Where the descent stands; `m` bounds the passes left. -/
inductive Phase (key : κ) (d : Descent κ) (ctx : Context κ) (u : PTree κ) (m : ℕ) : Prop
  | ordinary (hl : Linked ctx d.parentp d.gparentp d.p_r d.gp_r) (hr : Lone ctx u)
      (hm : m = 2 * u.size)
  | calm (hc : Calm u) (hm : m = 2 * u.size)
  | passing (s : Side) (a : ℕ) (A : PTree κ) (k : κ) (S : PTree κ) (hu : u = join s a true A k S)
      (hA : Calm A) (hS : S.isRed = false) (hb : Context.Between (⟨s, a, true, k, S⟩ :: ctx) key)
      (hm : m = 2 * A.size + 1)

section
variable {s : Side} {x : ℕ} {X Y u' : PTree κ} {kx : κ} {ctx ctx' : Context κ}

theorem Restored.between (h : Restored s x X kx Y ctx ctx' u')
    (hb : Context.Between (⟨s, x, true, kx, Y⟩ :: ctx) key) : ctx'.Between key := by
  cases h with
  | flip => exact hb
  | straight d =>
    cases s <;> cases d <;>
      simpa [Context.Between, Context.before, Context.after, join, keys] using hb
  | below | beside =>
    cases s <;>
      simp [Context.Between, Context.before, Context.after, join, keys, Side.other] at hb ⊢ <;>
      grind

lemma Restored.phase (h : Restored s x X kx Y ctx ctx' u')
    (hb : Context.Between (⟨s, x, true, kx, Y⟩ :: ctx) key) (hX : Calm X) (hu : UncleBlack ctx)
    (hc : ctx.Proper false) : ∃ m ≤ 2 * X.size + 1, ∀ d : Descent κ, Phase key d ctx' u' m := by
  cases h with
  | flip | straight => exact ⟨_, Nat.le_succ _, fun _ => .calm hX rfl⟩
  | below p g kp kg Sp Sg rest =>
    refine ⟨_, le_rfl, fun _ => .passing s.other g X kg Sg rfl hX (hu rfl) ?_ rfl⟩
    cases s <;>
      simpa [Context.Between, Context.before, Context.after, join, keys, Side.other] using hb
  | beside p g kp kg Sp Sg rest =>
    refine ⟨_, le_rfl, fun _ => .passing s.other p X kp Sp rfl hX (hc.1 rfl).2 ?_ rfl⟩
    cases s <;>
      simpa [Context.Between, Context.before, Context.after, join, keys, Side.other] using hb

end

/-- The tree after the way down to the key, as long as no rotation is needed; a new leaf is
at `q`. The node above is `red`, and a `painted` node counts as black. -/
def visit (key : κ) (q : ℕ) : Bool → Bool → PTree κ → Option (PTree κ)
  | red, _, .nil => if red then none else some (.node q true .nil key .nil)
  | red, painted, .node a c l k r =>
    let c := c && !painted
    if key = k then some (.node a c l k r)
    else if l.isRed && r.isRed then
      if red then none
      else if key < k then (visit key q true true l).map fun l => .node a true l k (r.paint false)
      else (visit key q true true r).map fun r => .node a true (l.paint false) k r
    else if key < k then (visit key q c false l).map fun l => .node a c l k r
    else (visit key q c false r).map fun r => .node a c l k r

def redAbove : Context κ → Bool
  | [] => false
  | f :: _ => f.red

/-- The way that is left leads to the tree that is expected. -/
def Follows (T : PTree κ) (key : κ) (ctx : Context κ) (u : PTree κ) : Prop :=
  ∀ q v, visit key q false true T = some v →
    ∃ w, visit key q (redAbove ctx) false u = some w ∧ v = ctx.plug w

section
variable {s : Side} {x q : ℕ} {c b : Bool} {X Y u u' : PTree κ} {kx : κ} {ctx ctx' : Context κ}

lemma visit_paint : visit key q b true u = visit key q b false (u.paint false) := by
  cases u <;> simp [visit, PTree.paint]

lemma visit_keep (hs : s.Turns key kx) (hsplit : ¬(X.isRed = true ∧ Y.isRed = true)) :
    visit key q b false (join s x c X kx Y) =
      (visit key q c false X).map fun X => join s x c X kx Y := by
  cases s with
  | left => simp_all [join, visit, ne_of_lt (show key < kx from hs), show key < kx from hs]
  | right =>
    have hlt : kx < key := hs
    have hsplit' : ¬(Y.isRed = true ∧ X.isRed = true) := fun h => hsplit h.symm
    simp_all [join, visit, ne_of_gt hlt, hlt.not_gt]

lemma visit_split (hs : s.Turns key kx) (hX : X.isRed = true) (hY : Y.isRed = true) :
    visit key q b false (join s x c X kx Y) = if b then none
      else (visit key q true true X).map fun X => join s x true X kx (Y.paint false) := by
  cases s with
  | left => simp [join, visit, ne_of_lt (show key < kx from hs), show key < kx from hs, hX, hY]
  | right =>
    have hlt : kx < key := hs
    simp [join, visit, ne_of_gt hlt, hlt.not_gt, hX, hY]

lemma Follows.push (h : Follows T key ctx (join s x c X kx Y)) (hs : s.Turns key kx)
    (hsplit : ¬(X.isRed = true ∧ Y.isRed = true)) : Follows T key (⟨s, x, c, kx, Y⟩ :: ctx) X := by
  intro q v hv
  obtain ⟨w, hw, rfl⟩ := h q v hv
  rw [visit_keep hs hsplit, Option.map_eq_some_iff] at hw
  obtain ⟨X', hX', rfl⟩ := hw
  exact ⟨X', hX', rfl⟩

omit [LinearOrder κ] in
lemma Restored.redAbove (h : Restored s x X kx Y ctx ctx' u') (hred : redAbove ctx = false) :
    ctx' = ⟨s, x, true, kx, Y⟩ :: ctx ∧ u' = X := by
  cases h with
  | flip => exact ⟨rfl, rfl⟩
  | straight | below | beside => cases hred

lemma Follows.split (h : Follows T key ctx (join s x c X kx Y)) (hs : s.Turns key kx)
    (hX : X.isRed = true) (hY : Y.isRed = true)
    (hrest : Restored s x (X.paint false) kx (Y.paint false) ctx ctx' u') :
    Follows T key ctx' u' := by
  intro q v hv
  obtain ⟨w, hw, rfl⟩ := h q v hv
  rw [visit_split hs hX hY] at hw
  cases hred : Tsearch.redAbove ctx with
  | true => simp [hred] at hw
  | false =>
    obtain ⟨rfl, rfl⟩ := hrest.redAbove hred
    simp only [hred, Bool.false_eq_true, if_false, Option.map_eq_some_iff] at hw
    obtain ⟨X', hX', rfl⟩ := hw
    rw [visit_paint] at hX'
    exact ⟨X', hX', rfl⟩

end

structure Cut (K : List κ) (key : κ) (t : Store κ) (ctx : Context κ) (u : PTree κ) : Prop where
  layout : At t ctx u
  keys_eq : (ctx.plug u).keys = K
  balanced : Balanced (ctx.plug u)
  between : ctx.Between key

structure Descending (T : PTree κ) (K : List κ) (key : κ) (m : ℕ) (d : Descent κ)
    (ctx : Context κ) (u : PTree κ) : Prop where
  cut : Cut K key d.store ctx u
  slot : d.rootp = slotOf ctx
  empty : u = .nil → ctx = []
  phase : Phase key d ctx u m
  follows : Follows T key ctx u

def Arrived (T : PTree κ) (K : List κ) (key : κ) : Reached κ → Prop
  | .found t root => ∃ ctx X Y c, Cut K key t ctx (.node root c X key Y) ∧
      Follows T key ctx (.node root c X key Y)
  | .place d nextp => ∃ ctx, Cut K key d.store ctx .nil ∧ Follows T key ctx .nil ∧
      nextp = slotOf ctx ∧
      ((ctx = [] ∧ d.rootp = nextp) ∨
        (ctx ≠ [] ∧ d.rootp ≠ nextp ∧ Linked ctx (some d.rootp) d.parentp d.r d.p_r))

section
variable {K : List κ} {m : ℕ} {d : Descent κ} {ctx : Context κ} {s : Side} {x : ℕ} {c : Bool}
variable {X Y : PTree κ} {kx : κ} {r : ℤ}

lemma Cut.push (h : Cut K key t ctx (join s x c X kx Y)) (hK : K.Pairwise (· < ·))
    (hs : s.Turns key kx) : Cut K key t (⟨s, x, c, kx, Y⟩ :: ctx) X := by
  refine ⟨at_cons.mpr h.layout, h.keys_eq, h.balanced, between_cons (x := X) ?_ h.between hs⟩
  rwa [h.keys_eq]

lemma Phase.next (h : Phase key d ctx (join s x c X kx Y) m) (hr : r ≠ 0) (hsr : sideOf r = s)
    (hs : s.Turns key kx) (hsplit : ¬(X.isRed = true ∧ Y.isRed = true)) :
    (Linked (⟨s, x, c, kx, Y⟩ :: ctx) (some (slotOf ctx)) d.parentp r d.p_r ∧
      (X.isRed = true → Y.isRed = false) ∧ 2 * X.size < m) ∨ Calm X ∧ 2 * X.size < m := by
  have hlone : X.isRed = true → Y.isRed = false := by
    intro hX
    simpa [hX] using hsplit
  cases h with
  | ordinary hl hlo hm =>
    refine .inl ⟨⟨rfl, hr, hsr, ?_⟩, hlone, by rw [hm, size_join]; omega⟩
    rintro (rfl : c = true)
    cases ctx with
    | nil => simp [Lone] at hlo
    | cons f rest =>
      obtain ⟨hp, hp0, hside, _⟩ := hl
      exact ⟨f, rest, rfl, hp, hp0, hside, hlo (by simp)⟩
  | calm hc hm =>
    obtain ⟨rfl, hX, hY⟩ := calm_join.mp hc
    exact .inl ⟨⟨rfl, hr, hsr, by simp⟩, hlone,
      by rw [hm, size_join]; omega⟩
  | passing s' a A k S hu hA hS hb hm =>
    obtain ⟨rfl, rfl, rfl, ⟨rfl, rfl, rfl⟩ | ⟨hne, _, _⟩⟩ := join_inj hu
    · exact .inr ⟨hA, by omega⟩
    · exact absurd (turns_unique hs (turns_of_between hb)) hne

lemma Phase.linked (h : Phase key d ctx (join s x c X kx Y) m) (hX : X.isRed = true)
    (hY : Y.isRed = true) : Linked ctx d.parentp d.gparentp d.p_r d.gp_r ∧
      m = 2 * (X.size + Y.size + 1) := by
  cases h with
  | ordinary hl _ hm => exact ⟨hl, by rw [hm, size_join]⟩
  | calm hc => simp [calm_join, hX] at hc
  | passing s' a A k S hu hA =>
    obtain ⟨_, _, _, ⟨_, rfl, _⟩ | ⟨_, _, rfl⟩⟩ := join_inj hu
    · exact absurd (hX.symm.trans hA.isRed) (by decide)
    · exact absurd (hY.symm.trans hA.isRed) (by decide)

lemma searchBody_keep (h : Descending T K key m d ctx (join s x c X kx Y))
    (hK : K.Pairwise (· < ·)) (hr : r ≠ 0) (hsr : sideOf r = s) (hs : s.Turns key kx)
    (hsplit : ¬(X.isRed = true ∧ Y.isRed = true)) :
    Returns (match X.ptr with
      | none => .ok (.inr (.place { d with r } (.child x s)))
      | some _ => .ok (.inl ⟨d.store, .child x s, some d.rootp, d.parentp, r, r, d.p_r⟩))
      (Closer (fun m d => ∃ ctx u, Descending T K key m d ctx u) (Arrived T K key) m) := by
  obtain ⟨hcut, hslot, _, hphase, hfollows⟩ := h
  have hpush := hcut.push hK hs
  have hne : d.rootp ≠ .child x s := hslot ▸ slot_ne hpush.layout
  have hgo := hfollows.push hs hsplit
  have hnext := hphase.next hr hsr hs hsplit
  rw [← hslot] at hnext
  cases hp : X.ptr with
  | none =>
    obtain rfl := eq_nil_of_ptr hp
    obtain ⟨hl, _, _⟩ | ⟨hc, _⟩ := hnext
    · exact returns_ok ⟨_, hpush, hgo, rfl, .inr ⟨by simp, hne, hl⟩⟩
    · exact absurd rfl hc.ne_nil
  | some a =>
    have hX : X = .nil → (⟨s, x, c, kx, Y⟩ :: ctx : Context κ) = [] := by
      rintro rfl
      cases hp
    obtain ⟨hl, hlone, hm⟩ | ⟨hc, hm⟩ := hnext
    · exact returns_ok ⟨_, hm, _, _, hpush, rfl, hX, .ordinary hl hlone rfl, hgo⟩
    · exact returns_ok ⟨_, hm, _, _, hpush, rfl, hX, .calm hc rfl, hgo⟩

lemma split_descends (h : Descending T K key m d ctx (join s x c X kx Y))
    (hK : K.Pairwise (· < ·)) (hs : s.Turns key kx) (hX : X.isRed = true) (hY : Y.isRed = true) :
    ∃ t' ctx' u' m',
      maybeSplitForInsert d.store d.rootp d.parentp d.gparentp d.p_r d.gp_r 0 = .ok t' ∧ m' < m ∧
      Cut K key t' ctx' u' ∧ slotOf ctx' = .child x s ∧ u' ≠ .nil ∧
      Follows T key ctx' u' ∧ ∀ d' : Descent κ, Phase key d' ctx' u' m' := by
  obtain ⟨hl, rfl⟩ := h.phase.linked hX hY
  have hproper := proper_plug.mp h.cut.balanced.1
  obtain ⟨t', ctx', u', he, hrest, hat⟩ := maybeSplitForInsert_returns 0
    h.cut.layout (.inr ⟨hX, hY⟩) hproper.2.mono hl
  have hcalm := calm_paint hX (proper_join.mp hproper.1).2.1
  have hb : Context.Between (⟨s, x, true, kx, Y.paint false⟩ :: ctx) key := by
    simpa [Context.Between, Context.before, Context.after] using (h.cut.push hK hs).between
  obtain ⟨m', hm', hphase⟩ := hrest.phase hb hcalm hl.uncleBlack hproper.2.mono
  rw [size_paint] at hm'
  refine ⟨t', ctx', u', m', h.slot ▸ he, by omega, ⟨hat, ?_, ?_, hrest.between hb⟩, hrest.slot,
    hrest.ne_nil hcalm.ne_nil, h.follows.split hs hX hY hrest, hphase⟩
  · rw [hrest.keys_eq, ← h.cut.keys_eq, keys_plug, keys_plug]
    cases s <;> simp [join, keys]
  · exact split_balanced h.cut.balanced hX hY hl.uncleBlack hrest

end

lemma searchBody_returns (o : Comparison κ) (hK : K.Pairwise (· < ·)) (m : ℕ)
    (d : Descent κ) (h : ∃ ctx u, Descending T K key m d ctx u) : Returns (searchBody o.compar key d)
      (Closer (fun m d => ∃ ctx u, Descending T K key m d ctx u) (Arrived T K key) m) := by
  obtain ⟨ctx, u, h⟩ := h
  have hget := h.cut.layout.get_slot
  rw [← h.slot] at hget
  simp only [searchBody, hget, ok_bind]
  cases u with
  | nil =>
    obtain rfl := h.empty rfl
    exact returns_ok ⟨[], h.cut, h.follows, h.slot, .inl ⟨rfl, rfl⟩⟩
  | node x c l kx r =>
    simp only [ptr, node_eq h.cut.layout.rep.1, ok_bind]
    split_ifs with hr
    · obtain rfl := (o.zero key kx).mp hr
      exact returns_ok ⟨ctx, l, r, c, h.cut, h.follows⟩
    have hs := o.turns hr
    generalize hsr : sideOf (o.compar key kx) = s at hs ⊢
    obtain ⟨X, Y, hu⟩ := node_eq_join s x c l kx r
    rw [hu] at h
    by_cases hsplit : X.isRed = true ∧ Y.isRed = true
    · obtain ⟨t', ctx', u', m', he, hm, hcut, hslot, hne, hgo, hphase⟩ :=
        split_descends h hK hs hsplit.1 hsplit.2
      have hnext := hcut.layout.get_slot
      rw [hslot] at hnext
      rw [he, ok_bind, hnext, ok_bind]
      cases hp : u'.ptr with
      | none => exact absurd (eq_nil_of_ptr hp) hne
      | some a =>
        exact returns_ok ⟨m', hm, ctx', u', hcut, hslot.symm, fun h => absurd h hne, hphase _, hgo⟩
    rw [h.slot, maybeSplitForInsert_eq h.cut.layout, if_neg (by simpa using hsplit), ok_bind,
      ← h.slot]
    have hX : d.store.get (.child x s) = .ok X.ptr := (h.cut.push hK hs).layout.get_slot
    rw [hX, ok_bind]
    exact searchBody_keep h hK hr hsr hs hsplit

structure Holds (t : Store κ) (T : PTree κ) : Prop where
  layout : At t [] T
  sorted : T.keys.Pairwise (· < ·)
  balanced : Balanced T

lemma Cut.holds (h : Cut K key t ctx u) (hK : K.Pairwise (· < ·)) : Holds t (ctx.plug u) :=
  ⟨at_plug.mp h.layout, h.keys_eq ▸ hK, h.balanced⟩

lemma Cut.mem (h : Cut K key t ctx (.node a c l key r)) : key ∈ K := by
  rw [← h.keys_eq, keys_plug]
  simp [keys]

lemma Cut.not_mem (h : Cut K key t ctx .nil) : key ∉ K := by
  rw [← h.keys_eq, keys_plug]
  simp only [keys, List.append_nil, List.mem_append]
  rintro (hm | hm)
  · exact lt_irrefl _ (h.between.1 key hm)
  · exact lt_irrefl _ (h.between.2 key hm)

lemma insert_sorted (hb : ctx.Between key)
    (hs : (ctx.plug (.nil : PTree κ)).keys.Pairwise (· < ·)) :
    (ctx.before ++ [key] ++ ctx.after).Pairwise (· < ·) := by
  simp only [keys_plug, keys, List.append_nil, List.pairwise_append] at hs
  obtain ⟨h1, h2, h3⟩ := hs
  simp only [List.pairwise_append, List.mem_append, List.mem_singleton]
  refine ⟨⟨h1, List.pairwise_singleton .., ?_⟩, h2, ?_⟩
  · rintro a ha b rfl
    exact hb.1 a ha
  · rintro a (ha | rfl) b hbm
    · exact h3 a ha b hbm
    · exact hb.2 b hbm

/-- What `tsearch` answers: the node of the key, or NULL when there was no memory for it.
Without rotations, the tree is the expected one. -/
def Inserted (malloc : Allocator κ) (key : κ) (T : PTree κ) (out : Store κ × Option ℕ) : Prop :=
  ∃ T', Holds out.1 T' ∧ match out.2 with
    | some a => T'.keys.toFinset = insert key T.keys.toFinset ∧
        (∃ n, out.1.heap a = some n ∧ n.key = key) ∧
        (key ∉ T.keys → ∃ h, malloc.alloc h = some a) ∧
        ∀ q v, (key ∉ T.keys → q = a) → visit key q false true T = some v → T' = v
    | none => T'.keys = T.keys ∧ key ∉ T.keys

lemma tsearch_returns (o : Comparison κ) (malloc : Allocator κ) (h : Holds t T) :
    Returns (tsearch malloc o.compar key t) (Inserted malloc key T) := by
  obtain ⟨hat, hsorted, hbal⟩ := h
  obtain ⟨t1, he, hat1⟩ := blacken_at hat
  have hroot : t.root = T.ptr := hat.context
  rw [tsearch, hroot, he, ok_bind]
  have hstart : Descending T T.keys key (2 * T.size) ⟨t1, .root, none, none, 0, 0, 0⟩ []
      (T.paint false) :=
    ⟨⟨hat1, by simp, hbal.paint, by simp [Context.Between, Context.before, Context.after]⟩, rfl,
      fun _ => rfl, .ordinary rfl (by simp [Lone]) (by simp),
      fun q v hv => ⟨v, by rwa [← visit_paint], rfl⟩⟩
  have hsize : T.size ≤ t1.size := by simpa [Context.size] using hat1.size
  refine (iterate_closer (searchBody_returns o hsorted) ⟨_, _, hstart⟩ (by omega)).bind ?_
  rintro (⟨t2, root⟩ | ⟨d, nextp⟩)
  · rintro ⟨ctx, X, Y, c, hcut, hgo⟩
    refine returns_ok ⟨_, hcut.holds hsorted, ?_, ⟨_, hcut.layout.rep.1, rfl⟩,
      fun hnot => absurd hcut.mem hnot, fun q v _ hv => ?_⟩
    · rw [hcut.keys_eq, Finset.insert_eq_of_mem (List.mem_toFinset.mpr hcut.mem)]
    · obtain ⟨w, hw, rfl⟩ := hgo q v hv
      rw [visit, if_pos rfl] at hw
      simpa using congrArg ctx.plug (Option.some.inj hw)
  · rintro ⟨ctx, hcut, hgo, rfl, hplace⟩
    have hkeys : ctx.before ++ ctx.after = T.keys := by
      simpa [keys_plug, keys] using hcut.keys_eq
    dsimp only
    cases hq : malloc.alloc d.store.heap with
    | none => exact returns_ok ⟨_, hcut.holds hsorted, hcut.keys_eq, hcut.not_mem⟩
    | some q =>
      obtain ⟨t3, hset, hat3⟩ := link_at key hcut.layout (malloc.fresh _ _ hq)
      have hsorted' : (ctx.before ++ [key] ++ ctx.after).Pairwise (· < ·) :=
        insert_sorted hcut.between (hcut.keys_eq ▸ hsorted)
      have hset' : (ctx.before ++ [key] ++ ctx.after).toFinset = insert key T.keys.toFinset := by
        rw [← hkeys]
        ext a
        simp
      simp only [size_put]
      rw [hset, ok_bind]
      obtain ⟨rfl, hroot⟩ | ⟨_, hroot, hl⟩ := hplace
      · rw [if_neg (by simp [hroot])]
        have hkey : T.keys = [] := hkeys.symm
        refine returns_ok ⟨_, ⟨hat3, by simp [keys], ⟨fun _ => ⟨rfl, rfl⟩, trivial, trivial⟩, 0, rfl, rfl⟩, ?_,
          ⟨_, hat3.rep.1, rfl⟩, fun _ => ⟨_, hq⟩, fun q' v hq' hv => ?_⟩
        · simp [keys, hkey]
        · obtain rfl := hq' hcut.not_mem
          obtain ⟨w, hw, rfl⟩ := hgo _ v hv
          exact Option.some.inj hw
      rw [if_pos hroot.symm]
      obtain ⟨t4, ctx', u', hsplit, hrest, hat4⟩ := maybeSplitForInsert_returns (s := .left)
        (X := .nil) (Y := .nil) 1 hat3 (.inl rfl)
        (proper_plug.mp hcut.balanced.1).2 hl
      have hkeys' : (ctx'.plug u').keys = ctx.before ++ [key] ++ ctx.after := by
        rw [hrest.keys_eq, keys_plug]
        rfl
      rw [hsplit, ok_bind]
      refine returns_ok ⟨_, ⟨at_plug.mp hat4, hkeys' ▸ hsorted', ?_⟩, hkeys' ▸ hset',
        hrest.node hat4, fun _ => ⟨_, hq⟩, fun q' v hq' hv => ?_⟩
      · exact insert_balanced hcut.balanced hl.uncleBlack hrest
      · obtain rfl := hq' hcut.not_mem
        obtain ⟨w, hw, rfl⟩ := hgo _ v hv
        cases hred : redAbove ctx with
        | true => simp [visit, hred] at hw
        | false =>
          obtain ⟨rfl, rfl⟩ := hrest.redAbove hred
          rw [visit, hred] at hw
          obtain rfl := Option.some.inj hw
          rfl

end

end Eglibc.Tsearch
