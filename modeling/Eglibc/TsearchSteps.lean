import Eglibc.Tsearch

/-! # What the pointer updates of tsearch and tdelete do to the tree -/
namespace Eglibc.Tsearch
open Checked RedBlack TreeStore PTree
variable {κ : Type} {t : Store κ} {s s' : Side} {x p g : ℕ} {c cp cg : Bool} {kx kp kg : κ}
variable {ctx rest : Context κ} {X Y Sp Sg : PTree κ}

lemma setRed_eq (h : t.heap a = some n) (c : Bool) :
    t.setRed a c = .ok (t.put a { n with red := c }) := modify_eq h _

lemma blacken_ptr (hr : Rep t.heap u) (hn : u.addrs.Nodup) :
    ∃ t', blacken t u.ptr = .ok t' ∧ Rep t'.heap (u.paint false) ∧ t'.root = t.root ∧
      t'.size = t.size ∧ ∀ a ∉ u.addrs, t'.heap a = t.heap a := by
  cases u with
  | nil => exact ⟨t, rfl, trivial, rfl, rfl, fun _ _ => rfl⟩
  | node a d l k r =>
    obtain ⟨ha, hl, hr⟩ := hr
    have hnot := (List.nodup_cons.mp hn).1
    simp at hnot
    refine ⟨_, setRed_eq ha false, ⟨heap_put_self, rep_put hnot.1 hl, rep_put hnot.2 hr⟩,
      rfl, rfl, ?_⟩
    intro b hb
    exact heap_put_ne fun he => hb (by simp [addrs, he])

lemma blacken_at (h : At t ctx u) : ∃ t', blacken t u.ptr = .ok t' ∧ At t' ctx (u.paint false) := by
  obtain ⟨hrep, hctx, hnd, hsz⟩ := h
  obtain ⟨hu, _, hdisj⟩ := List.nodup_append.mp hnd
  obtain ⟨t', he, hr, hroot, hsize, hframe⟩ := blacken_ptr hrep hu
  refine ⟨t', he, hr, ?_, by simpa using hnd, by simpa [hsize] using hsz⟩
  rw [ptr_paint]
  exact ctxRep_congr hctx hroot fun a ha => hframe a fun hb => hdisj a hb a ha rfl

lemma setRed_at (h : At t ctx (join s x c X kx Y)) (d : Bool) :
    ∃ t', t.setRed x d = .ok t' ∧ At t' ctx (join s x d X kx Y) := by
  obtain ⟨hrep, hctx, hnd, hsz⟩ := h
  obtain ⟨hx, hX, hY⟩ := rep_join.mp hrep
  have hcells : (x :: (X.addrs ++ (Y.addrs ++ ctx.addrs))).Nodup := by
    refine nodup_of_count hnd fun a => ?_
    simp [List.count_cons]
    ring
  have hnot := (List.nodup_cons.mp hcells).1
  simp at hnot
  refine ⟨_, setRed_eq hx d, rep_join.mpr ⟨?_, rep_put hnot.1 hX, rep_put hnot.2.1 hY⟩, ?_, ?_, ?_⟩
  · rw [heap_put_self]
    cases s <;> rfl
  · simpa using ctxRep_put hnot.2.2 hctx
  · refine nodup_of_count hnd fun a => ?_
    simp
  · simpa using hsz

lemma paintSplit_at (h : At t ctx (join s x c X kx Y)) : ∃ t', paintSplit t x = .ok t' ∧
      At t' ctx (join s x true (X.paint false) kx (Y.paint false)) := by
  suffices hnode : ∀ l r : PTree κ, At t ctx (.node x c l kx r) → ∃ t', paintSplit t x = .ok t' ∧
      At t' ctx (.node x true (l.paint false) kx (r.paint false)) by
    cases s
    · exact hnode X Y h
    · exact hnode Y X h
  intro l r h
  obtain ⟨t₀, he₀, h₀⟩ := setRed_at (s := .left) h true
  obtain ⟨t₁, he₁, h₁⟩ := blacken_at (at_cons (f := ⟨.right, x, true, kx, l⟩).mpr h₀)
  obtain ⟨t₂, he₂, h₂⟩ := blacken_at (at_swap.mp h₁)
  refine ⟨t₂, ?_, at_cons.mp h₂⟩
  unfold paintSplit
  rw [he₀, ok_bind, node_eq h₀.rep.1, ok_bind]
  simp only [he₁, he₂, ok_bind]

theorem cells_distinct (h : At t (⟨s, p, cp, kp, Sp⟩ :: ⟨s', g, cg, kg, Sg⟩ :: rest)
    (join s x c X kx Y)) :
    (x :: p :: g :: (X.addrs ++ (Y.addrs ++ (Sp.addrs ++ (Sg.addrs ++ rest.addrs))))).Nodup := by
  refine nodup_of_count h.nodup fun a => ?_
  simp only [List.count_cons, List.count_append, count_addrs_join, Context.addrs, beq_iff_eq]
  ring

def put3 (t : Store κ) (a b d : ℕ) (na nb nd : Node κ) : Store κ := ((t.put a na).put b nb).put d nd

section
variable {a b d : ℕ} {na nb nd : Node κ} {u : PTree κ}

lemma rep_put3 (hr : Rep t.heap u) (ha : a ∉ u.addrs) (hb : b ∉ u.addrs) (hd : d ∉ u.addrs) :
    Rep (put3 t a b d na nb nd).heap u :=
  rep_put hd (rep_put hb (rep_put ha hr))

lemma ctxRep_put3 (hc : CtxRep t ctx q) (ha : a ∉ ctx.addrs) (hb : b ∉ ctx.addrs)
    (hd : d ∉ ctx.addrs) : CtxRep (put3 t a b d na nb nd) ctx q :=
  ctxRep_put hd (ctxRep_put hb (ctxRep_put ha hc))

end

lemma liftChild_cells (hx : t.heap x = some ((Node.mk kx Y.ptr Y.ptr c).setChild s X.ptr))
    (hp : t.heap p = some ((Node.mk kp Sp.ptr Sp.ptr cp).setChild s (some x)))
    (hg : t.heap g = some ((Node.mk kg Sg.ptr Sg.ptr cg).setChild s.other (some p)))
    (hxp : x ≠ p) (hxg : x ≠ g) (hpg : p ≠ g) (q : Slot) :
    liftChild t x p g q s = (put3 t x p g ((Node.mk kx (some p) (some p) false).setChild s (some g))
      ((Node.mk kp Sp.ptr Sp.ptr true).setChild s Y.ptr)
      ((Node.mk kg Sg.ptr Sg.ptr true).setChild s.other X.ptr)).set (some x) q := by
  unfold liftChild
  simp [Store.setRed, Store.setChild, Store.modify, Store.node, heap_put, hx, hp, hg, hxp, hxg,
    hpg, Ne.symm hxp, Ne.symm hxg, Ne.symm hpg]
  congr 1
  simp only [put3, Store.put, Store.mk.injEq, and_true]
  funext b
  simp only [Function.update_apply]
  cases s <;> split_ifs <;> simp_all [Node.setChild, Node.child, Side.other]

lemma liftChild_at (h : At t (⟨s, p, cp, kp, Sp⟩ :: ⟨s.other, g, cg, kg, Sg⟩ :: rest)
    (join s x c X kx Y)) : ∃ t', liftChild t x p g (slotOf rest) s = .ok t' ∧
      At t' rest (join s x false (join s.other g true X kg Sg) kx (join s p true Y kp Sp)) := by
  have hcells := cells_distinct h
  obtain ⟨hrep, ⟨hp, hSp, hg, hSg, hrest⟩, hnd, hsz⟩ := h
  obtain ⟨hx, hX, hY⟩ := rep_join.mp hrep
  simp at hcells
  obtain ⟨⟨hxp, hxg, hxX, hxY, hxSp, hxSg, hxr⟩, ⟨hpg, hpX, hpY, hpSp, hpSg, hpr⟩,
    ⟨hgX, hgY, hgSp, hgSg, hgr⟩, _⟩ := hcells
  rw [ptr_join] at hp
  rw [liftChild_cells hx hp hg hxp hxg hpg, ← ptr_join s x false (join s.other g true X kg Sg)
    (join s p true Y kp Sp) kx]
  refine set_hole (ctxRep_put3 hrest hxr hpr hgr) (rep_join.mpr ⟨?_, rep_join.mpr ⟨?_,
    rep_put3 hX hxX hpX hgX, rep_put3 hSg hxSg hpSg hgSg⟩, rep_join.mpr ⟨?_,
    rep_put3 hY hxY hpY hgY, rep_put3 hSp hxSp hpSp hgSp⟩⟩) (nodup_of_count hnd fun a => ?_) ?_
  · simp [put3, heap_put, hxp, hxg]
  · simp [put3]
  · simp [put3, heap_put, hpg]
  · simp [List.count_cons, Context.addrs]
    ring
  · simp [put3, Context.size] at hsz ⊢
    omega

lemma liftParent_cells {t1 : Store κ} {U : PTree κ} {q : Slot} (hset : t.set (some p) q = .ok t1)
    (hp : t1.heap p = some ((Node.mk kp Sp.ptr Sp.ptr cp).setChild s U.ptr))
    (hg : t1.heap g = some ((Node.mk kg Sg.ptr Sg.ptr cg).setChild s (some p))) (hpg : p ≠ g) :
    liftParent t p g q s = .ok
      ((t1.put p ((Node.mk kp (some g) (some g) false).setChild s U.ptr)).put g
        ((Node.mk kg Sg.ptr Sg.ptr true).setChild s Sp.ptr)) := by
  unfold liftParent
  simp [hset, Store.setRed, Store.setChild, Store.modify, Store.node, heap_put, hp, hg, hpg,
    hpg.symm]
  simp only [Store.put, Store.mk.injEq, and_true]
  funext b
  simp only [Function.update_apply]
  cases s <;> split_ifs <;> simp_all [Node.setChild, Node.child, Side.other]

lemma liftParent_at (h : At t (⟨s, p, cp, kp, Sp⟩ :: ⟨s, g, cg, kg, Sg⟩ :: rest) U) :
    ∃ t', liftParent t p g (slotOf rest) s = .ok t' ∧
      At t' rest (join s p false U kp (join s g true Sp kg Sg)) := by
  have hcells : (p :: g :: (U.addrs ++ (Sp.addrs ++ (Sg.addrs ++ rest.addrs)))).Nodup := by
    refine nodup_of_count h.nodup fun a => ?_
    simp [List.count_cons, Context.addrs]
    ring
  obtain ⟨hU, ⟨hp, hSp, hg, hSg, hrest⟩, hnd, hsz⟩ := h
  simp only [List.nodup_cons, List.nodup_append, List.mem_cons, List.mem_append, not_or] at hcells
  obtain ⟨⟨hpg, hpU, hpSp, hpSg, hpr⟩, ⟨hgU, hgSp, hgSg, hgr⟩, _, ⟨_, ⟨_, hr, hdg⟩, hdp⟩, hdU⟩ :=
    hcells
  obtain ⟨t₁, hset, hc₁, hsize, hframe⟩ := hrest.set_slot hr (some p)
  have hU₁ : Rep t₁.heap U := rep_congr hU fun a ha => hframe a fun hb =>
    hdU a ha a (.inr (.inr hb)) rfl
  have hSp₁ : Rep t₁.heap Sp := rep_congr hSp fun a ha => hframe a fun hb =>
    hdp a ha a (.inr hb) rfl
  have hSg₁ : Rep t₁.heap Sg := rep_congr hSg fun a ha => hframe a fun hb => hdg a ha a hb rfl
  refine ⟨_, liftParent_cells hset ((hframe p hpr).trans hp) ((hframe g hgr).trans hg) hpg,
    rep_join.mpr ⟨?_, rep_put hgU (rep_put hpU hU₁), rep_join.mpr ⟨heap_put_self,
      rep_put hgSp (rep_put hpSp hSp₁), rep_put hgSg (rep_put hpSg hSg₁)⟩⟩, ?_,
    nodup_of_count hnd fun a => ?_, ?_⟩
  · simp [heap_put, hpg]
  · rw [ptr_join]
    exact ctxRep_put hgr (ctxRep_put hpr hc₁)
  · simp [List.count_cons, Context.addrs]
    ring
  · simp [Context.size, hsize] at hsz ⊢
    omega

section
variable {q q₂ : ℕ} {cq c₂ : Bool} {kq k₂ : κ} {R N F N₁ N₂ : PTree κ}

lemma rotateUp_cells (hp : t.heap p = some ((Node.mk kp (some q) (some q) cp).setChild s R.ptr))
    (hq : t.heap q = some ((Node.mk kq F.ptr F.ptr cq).setChild s N.ptr)) (hpq : p ≠ q)
    (pp : Slot) : rotateUp t p q pp s =
      ((t.put p ((Node.mk kp N.ptr N.ptr cp).setChild s R.ptr)).put q
        ((Node.mk kq F.ptr F.ptr cq).setChild s (some p))).set (some q) pp := by
  unfold rotateUp
  simp [Store.setChild, Store.modify, Store.node, heap_put, hp, hq, hpq.symm]
  congr 1
  simp only [Store.put, Store.mk.injEq, and_true]
  funext b
  simp only [Function.update_apply]
  cases s <;> split_ifs <;> simp_all [Node.setChild, Side.other]

section
variable (h : At t (⟨s, p, cp, kp, join s q cq N kq F⟩ :: rest) R)
include h

lemma rotateUp_at : ∃ t', rotateUp t p q (slotOf rest) s = .ok t' ∧
      At t' (⟨s, p, cp, kp, N⟩ :: ⟨s, q, cq, kq, F⟩ :: rest) R := by
  have hcells : (p :: q :: (R.addrs ++ (N.addrs ++ (F.addrs ++ rest.addrs)))).Nodup := by
    refine nodup_of_count h.nodup fun a => ?_
    simp [List.count_cons, Context.addrs]
    ring
  obtain ⟨hR, ⟨hp, hQ, hrest⟩, hnd, hsz⟩ := h
  obtain ⟨hq, hN, hF⟩ := rep_join.mp hQ
  simp at hcells
  obtain ⟨⟨hpq, hpR, hpN, hpF, hpr⟩, ⟨hqR, hqN, hqF, hqr⟩, _⟩ := hcells
  rw [ptr_join] at hp
  simp only [at_cons, Frame.fill]
  rw [rotateUp_cells hp hq hpq, ← ptr_join s q cq (join s p cp R kp N) F kq]
  refine set_hole (ctxRep_put hqr (ctxRep_put hpr hrest)) (rep_join.mpr ⟨?_, rep_join.mpr ⟨?_,
    rep_put hqR (rep_put hpR hR), rep_put hqN (rep_put hpN hN)⟩, rep_put hqF (rep_put hpF hF)⟩)
    (nodup_of_count hnd fun a => ?_) ?_
  · simp
  · simp [heap_put, hpq]
  · simp only [List.count_cons, List.count_append, count_addrs_join, Context.addrs, beq_iff_eq]
    ring
  · simp [Context.size] at hsz ⊢
    omega

omit h in
lemma liftInner_cells (hp : t.heap p = some ((Node.mk kp (some q) (some q) cp).setChild s R.ptr))
    (hq : t.heap q = some ((Node.mk kq F.ptr F.ptr cq).setChild s (some q₂)))
    (hq2 : t.heap q₂ = some ((Node.mk k₂ N₂.ptr N₂.ptr c₂).setChild s N₁.ptr))
    (hpq : p ≠ q) (hpq2 : p ≠ q₂) (hqq2 : q ≠ q₂) (pp : Slot) : liftInner t p q q₂ pp s =
      (put3 t p q q₂ ((Node.mk kp N₁.ptr N₁.ptr cp).setChild s R.ptr)
        ((Node.mk kq F.ptr F.ptr cq).setChild s N₂.ptr)
        ((Node.mk k₂ (some q) (some q) c₂).setChild s (some p))).set (some q₂) pp := by
  unfold liftInner
  simp [Store.setChild, Store.modify, Store.node, heap_put, hp, hq, hq2, hpq.symm, hpq2.symm,
    hqq2.symm]
  congr 1
  simp only [put3, Store.put, Store.mk.injEq, and_true]
  funext b
  simp only [Function.update_apply]
  cases s <;> split_ifs <;> simp_all [Node.setChild, Side.other]

omit h in
lemma liftInner_at (h : At t (⟨s, p, cp, kp, join s q cq (join s q₂ c₂ N₁ k₂ N₂) kq F⟩ :: rest) R) :
    ∃ t', liftInner t p q q₂ (slotOf rest) s = .ok t' ∧
      At t' rest (join s q₂ c₂ (join s p cp R kp N₁) k₂ (join s q cq N₂ kq F)) := by
  have hcells : (p :: q :: q₂ :: (R.addrs ++ (N₁.addrs ++ (N₂.addrs ++ (F.addrs ++
      rest.addrs))))).Nodup := by
    refine nodup_of_count h.nodup fun a => ?_
    simp [List.count_cons, Context.addrs]
    ring
  obtain ⟨hR, ⟨hp, hQ, hrest⟩, hnd, hsz⟩ := h
  obtain ⟨hq, hN, hF⟩ := rep_join.mp hQ
  obtain ⟨hq2, hN1, hN2⟩ := rep_join.mp hN
  simp at hcells
  obtain ⟨⟨hpq, hpq2, hpR, hpN1, hpN2, hpF, hpr⟩, ⟨hqq2, hqR, hqN1, hqN2, hqF, hqr⟩,
    ⟨h2R, h2N1, h2N2, h2F, h2r⟩, _⟩ := hcells
  rw [ptr_join] at hp hq
  rw [liftInner_cells hp hq hq2 hpq hpq2 hqq2,
    ← ptr_join s q₂ c₂ (join s p cp R kp N₁) (join s q cq N₂ kq F) k₂]
  refine set_hole (ctxRep_put3 hrest hpr hqr h2r) (rep_join.mpr ⟨?_, rep_join.mpr ⟨?_,
    rep_put3 hR hpR hqR h2R, rep_put3 hN1 hpN1 hqN1 h2N1⟩, rep_join.mpr ⟨?_,
    rep_put3 hN2 hpN2 hqN2 h2N2, rep_put3 hF hpF hqF h2F⟩⟩) (nodup_of_count hnd fun a => ?_) ?_
  · simp [put3]
  · simp [put3, heap_put, hpq, hpq2]
  · simp [put3, heap_put, hqq2]
  · simp [List.count_cons, Context.addrs]
    ring
  · simp [put3, Context.size] at hsz ⊢
    omega

lemma rotateRed_at : ∃ t', rotateRed t p q (slotOf rest) s = .ok t' ∧
      At t' (⟨s, p, true, kp, N⟩ :: ⟨s, q, false, kq, F⟩ :: rest) R := by
  obtain ⟨t₁, he₁, h₁⟩ := setRed_at (at_swap.mp h) false
  obtain ⟨t₂, he₂, h₂⟩ := setRed_at (at_cons.mp (at_swap.mpr h₁)) true
  obtain ⟨t₃, he₃, h₃⟩ := rotateUp_at (at_cons (f := ⟨s, p, true, kp, _⟩).mpr h₂)
  refine ⟨t₃, ?_, h₃⟩
  simp only [rotateRed, he₁, he₂, ok_bind, he₃]

lemma repairFar_at (hF : F.isRed = true) : ∃ t', repairFar t p q (slotOf rest) s = .ok t' ∧
      At t' (⟨s, p, false, kp, N⟩ :: ⟨s, q, cp, kq, F.paint false⟩ :: rest) R := by
  obtain ⟨t₁, he₁, h₁⟩ := setRed_at (at_swap.mp h) cp
  obtain ⟨t₂, he₂, h₂⟩ := setRed_at (at_cons.mp (at_swap.mpr h₁)) false
  have h₂' := at_swap.mp (at_cons (f := ⟨s, p, false, kp, _⟩).mpr h₂)
  have hq := (rep_join.mp h₂'.rep).1
  obtain ⟨t₃, he₃, h₃⟩ := blacken_at (at_swap.mp (at_cons (f := ⟨s, q, cp, kq, F⟩).mpr h₂'))
  obtain ⟨t₄, he₄, h₄⟩ := rotateUp_at (at_swap.mpr (at_cons.mp (at_swap.mpr h₃)))
  refine ⟨t₄, ?_, h₄⟩
  cases F with
  | nil => cases hF
  | node f cf l k r =>
    have he : t₂.setRed f false = .ok t₃ := he₃
    simp only [repairFar, node_eq h.context.1, ok_bind, red_setChild, he₁, he₂, node_eq hq,
      child_setChild_other, child_mk, ptr, Store.deref, he, he₄]

end

lemma repairNear_at
    (h : At t (⟨s, p, cp, kp, join s q cq (join s q₂ c₂ N₁ k₂ N₂) kq F⟩ :: rest) R) :
    ∃ t', repairNear t p q (slotOf rest) s = .ok t' ∧
      At t' rest (join s q₂ cp (join s p false R kp N₁) k₂ (join s q cq N₂ kq F)) := by
  have h' := at_swap.mp h
  have hq := (rep_join.mp h'.rep).1
  obtain ⟨t₁, he₁, h₁⟩ := setRed_at (at_cons (f := ⟨s, q, cq, kq, F⟩).mpr h') cp
  obtain ⟨t₂, he₂, h₂⟩ := liftInner_at (at_swap.mpr (at_cons.mp h₁))
  obtain ⟨t₃, he₃, h₃⟩ := setRed_at (at_cons (f := ⟨s, q₂, cp, k₂, _⟩).mpr h₂) false
  refine ⟨t₃, ?_, at_cons.mp h₃⟩
  simp only [repairNear, node_eq hq, ok_bind, child_setChild, ptr_join, Store.deref,
    node_eq h.context.1, red_setChild, he₁, he₂, he₃]

end

end Eglibc.Tsearch
