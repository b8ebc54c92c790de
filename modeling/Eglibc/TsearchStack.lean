import Eglibc.TsearchRun

/-!
# The stack of parents in tdelete

The stack is enlarged on the way down only, and the loop that rebalances the tree may store
one more slot. A run of insertions, in which every node is at the address of its key, leads
to a tree whose paths are long enough; its depth stays symbolic.
-/
namespace Eglibc.Tsearch
open Checked RedBlack TreeStore PTree

def leaf (k : ℕ) : PTree ℕ := .node k false .nil k .nil

section
variable {κ : Type} {t : Store κ} {S : Finset ℕ}

def Within (S : Finset ℕ) (t : Store κ) : Prop := ∀ a, t.heap a ≠ none → a ∈ S

/-- Partial correctness of a run. -/
def Ends {α : Type} (P : α → Prop) (x : Run α) : Prop := ∀ a, x = .ok a → P a

section
variable {α β : Type} {P : α → Prop} {Q : β → Prop} {x : Run α} {f : α → Run β}

lemma Ends.bind (h : Ends P x) (hf : ∀ a, P a → Ends Q (f a)) : Ends Q (x >>= f) := by
  intro b hb
  obtain ⟨a, ha, hb⟩ := ok_of_bind hb
  exact hf a (h a ha) b hb

lemma Ends.after (hf : ∀ a, Ends Q (f a)) : Ends Q (x >>= f) :=
  Ends.bind (P := fun _ => True) (fun _ _ => trivial) fun a _ => hf a

lemma ends_ok {a : α} (h : P a) : Ends P (.ok a) := by
  intro b hb
  cases hb
  exact h

end

lemma Within.modify (h : Within S t) {a : ℕ} {f : Node κ → Node κ} :
    Ends (Within S) (t.modify a f) := by
  intro t' ht'
  obtain ⟨n, hn, ht'⟩ := ok_of_bind ht'
  cases ht'
  intro b hb
  by_cases hba : b = a
  · subst hba
    refine h b fun hnone => ?_
    rw [Store.node, hnone] at hn
    cases hn
  · exact h b (by rwa [heap_put_ne hba] at hb)

lemma Within.set (h : Within S t) {p : Option ℕ} {slot : Slot} : Ends (Within S) (t.set p slot) := by
  cases slot with
  | root => exact ends_ok h
  | child a s => exact h.modify

lemma Within.blacken (h : Within S t) {p : Option ℕ} : Ends (Within S) (blacken t p) := by
  cases p with
  | none => exact ends_ok h
  | some a => exact h.modify

lemma Within.liftChild (h : Within S t) {root p gp : ℕ} {gparentp : Slot} {s : Side} :
    Ends (Within S) (liftChild t root p gp gparentp s) := by
  unfold Tsearch.liftChild
  refine h.modify.bind fun t h => h.modify.bind fun t h => h.modify.bind fun t h => ?_
  refine .after fun _ => h.modify.bind fun t h => h.modify.bind fun t h => ?_
  exact .after fun _ => h.modify.bind fun t h => h.modify.bind fun t h => h.set

lemma Within.liftParent (h : Within S t) {p gp : ℕ} {gparentp : Slot} {s : Side} :
    Ends (Within S) (liftParent t p gp gparentp s) := by
  unfold Tsearch.liftParent
  refine h.set.bind fun t h => h.modify.bind fun t h => h.modify.bind fun t h => ?_
  exact .after fun _ => h.modify.bind fun t h => h.modify

lemma Within.split (h : Within S t) {rootp : Slot} {parentp gparentp : Option Slot} {p_r gp_r : ℤ}
    {mode : ℕ} : Ends (Within S) (maybeSplitForInsert t rootp parentp gparentp p_r gp_r mode) := by
  unfold maybeSplitForInsert
  refine .after fun _ => .after fun root => .after fun n => .after fun _ => .after fun _ => ?_
  split_ifs
  · have hpaint : Ends (Within S) (paintSplit t root) :=
      h.modify.bind fun t h => .after fun _ => h.blacken.bind fun t h => h.blacken
    refine hpaint.bind fun t h => ?_
    cases parentp with
    | none => exact ends_ok h
    | some parentp =>
      refine .after fun _ => .after fun p => .after fun _ => ?_
      cases gparentp with
      | none =>
        dsimp only
        split_ifs
        · exact fun _ h => by cases h
        · exact ends_ok h
      | some gparentp =>
        split_ifs
        · exact .after fun _ => .after fun gp => h.liftChild
        · exact .after fun _ => .after fun gp => h.liftParent
        · exact ends_ok h
  · exact ends_ok h

end

/-! ## Insertions at the address of the key -/

section
variable {t : Store ℕ} {S : Finset ℕ} {key : ℕ} {compar : ℕ → ℕ → ℤ}

def ReachedWithin (S : Finset ℕ) : Reached ℕ → Prop
  | .found t _ => Within S t
  | .place d _ => Within S d.store

lemma searchBody_within {d : Descent ℕ} (h : Within S d.store) :
    Ends (Sum.elim (fun d => Within S d.store) (ReachedWithin S)) (searchBody compar key d) := by
  unfold searchBody
  refine .after fun p => ?_
  cases p with
  | none => exact ends_ok h
  | some root =>
    refine .after fun n => ?_
    dsimp only
    split_ifs
    · exact ends_ok h
    · refine h.split.bind fun t h => .after fun next => ?_
      cases next with
      | none => exact ends_ok h
      | some _ => exact ends_ok h

lemma tsearch_within (h : Within S t) : Ends (fun out => Within (insert key S) out.1 ∧
    (out.2 = none → key ∈ S)) (tsearch (atKey key) compar key t) := by
  unfold tsearch
  have hmore {t : Store ℕ} (h : Within S t) : Within (insert key S) t :=
    fun a ha => Finset.mem_insert_of_mem (h a ha)
  refine h.blacken.bind fun t h => ?_
  have hloop : Ends (ReachedWithin S) (iterate (searchBody compar key) (2 * t.size + 1)
      ⟨t, .root, none, none, 0, 0, 0⟩) := fun r hr =>
    iterate_ok (I := fun d : Descent ℕ => Within S d.store)
      (fun _ _ h hb => searchBody_within h _ hb) (fun _ _ h hb => searchBody_within h _ hb) h hr
  refine hloop.bind fun r h => ?_
  cases r with
  | found t root => exact ends_ok ⟨hmore h, fun h => (by cases h)⟩
  | place d nextp =>
    dsimp only
    cases hq : (atKey key).alloc d.store.heap with
    | none =>
      refine ends_ok ⟨hmore h, fun _ => h key fun hnone => ?_⟩
      simp [atKey, hnone] at hq
    | some q =>
      obtain rfl : key = q := by
        simp only [atKey] at hq
        split_ifs at hq
        exact Option.some.inj hq
      have hput : Within (insert key S) (d.store.put key ⟨key, none, none, true⟩) := by
        intro a ha
        by_cases hak : a = key
        · exact hak ▸ Finset.mem_insert_self _ _
        · rw [heap_put_ne hak] at ha
          exact hmore h a ha
      have hset : Within (insert key S)
          { d.store.put key ⟨key, none, none, true⟩ with size := d.store.size + 1 } := hput
      refine hset.set.bind fun t h => ?_
      split_ifs
      · exact h.split.bind fun t h => ends_ok ⟨h, fun h => (by cases h)⟩
      · exact ends_ok ⟨h, fun h => (by cases h)⟩

end

/-- The tree of the store is `F`, whatever the colour of its root, and its nodes are all the
memory in use. -/
def Shows (t : Store ℕ) (F : PTree ℕ) : Prop :=
  ∃ T, Holds t T ∧ T.paint false = F ∧ Within F.keys.toFinset t

lemma Shows.visit {t : Store ℕ} {F F' : PTree ℕ} {key : ℕ} (h : Shows t F)
    (hv : Tsearch.visit key key false false F = some F') :
    ∃ t' a, tsearch (atKey key) naturals.compar key t = .ok (t', a) ∧ Shows t' (F'.paint false) := by
  obtain ⟨T, hT, rfl, hwithin⟩ := h
  rw [keys_paint] at hwithin
  obtain ⟨⟨t', a⟩, hrun, T', hT', hcase⟩ := tsearch_returns naturals (atKey key) hT
  obtain ⟨hwithin', hfull⟩ := tsearch_within hwithin _ hrun
  cases a with
  | none => exact absurd (List.mem_toFinset.mp (hfull rfl)) hcase.2
  | some a =>
    obtain ⟨hkeys, -, halloc, hexact⟩ := hcase
    have ha : key ∉ T.keys → key = a := by
      intro hnot
      obtain ⟨h, hh⟩ := halloc hnot
      simp only [atKey] at hh
      split_ifs at hh
      exact Option.some.inj hh
    obtain rfl := hexact key F' ha (by rwa [visit_paint])
    refine ⟨t', some a, hrun, T', hT', rfl, ?_⟩
    rwa [keys_paint, hkeys]

def insertAll (keys : List ℕ) : List (Call ℕ) := keys.map fun key => .tsearch key (atKey key)

/-- Insertions lead from an empty root to the tree. -/
def Reaches (F : PTree ℕ) : Prop :=
  ∃ keys s, (insertAll keys).foldlM (perform naturals.compar) (emptyStore, ∅) = .ok s ∧ Shows s.1 F

/-- A visit, under a black root, to a key between `first` and `first + 2 ^ m`. -/
def Step (m first : ℕ) (F G : PTree ℕ) : Prop :=
  F.isRed = false ∧ ∃ key, (first < key ∧ key < first + 2 ^ m) ∧ visit key key false false F = some G

abbrev Leads (m first : ℕ) : PTree ℕ → PTree ℕ → Prop := Relation.ReflTransGen (Step m first)

section
variable {m n first i : ℕ} {F G l l' r : PTree ℕ} {a k : ℕ}

lemma leads_visit (hi : i < m) (hF : F.isRed = false)
    (hv : visit (first + 2 ^ i) (first + 2 ^ i) false false F = some G) : Leads m first F G :=
  .single ⟨hF, _, ⟨Nat.lt_add_of_pos_right (Nat.two_pow_pos _),
    Nat.add_lt_add_left (Nat.pow_lt_pow_right (by decide) hi) _⟩, hv⟩

lemma Reaches.leads (h : Reaches F) (hF : F.isRed = false) (hG : Leads m first F G) :
    Reaches (G.paint false) := by
  induction hG with
  | refl => rwa [paint_of_black hF]
  | tail _ hstep ih =>
    obtain ⟨hblack, key, -, hv⟩ := hstep
    rw [paint_of_black hblack] at ih
    obtain ⟨keys, s, hrun, hshows⟩ := ih
    obtain ⟨t', a, htsearch, hshows'⟩ := hshows.visit hv
    have hcall : perform naturals.compar s (.tsearch key (atKey key)) =
        .ok (t', if a = none then s.2 else insert key s.2) := by
      rw [perform, htsearch]
      rfl
    have happend : insertAll (keys ++ [key]) = insertAll keys ++ [.tsearch key (atKey key)] :=
      List.map_append
    refine ⟨keys ++ [key], (t', if a = none then s.2 else insert key s.2), ?_, hshows'⟩
    rw [happend, List.foldlM_append, hrun, ok_bind, List.foldlM_cons, hcall, ok_bind]
    rfl

/-- Visits to the keys on one side of a black node. -/
lemma Leads.join {d : Side} {first' : ℕ} (h : Leads m first l l')
    (hkeys : ∀ key, first < key ∧ key < first + 2 ^ m →
      (first' < key ∧ key < first' + 2 ^ n) ∧ d.Turns key k) :
    Leads n first' (join d a false l k r) (join d a false l' k r) := by
  refine h.lift (fun l => RedBlack.PTree.join d a false l k r) ?_
  rintro l l' ⟨hl, key, hkey, hv⟩
  obtain ⟨hin, hturn⟩ := hkeys key hkey
  refine ⟨by simp, key, hin, ?_⟩
  rw [visit_keep hturn (by simp [hl]), hv]
  rfl

end

/-! ## Full trees -/

/-- Black nodes on `j` levels above copies of `A`, the copy for the keys between `first` and
`first + 2 ^ m` being `A first`. -/
def comb (m : ℕ) (A : ℕ → PTree ℕ) : ℕ → ℕ → PTree ℕ
  | 0, first => A first
  | j + 1, first =>
    let k := first + 2 ^ (j + m)
    .node k false (comb m A j first) k (comb m A j k)

lemma Leads.comb {m : ℕ} {A B : ℕ → PTree ℕ} (h : ∀ first, Leads m first (A first) (B first))
    (j first : ℕ) : Leads (j + m) first (comb m A j first) (comb m B j first) := by
  induction j generalizing first with
  | zero =>
    rw [Nat.zero_add]
    exact h first
  | succ j ih =>
    have hdouble : 2 ^ (j + 1 + m) = 2 * 2 ^ (j + m) := by ring
    refine .trans (Leads.join (d := .left) (ih first) fun key hkey => ⟨?_, hkey.2⟩)
      (Leads.join (d := .right) (ih _) fun key hkey => ⟨?_, hkey.1⟩)
    · omega
    · omega

lemma comb_succ (m : ℕ) (A : ℕ → PTree ℕ) (j first : ℕ) : comb m A (j + 1) first =
    comb (m + 1) (fun f => .node (f + 2 ^ m) false (A f) (f + 2 ^ m) (A (f + 2 ^ m))) j first := by
  induction j generalizing first with
  | zero => simp [comb]
  | succ j ih =>
    rw [comb, ih, ih, comb, show j + 1 + m = j + (m + 1) by omega]

def full (m n first : ℕ) : PTree ℕ := comb m (fun _ => .nil) n first

/-- A full tree of black nodes, but for its root. -/
def redTop (m h first : ℕ) : PTree ℕ := (full m (h + 1) first).paint true

/-- A visit to a red child of a node whose other child is red as well. -/
lemma leads_redTop (m h first : ℕ) : Leads (h + 1 + m + 1) first
    (.node (first + 2 ^ (h + 1 + m)) false (redTop m h first) (first + 2 ^ (h + 1 + m))
      (redTop m h (first + 2 ^ (h + 1 + m)))) (redTop m (h + 1) first) := by
  have hlt : first + 2 ^ (h + m) < first + 2 ^ (h + 1 + m) :=
    Nat.add_lt_add_left (Nat.pow_lt_pow_right (by decide) (by omega)) _
  have hsplit := visit_split (q := first + 2 ^ (h + m)) (b := false) (x := first + 2 ^ (h + 1 + m))
    (c := false) (s := .left) (X := redTop m h first)
    (Y := redTop m h (first + 2 ^ (h + 1 + m))) hlt rfl rfl
  have hfound : visit (first + 2 ^ (h + m)) (first + 2 ^ (h + m)) true true (redTop m h first) =
      some (full m (h + 1) first) := if_pos rfl
  rw [hfound] at hsplit
  exact leads_visit (by omega) rfl hsplit

/-- The red level moves up to the root. -/
lemma leads_up (m j h first : ℕ) : Leads (j + (h + 1 + m)) first
    (comb (h + 1 + m) (redTop m h) j first) (redTop m (h + j) first) := by
  induction j generalizing h with
  | zero => exact .refl
  | succ j ih =>
    have hrest := ih (h + 1)
    rw [show h + 1 + 1 + m = h + 1 + m + 1 by omega, show h + 1 + j = h + (j + 1) by omega] at hrest
    rw [comb_succ, show j + 1 + (h + 1 + m) = j + (h + 1 + m + 1) by omega]
    exact .trans (Leads.comb (leads_redTop m h) j first) hrest

/-- One more level is filled with red nodes, which then turn black. -/
lemma reaches_full (n m : ℕ) : Reaches (full m n 0) := by
  induction n generalizing m with
  | zero => exact ⟨[], _, rfl, .nil, (correct_empty naturals).holds, rfl, fun a ha => absurd rfl ha⟩
  | succ n ih =>
    have hleaf : ∀ f, Leads (m + 1) f .nil (redTop m 0 f) := fun f =>
      leads_visit (Nat.lt_succ_self m) rfl (by simp [visit, redTop, full, comb, PTree.paint])
    have hup := leads_up m n 0 0
    rw [Nat.zero_add, Nat.zero_add, Nat.add_comm 1] at hup
    exact (ih (m + 1)).leads (by cases n <;> rfl) (.trans (Leads.comb hleaf n 0) hup)

/-! ## A leaf with forty nodes above it -/

/-- A leaf with a red brother. -/
def five (f : ℕ) : PTree ℕ :=
  .node (f + 4) false (leaf (f + 2)) (f + 4) (.node (f + 6) true (leaf (f + 5)) (f + 6) (leaf (f + 7)))

lemma leads_five (f : ℕ) : Leads 3 f (full 1 2 f) (five f) := by
  let G (c : Bool) (l r : PTree ℕ) : PTree ℕ :=
    .node (f + 4) false (leaf (f + 2)) (f + 4) (.node (f + 6) c l (f + 6) r)
  let red (k : ℕ) : PTree ℕ := .node k true .nil k .nil
  have h₁ : Step 3 f (full 1 2 f) (G false (red (f + 5)) .nil) :=
    ⟨rfl, f + 5, by omega, by simp [G, red, full, comb, leaf, visit, isRed]⟩
  have h₂ : Step 3 f (G false (red (f + 5)) .nil) (G false (red (f + 5)) (red (f + 7))) :=
    ⟨rfl, f + 7, by omega, by simp [G, red, leaf, visit, isRed]⟩
  have h₃ : Step 3 f (G false (red (f + 5)) (red (f + 7))) (five f) :=
    ⟨rfl, f + 5, by omega, by simp [G, red, five, leaf, visit, isRed, PTree.paint]⟩
  exact .head h₁ (.head h₂ (.single h₃))

lemma reaches_deep : Reaches (comb 3 five 39 0) := by
  have hfull : Reaches (full 1 (39 + 2) 0) := reaches_full _ 1
  rw [full, comb_succ, comb_succ] at hfull
  exact hfull.leads rfl (Leads.comb leads_five 39 0)

lemma unchained_comb (j : ℕ) (ctx : Context ℕ) : ∃ ctx' f,
    unchained 2 (comb 3 five j 0) ctx = some (f :: ctx', leaf 2) ∧
      ctx'.length = ctx.length + j ∧ f.sib.isRed = true := by
  induction j generalizing ctx with
  | zero =>
    refine ⟨ctx, ⟨.left, 4, false, 4, .node 6 true (leaf 5) 6 (leaf 7)⟩, ?_, rfl, rfl⟩
    simp [comb, five, unchained, leaf, ptr]
  | succ j ih =>
    have hlt : 2 < 0 + 2 ^ (j + 3) := by
      have : 2 ^ 3 ≤ 2 ^ (j + 3) := Nat.pow_le_pow_right (by decide) (by omega)
      omega
    obtain ⟨ctx', f, hrun, hlength, hred⟩ := ih (⟨.left, _, false, _, comb 3 five j _⟩ :: ctx)
    refine ⟨ctx', f, ?_, by rw [hlength]; simp; omega, hred⟩
    rw [comb, unchained, if_pos hlt]
    exact hrun

lemma deep_overflows {T : PTree ℕ} (h : T.paint false = comb 3 five 39 0) : ¬ RoomFor 2 T := by
  cases T with
  | nil => cases h
  | node a c l k r =>
    rw [comb, PTree.paint, PTree.node.injEq] at h
    obtain ⟨-, -, rfl, rfl, -⟩ := h
    obtain ⟨ctx, f, hrun, hlength, hred⟩ := unchained_comb 38 [⟨.left, a, c, 0 + 2 ^ (38 + 3), r⟩]
    intro hroom
    refine hroom (f :: ctx) (leaf 2) ?_ ⟨?_, ?_, rfl, f, rfl, hred⟩
    · rw [unchained, if_pos (by decide)]
      exact hrun
    · simp [hlength]
    · simp [hlength]

/-- From an empty root on, insertions lead to such a tree. -/
theorem run_overruns : ∃ keys s i,
    (insertAll keys).foldlM (perform naturals.compar) (emptyStore, ∅) = .ok s ∧
      Shows s.1 (comb 3 five 39 0) ∧ (insertAll keys ++ [Call.tdelete 2]).foldlM
        (perform naturals.compar) (emptyStore, ∅) = .error (.write i) := by
  obtain ⟨keys, s, hrun, T, hT, hpaint, hwithin⟩ := reaches_deep
  obtain ⟨i, hi⟩ := tdelete_overruns naturals hT (deep_overflows hpaint)
  refine ⟨keys, s, i, hrun, ⟨T, hT, hpaint, hwithin⟩, ?_⟩
  have hcall : perform naturals.compar s (.tdelete 2) = .error (.write i) := by
    rw [perform.eq_def]
    simp only [hi, error_bind]
  rw [List.foldlM_append, hrun, ok_bind, List.foldlM_cons, hcall, error_bind]

end Eglibc.Tsearch
