import Eglibc.TsearchDelete

/-!
# Runs of tsearch and tdelete calls

The tree is compared with a finite set on which the same insertions and deletions are
performed, an insertion only when `tsearch` had the memory for it.
-/
namespace Eglibc.Tsearch
open Checked RedBlack TreeStore PTree
variable {κ : Type} [LinearOrder κ] {t : Store κ}

section
variable {key : κ} {K : List κ}

def Located (K : List κ) (key : κ) (t : Store κ) : Option ℕ → Prop
  | none => key ∉ K
  | some a => key ∈ K ∧ ∃ n, t.heap a = some n ∧ n.key = key

lemma findBody_returns (o : Comparison κ) (hK : K.Pairwise (· < ·)) (m : ℕ) (rootp : Slot)
    (h : ∃ ctx u, Cut K key t ctx u ∧ rootp = slotOf ctx ∧ m = u.size) :
    Returns (findBody o.compar key t rootp) (Closer
      (fun m rootp => ∃ ctx u, Cut K key t ctx u ∧ rootp = slotOf ctx ∧ m = u.size)
      (Located K key t) m) := by
  obtain ⟨ctx, u, hcut, rfl, rfl⟩ := h
  simp only [findBody, hcut.layout.get_slot, ok_bind]
  cases u with
  | nil => exact returns_ok hcut.not_mem
  | node x c l kx r =>
    simp only [ptr, node_eq hcut.layout.rep.1, ok_bind]
    split_ifs with hr
    · obtain rfl := (o.zero key kx).mp hr
      exact returns_ok ⟨hcut.mem, _, hcut.layout.rep.1, rfl⟩
    have hs := o.turns hr
    generalize sideOf (o.compar key kx) = s at hs ⊢
    obtain ⟨X, Y, hu⟩ := node_eq_join s x c l kx r
    rw [hu] at hcut ⊢
    refine returns_ok ⟨X.size, ?_, _, X, hcut.push hK hs, rfl, rfl⟩
    rw [size_join]
    omega

lemma tfind_returns (key : κ) (o : Comparison κ) (h : Holds t T) :
    Returns (tfind o.compar key t) (Located T.keys key t) := by
  have hstart : Cut T.keys key t [] T :=
    ⟨h.layout, rfl, h.balanced, by simp [Context.Between, Context.before, Context.after]⟩
  have hsize : T.size ≤ t.size := by simpa [Context.size] using h.layout.size
  exact iterate_closer (findBody_returns o h.sorted) ⟨[], T, hstart, rfl, rfl⟩ (by omega)

end

inductive Call (κ : Type)
  | tsearch (key : κ) (malloc : Allocator κ)
  | tdelete (key : κ)

def perform (compar : κ → κ → ℤ) (s : Store κ × Finset κ) : Call κ → Run (Store κ × Finset κ)
  | .tsearch key malloc => do
      let (t, q) ← tsearch malloc compar key s.1
      .ok (t, if q = none then s.2 else insert key s.2)
  | .tdelete key => do
      let (t, _) ← tdelete compar key s.1
      .ok (t, s.2.erase key)

/-- A call that deletes a key finds room on its stack. -/
def Call.Roomy (t : Store κ) : Call κ → Prop
  | .tsearch _ _ => True
  | .tdelete key => ∀ T, At t [] T → RoomFor key T

/-- Every call of the run finds room on its stack, in the tree that it is made on. -/
def Roomy (compar : κ → κ → ℤ) : Store κ × Finset κ → List (Call κ) → Prop
  | _, [] => True
  | s, c :: calls => c.Roomy s.1 ∧ ∀ s', perform compar s c = .ok s' → Roomy compar s' calls

structure Correct (compar : κ → κ → ℤ) (t : Store κ) (S : Finset κ) (T : PTree κ) : Prop where
  layout : At t [] T
  sorted : T.keys.Pairwise (· < ·)
  proper : T.Proper
  black : ∃ n, T.Black n
  keys_eq : T.keys.toFinset = S
  found : ∀ key, Returns (tfind compar key t) fun q => q ≠ none ↔ key ∈ S

lemma Holds.correct (o : Comparison κ) (h : Holds t T) : Correct o.compar t T.keys.toFinset T := by
  refine ⟨h.layout, h.sorted, h.balanced.1, h.balanced.2, rfl, fun key => ?_⟩
  refine (tfind_returns key o h).mono ?_
  rintro (_ | a) hq
  · exact iff_of_false (by simp) (mt List.mem_toFinset.mp hq)
  · exact iff_of_true (by simp) (by simpa using hq.1)

lemma Correct.holds (h : Correct compar t S T) : Holds t T :=
  ⟨h.layout, h.sorted, h.proper, h.black⟩

lemma perform_returns (o : Comparison κ) (h : ∃ T, Correct o.compar t S T) (c : Call κ)
    (hroom : c.Roomy t) :
    Returns (perform o.compar (t, S) c) fun s => ∃ T, Correct o.compar s.1 s.2 T := by
  obtain ⟨T, h⟩ := h
  obtain rfl := h.keys_eq
  cases c with
  | tsearch key malloc =>
    refine (tsearch_returns o malloc h.holds).bind ?_
    rintro ⟨t', q⟩ ⟨T', hT', hq⟩
    refine returns_ok ⟨T', ?_⟩
    have hset : T'.keys.toFinset = if q = none then T.keys.toFinset
        else insert key T.keys.toFinset := by
      cases q with
      | none => simp [hq.1]
      | some a => simpa using hq.1
    exact hset ▸ hT'.correct o
  | tdelete key =>
    refine (tdelete_returns o h.holds (hroom _ h.layout)).bind ?_
    rintro ⟨t', q⟩ ⟨⟨T', hT', hkeys⟩, _⟩
    refine returns_ok ⟨T', ?_⟩
    have hnodup : T.keys.Nodup := h.sorted.imp ne_of_lt
    have hset : T'.keys.toFinset = T.keys.toFinset.erase key := by
      ext k
      rw [hkeys, List.mem_toFinset, hnodup.mem_erase_iff]
      simp
    exact hset ▸ hT'.correct o

lemma run_returns (o : Comparison κ) (calls : List (Call κ)) (h : ∃ T, Correct o.compar s.1 s.2 T)
    (hroom : Roomy o.compar s calls) :
    Returns (calls.foldlM (perform o.compar) s) fun s => ∃ T, Correct o.compar s.1 s.2 T := by
  induction calls generalizing s with
  | nil => exact returns_pure h
  | cons c calls ih =>
    obtain ⟨s', hs', h'⟩ := perform_returns o h c hroom.1
    rw [List.foldlM_cons, show perform o.compar s c = .ok s' from hs', ok_bind]
    exact ih h' (hroom.2 s' hs')

def emptyStore : Store κ := ⟨fun _ => none, none, 0⟩

lemma correct_empty (o : Comparison κ) : Correct o.compar (emptyStore : Store κ) ∅ .nil := by
  have hempty : Holds (emptyStore : Store κ) .nil :=
    ⟨⟨trivial, rfl, by simp [addrs, Context.addrs], le_rfl⟩, List.Pairwise.nil, trivial, 0, rfl⟩
  exact hempty.correct o

/-- From an empty root on, every run of calls that find room on their stack keeps a red-black
search tree of the keys that the same insertions and deletions leave in a set. -/
theorem tree_correct (o : Comparison κ) (calls : List (Call κ))
    (hroom : Roomy o.compar (emptyStore, ∅) calls) :
    Returns (calls.foldlM (perform o.compar) (emptyStore, ∅))
      fun s => ∃ T, Correct o.compar s.1 s.2 T :=
  run_returns o calls ⟨_, correct_empty o⟩ hroom

/-- A tree of one node needs no room on the stack. -/
lemma roomFor_single {T : PTree κ} (h : T.size ≤ 1) (key : κ) : RoomFor key T := by
  rintro ctx u hlocated ⟨hfull, -⟩
  cases T with
  | nil => cases hlocated
  | node a c l k r =>
    cases l with
    | nil =>
      cases r with
      | nil =>
        simp only [unchained, ptr] at hlocated
        split_ifs at hlocated
        cases hlocated
        cases hfull
      | node => simp [size] at h
    | node => simp [size] at h

def naturals : Comparison ℕ := ⟨fun a b => a - b, by omega, by omega⟩

/-- A memory in which a node is at the address of its key. -/
def atKey (key : ℕ) : Allocator ℕ where
  alloc h := if (h key).isNone then some key else none
  fresh h a ha := by
    split_ifs at ha with hfree
    cases ha
    exact Option.isNone_iff_eq_none.mp hfree

def insertDelete : List (Call ℕ) := [.tsearch 1 (atKey 1), .tdelete 1]

lemma roomy_insertDelete : Roomy naturals.compar (emptyStore, ∅) insertDelete := by
  refine ⟨trivial, fun s hs => ⟨fun T hT => roomFor_single ?_ 1, fun _ _ => trivial⟩⟩
  have hsize : (perform naturals.compar (emptyStore, ∅) (.tsearch 1 (atKey 1))).map (fun s => s.1.size) =
      .ok 1 := rfl
  rw [hs] at hsize
  have hone : s.1.size = 1 := Except.ok.inj hsize
  have hle := hT.size
  simp [Context.size] at hle
  omega

theorem tree_correct_insertDelete :
    Returns (insertDelete.foldlM (perform naturals.compar) (emptyStore, ∅))
      fun s => ∃ T, Correct naturals.compar s.1 s.2 T :=
  tree_correct naturals insertDelete roomy_insertDelete

/-- The keys in the order of the visits between the subtrees. -/
def inOrder (visits : List (κ × Visit × ℕ)) : List κ :=
  visits.filterMap fun
    | (k, .postorder, _) | (k, .leaf, _) => some k
    | _ => none

omit [LinearOrder κ] in
lemma trecurse_returns (h : Rep t.heap u) (hsize : u.size ≤ budget) :
    Returns (u.ptr.elim (.ok []) (trecurse t budget level)) fun visits =>
      inOrder visits = u.keys := by
  induction u generalizing budget level with
  | nil => exact returns_ok rfl
  | node a c l k r ihl ihr =>
    obtain ⟨ha, hl, hr⟩ := h
    rw [size] at hsize
    obtain _ | budget := budget
    · omega
    rw [ptr, Option.elim, trecurse, node_eq ha, ok_bind]
    dsimp only
    split_ifs with hleaf
    · cases l <;> cases r <;> simp [ptr] at hleaf
      exact returns_ok rfl
    · refine (ihl hl (by omega)).bind fun left hleft => ?_
      refine (ihr hr (by omega)).bind fun right hright => returns_ok ?_
      rw [keys, ← hleft, ← hright]
      simp [inOrder]

/-- After every run of calls that find room on their stack, a walk meets the keys of the set
in ascending order. -/
theorem twalk_ascends (o : Comparison κ) (calls : List (Call κ)) (s : Store κ × Finset κ)
    (h : ∃ T, Correct o.compar s.1 s.2 T) (hroom : Roomy o.compar s calls) :
    Returns (calls.foldlM (perform o.compar) s) fun s =>
      Returns (twalk s.1) fun visits =>
        (inOrder visits).Pairwise (· < ·) ∧ (inOrder visits).toFinset = s.2 := by
  refine (run_returns o calls h hroom).mono ?_
  rintro ⟨t, S⟩ ⟨T, h⟩
  rw [twalk, show t.root = T.ptr from h.layout.context]
  refine (trecurse_returns h.layout.rep h.layout.size).mono fun visits hvisits => ?_
  rw [hvisits]
  exact ⟨h.sorted, h.keys_eq⟩

theorem twalk_ascends_insertDelete :
    Returns (insertDelete.foldlM (perform naturals.compar) (emptyStore, ∅)) fun s =>
      Returns (twalk s.1) fun visits =>
        (inOrder visits).Pairwise (· < ·) ∧ (inOrder visits).toFinset = s.2 :=
  twalk_ascends naturals insertDelete _ ⟨_, correct_empty naturals⟩ roomy_insertDelete

end Eglibc.Tsearch
