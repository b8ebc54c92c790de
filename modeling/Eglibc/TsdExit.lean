import Eglibc.TsdRun

/-!
# Thread exit, and whole runs of keys

A round of `__nptl_deallocate_tsd` is one visit of every key in order.
-/

namespace Eglibc.Tsd

variable {T : Type} [DecidableEq T]

variable {r : Pass T} {exiting : Set T} {s : State T}

/-! ## A round is a visit of every key -/

/-- The visits of the keys below `key`. -/
def visited (w : ℕ) (env : Behaviour T) (t : T) (s : State T) (key : ℕ) : Pass T :=
  (List.range key).foldl
    (fun r j => visit w env t (j / secondLevel) r (j % secondLevel)) ⟨0, s.setUsed t false, []⟩

section
variable (w : ℕ) (env : Behaviour T) (t : T)

lemma visited_succ (s : State T) (key : ℕ) : visited w env t s (key + 1) =
      visit w env t (key / secondLevel) (visited w env t s key) (key % secondLevel) := by
  simp [visited, List.range_succ]

lemma visit_idx (cnt inner : ℕ) (r : Pass T) : (visit w env t cnt r inner).idx = r.idx + 1 := by
  unfold visit
  dsimp only
  split_ifs
  · cases r.due t cnt inner <;> rfl
  · rfl

lemma visits_of_block_none (cnt : ℕ) (r : Pass T) (h : (r.state.threads t).block cnt = none)
    (inners : List ℕ) :
    inners.foldl (visit w env t cnt) r = { r with idx := r.idx + inners.length } := by
  induction inners generalizing r with
  | nil => rfl
  | cons inner inners ih =>
    have hvisit : visit w env t cnt r inner = { r with idx := r.idx + 1 } := by
      simp [visit, entry_of_block_none h, Datum.zero]
    have hrest := ih { r with idx := r.idx + 1 } h
    rw [List.foldl_cons, hvisit, hrest]
    simp [Nat.add_comm, Nat.add_left_comm]

lemma visitBlock_eq (r : Pass T) (cnt : ℕ) :
    visitBlock w env t r cnt = (List.range secondLevel).foldl (visit w env t cnt) r := by
  unfold visitBlock
  cases hb : (r.state.threads t).block cnt with
  | some block => rfl
  | none =>
    rw [visits_of_block_none w env t cnt r hb, List.length_range]
    -- both levels have thirty-two elements
    rfl

lemma foldl_visitBlock (s : State T) (n : ℕ) :
    (List.range n).foldl (visitBlock w env t) ⟨0, s.setUsed t false, []⟩ =
      visited w env t s (secondLevel * n) := by
  induction n with
  | zero => rfl
  | succ n ih =>
    have hkeys : List.range (secondLevel * (n + 1)) =
        List.range (secondLevel * n) ++ (List.range secondLevel).map (secondLevel * n + ·) := by
      rw [Nat.mul_succ, List.range_add]
    have hstep : ∀ (inners : List ℕ), (∀ i ∈ inners, i < secondLevel) → ∀ r : Pass T,
        inners.foldl (visit w env t n) r =
          (inners.map (secondLevel * n + ·)).foldl
            (fun r j => visit w env t (j / secondLevel) r (j % secondLevel)) r := by
      intro inners hlt r
      rw [List.foldl_map]
      apply List.foldl_ext
      intro r i hi
      have hi := hlt i hi
      have hdiv : (secondLevel * n + i) / secondLevel = n := by
        unfold secondLevel at hi ⊢
        omega
      have hmod : (secondLevel * n + i) % secondLevel = i := by
        unfold secondLevel at hi ⊢
        omega
      rw [hdiv, hmod]
    rw [List.range_succ, List.foldl_append, ih]
    simp [visitBlock_eq]
    rw [hstep _ (fun i hi => List.mem_range.mp hi)]
    simp [visited, hkeys]

lemma round_eq_visited (s : State T) : round w env t s = visited w env t s keysMax := by
  unfold round
  exact foldl_visitBlock w env t s firstLevel

lemma visited_idx (s : State T) (key : ℕ) : (visited w env t s key).idx = key := by
  induction key with
  | zero => rfl
  | succ key ih => rw [visited_succ, visit_idx, ih]

/-! ## The calls of a round -/

def called (t : T) (cnt inner : ℕ) (r : Pass T) : List (Invocation T) :=
  if ((r.state.threads t).entry cnt inner).data ≠ 0 then (r.due t cnt inner).toList else []

lemma visit_calls (cnt inner : ℕ) (r : Pass T) :
    (visit w env t cnt r inner).calls = r.calls ++ called t cnt inner r := by
  unfold visit called
  dsimp only
  split_ifs
  · cases r.due t cnt inner <;> simp
  · simp

lemma key_of_mem_called {t : T} {cnt inner : ℕ} {call : Invocation T}
    (h : call ∈ called t cnt inner r) : call.key = r.idx := by
  simp only [called, Pass.due] at h
  split_ifs at h
  · obtain ⟨destr, -, rfl⟩ := by simpa using h
    rfl
  · simp at h
  · simp at h

lemma visited_filter (s : State T) (key n : ℕ) : (visited w env t s n).calls.filter (·.key = key) =
      if key < n then
        called t (key / secondLevel) (key % secondLevel) (visited w env t s key)
      else [] := by
  induction n with
  | zero => simp [visited]
  | succ n ih =>
    have hkeys : ∀ call ∈ called t (n / secondLevel) (n % secondLevel) (visited w env t s n),
        call.key = n := by
      intro call h
      rw [key_of_mem_called h, visited_idx]
    rw [visited_succ, visit_calls, List.filter_append, ih]
    by_cases hlt : key < n
    · have hnone : (called t (n / secondLevel) (n % secondLevel) (visited w env t s n)).filter
          (·.key = key) = [] := by
        apply List.filter_eq_nil_iff.mpr
        intro call h
        have := hkeys call h
        simp
        omega
      simp [hlt, hnone, Nat.lt_succ_of_lt hlt]
    by_cases heq : key = n
    · subst heq
      have hall : (called t (key / secondLevel) (key % secondLevel)
          (visited w env t s key)).filter (·.key = key) = called t (key / secondLevel)
          (key % secondLevel) (visited w env t s key) := by
        apply List.filter_eq_self.mpr
        intro call h
        simp [hkeys call h]
      simp [hall]
    have hnone : (called t (n / secondLevel) (n % secondLevel) (visited w env t s n)).filter
        (·.key = key) = [] := by
      apply List.filter_eq_nil_iff.mpr
      intro call h
      have := hkeys call h
      simp
      omega
    have hlt' : ¬ key < n + 1 := by omega
    simp [hlt, hnone, hlt']

end

/-- The destructor calls that a thread owes for a key: one if the key exists and has a
destructor and the thread's value is not `NULL`, made after the value is cleared. -/
def owed (t : T) (key : ℕ) (s : State T) : List (Invocation T) :=
  let data := (getspecific t key s).2
  match (s.keys key).destr with
  | some destr =>
    if Exists s key ∧ data ≠ 0 then
      [⟨key, destr, data, s.setEntry t (key / secondLevel) (key % secondLevel)
        { (s.threads t).datum key with data := 0 }⟩]
    else []
  | none => []

lemma called_eq_owed (h : Stored exiting r.state) (t : T) (hkey : r.idx < keysMax) :
    called t (r.idx / secondLevel) (r.idx % secondLevel) r = owed t r.idx r.state := by
  have hodd := h.odd t r.idx
  simp only [owed, getspecific_value t r.idx r.state hkey, value]
  unfold called Pass.due
  simp only [← Thread.datum.eq_1]
  cases hdestr : (r.state.keys r.idx).destr with
  | none => simp
  | some destr =>
    by_cases hdata : ((r.state.threads t).datum r.idx).data = 0
    · simp [hdata]
    by_cases hseq : ((r.state.threads t).datum r.idx).seq = (r.state.keys r.idx).seq
    · have hex : Exists r.state r.idx := ⟨hkey, hseq ▸ hodd hdata⟩
      simp [hdata, hseq, hex]
    · simp [hseq]

lemma Stored.visit (h : Stored exiting r.state) (w : ℕ) (env : Behaviour T) (t : T) (key : ℕ) :
    Stored exiting (Tsd.visit w env t (key / secondLevel) r (key % secondLevel)).state := by
  have hcleared := h.clear t key
    ((r.state.threads t).entry (key / secondLevel) (key % secondLevel)).seq
  unfold Tsd.visit
  dsimp only
  split_ifs
  · cases r.due t (key / secondLevel) (key % secondLevel) with
    | none => exact hcleared
    | some call => exact hcleared.run w _
  · exact h

lemma stored_setUsed (h : Stored exiting s) (t : T) :
    Stored (insert t exiting) (s.setUsed t false) where
  odd t' key := by
    have hsame : ((s.setUsed t false).threads t').datum key = (s.threads t').datum key := by
      rw [State.setUsed, datum_setThread]
      split_ifs with ht
      · rw [ht]
        rfl
      · rfl
    rw [hsame]
    exact h.odd t' key
  used t' key hstays hdata := by
    have hne : t' ≠ t := fun ht => hstays (.inl ht)
    rw [State.setUsed, datum_setThread, if_neg hne] at hdata
    simp only [State.setUsed, State.setThread, Function.update_of_ne hne]
    exact h.used t' key (fun ht => hstays (.inr ht)) hdata

lemma Stored.visited (h : Stored exiting s) (w : ℕ) (env : Behaviour T) (t : T) (key : ℕ) :
    Stored (insert t exiting) (Tsd.visited w env t s key).state := by
  induction key with
  | zero => exact stored_setUsed h t
  | succ key ih =>
    rw [visited_succ]
    exact ih.visit w env t key

lemma round_filter (h : Stored exiting s) (w : ℕ)
    (env : Behaviour T) (t : T) (hkey : key < keysMax) :
    (round w env t s).calls.filter (·.key = key) =
      owed t key (visited w env t s key).state := by
  have hidx := visited_idx w env t s key
  have howed := called_eq_owed (h.visited w env t key) t (hidx.symm ▸ hkey)
  rw [hidx] at howed
  rw [round_eq_visited, visited_filter, if_pos hkey, howed]

lemma value_of_mem_owed
    (hkey : key < keysMax) (h : call ∈ owed t key s) : (getspecific t key call.state).2 = 0 := by
  simp only [owed] at h
  split at h
  · split_ifs at h
    · obtain rfl := List.mem_singleton.mp h
      rw [getspecific_value _ _ _ hkey]
      rw [value, setEntry_eq_store, datum_store]
      simp
    · simp at h
  · simp at h

/-! ## The rounds of an exit -/

lemma rounds_start (w : ℕ) (env : Behaviour T) (t : T) (left : ℕ) (s : State T) :
    ∃ more, (rounds w env t left s).2 = ⟨s, (round w env t s).calls⟩ :: more := by
  cases left <;> simp only [rounds] <;> split_ifs <;> exact ⟨_, rfl⟩

lemma rounds_ran (w : ℕ) (env : Behaviour T) (t : T) (left : ℕ) (h : Stored exiting s) :
    ∀ ran ∈ (rounds w env t left s).2, (∃ exiting', Stored exiting' ran.start) ∧
      ran.calls = (round w env t ran.start).calls := by
  induction left generalizing s exiting with
  | zero =>
    intro ran hran
    have hsame : ran = ⟨s, (round w env t s).calls⟩ := by
      simp only [rounds] at hran
      split_ifs at hran <;> simpa using hran
    rw [hsame]
    exact ⟨⟨exiting, h⟩, rfl⟩
  | succ left ih =>
    intro ran hran
    have hcases : ran = ⟨s, (round w env t s).calls⟩ ∨
        ran ∈ (rounds w env t left (round w env t s).state).2 := by
      simp only [rounds] at hran
      split_ifs at hran
      · simpa using hran
      · left
        simpa using hran
    obtain hsame | hmore := hcases
    · rw [hsame]
      exact ⟨⟨exiting, h⟩, rfl⟩
    have hround : Stored (insert t exiting) (round w env t s).state := by
      rw [round_eq_visited]
      exact h.visited w env t keysMax
    exact ih hround ran hmore

lemma deletions_le_length (w key : ℕ) (s : State T) (calls : List (Call T)) :
    deletions w key s calls ≤ calls.length := by
  induction calls generalizing s with
  | nil => exact le_rfl
  | cons call calls ih =>
    have hle := ih (call.perform w s).1
    rw [deletions, List.length_cons]
    split_ifs <;> omega

lemma bounded_start {w : ℕ} {calls : List (Call T)}
    (h : w = 32 ∨ w = 64 ∧ ∀ key, deletions w key .start calls < 2 ^ 31) : Bounded w .start calls := by
  obtain hw | ⟨-, h⟩ := h
  · exact .inl ⟨hw, fun key => by simp [State.start]⟩
  right
  intro key
  have hkey := h key
  have hseq : ((State.start : State T).keys key).seq = 0 := rfl
  omega

/-- Thread-specific data follows the lifetimes of the keys. Every run of calls
is answered as the map answers it, and when a thread exits, each round calls for
each key what is owed for it when the round comes to the key, with the value
already cleared; a thread that skips the rounds has no value. On hosts with a
wider `uintptr_t` no key may be deleted `2 ^ 31` times while it exists. -/
theorem values_follow_keys (w : ℕ) (calls : List (Call T))
    (hcalls : w = 32 ∨ w = 64 ∧ ∀ key, deletions w key .start calls < 2 ^ 31) :
    (Map.start.follow calls (perform w .start calls).2).isSome ∧
      ∀ (t : T) (env : Behaviour T),
        let s := (perform w .start calls).1
        let ran := (deallocateTsd w env t s).2
        ((s.threads t).used = false → ∀ key < keysMax, (getspecific t key s).2 = 0) ∧
        ((s.threads t).used = true → ran.head?.map Ran.start = some s) ∧
        ∀ r ∈ ran, ∀ key < keysMax,
          r.calls.filter (·.key = key) = owed t key (visited w env t r.start key).state ∧
          ∀ call ∈ r.calls, call.key = key → (getspecific t key call.state).2 = 0 := by
  have hw : 32 ≤ w := by omega
  obtain ⟨m, hfollow, -⟩ := stands_start.run hw calls (bounded_start hcalls)
  refine ⟨by rw [hfollow]; rfl, ?_⟩
  intro t env s ran
  have hstored : Stored ∅ s := stored_start.run w calls
  refine ⟨?_, ?_, ?_⟩
  · intro hunused key hkey
    rw [getspecific_value t key s hkey, value]
    split_ifs
    · by_contra hdata
      have := hstored.used t key (by simp) hdata
      rw [hunused] at this
      exact Bool.noConfusion this
    · rfl
  · intro hused
    obtain ⟨more, hmore⟩ := rounds_start w env t (destructorIterations - 1) s
    simp [ran, deallocateTsd, hused, hmore]
  · intro r hr key hkey
    have hmem : r ∈ (rounds w env t (destructorIterations - 1) s).2 := by
      simp only [ran, deallocateTsd] at hr
      split_ifs at hr
      · exact hr
      · simp at hr
    obtain ⟨⟨exiting, hstart⟩, hrun⟩ := rounds_ran w env t _ hstored r hmem
    have hfilter := round_filter hstart w env t hkey
    rw [← hrun] at hfilter
    refine ⟨hfilter, ?_⟩
    intro call hcall hcallkey
    apply value_of_mem_owed hkey
    rw [← hfilter]
    exact List.mem_filter.mpr ⟨hcall, by simp [hcallkey]⟩

/-! ## A number that wraps -/

/-- A slot created and deleted `k` times. -/
def reuse (k : ℕ) : List (Call T) := (List.replicate k [.create none, .delete 0]).flatten

lemma perform_append (w : ℕ) (s : State T) (calls more : List (Call T)) :
    (perform w s (calls ++ more)).1 = (perform w (perform w s calls).1 more).1 := by
  induction calls generalizing s with
  | nil => rfl
  | cons call calls ih => exact ih _

omit [DecidableEq T] in
lemma keyCreate_of_find (h : (List.range keysMax).find? (fun cnt =>
      keyUnused (s.keys cnt).seq && keyUsable w (s.keys cnt).seq) = some cnt) (destr : Option ℕ) :
    keyCreate w destr s = (s.setKey cnt ⟨((s.keys cnt).seq + 1) % 2 ^ w, destr⟩, some cnt) := by
  unfold keyCreate
  rw [h]

omit [DecidableEq T] in
lemma keyCreate_first (s : State T) (heven : n % 2 = 0) (hseq : (s.keys 0).seq = n)
    (hn : n < 2 ^ 32) (destr : Option ℕ) :
    keyCreate 64 destr s = (s.setKey 0 ⟨n + 1, destr⟩, some 0) := by
  have husable : (keyUnused (s.keys 0).seq && keyUsable 64 (s.keys 0).seq) = true := by
    simp [keyUnused, keyUsable, hseq, decide_eq_true_eq]
    omega
  have hrange : List.range keysMax = 0 :: (List.range 1023).map Nat.succ :=
    List.range_succ_eq_map
  have hfind : (List.range keysMax).find? (fun cnt =>
      keyUnused (s.keys cnt).seq && keyUsable 64 (s.keys cnt).seq) = some 0 := by
    rw [hrange]
    exact List.find?_cons_of_pos husable
  have hmod : (n + 1) % 2 ^ 64 = n + 1 := by omega
  rw [keyCreate_of_find hfind destr, hseq, hmod]

lemma perform_reuse (k n : ℕ) (s : State T) (hseq : (s.keys 0).seq = 2 * (n % 2 ^ 31)) :
    ((perform 64 s (reuse k)).1.keys 0).seq = 2 * ((n + k) % 2 ^ 31) ∧
      (perform 64 s (reuse k)).1.threads = s.threads := by
  induction k generalizing n s with
  | zero => exact ⟨hseq, rfl⟩
  | succ k ih =>
    have hcreate := keyCreate_first s (by omega) hseq (by omega) none
    have hdelete := keyDelete_eq 0 (s.setKey 0 ⟨2 * (n % 2 ^ 31) + 1, none⟩) (by
      simp [State.setKey]
      omega)
    rw [if_pos ⟨by decide, by simp only [State.setKey, Function.update_self]; omega⟩] at hdelete
    have hcycle : reuse (T := T) (k + 1) = .create none :: .delete 0 :: reuse k := by
      simp [reuse, List.replicate_succ]
    rw [hcycle]
    simp only [perform, Call.perform, hcreate, Prod.map_fst, id_eq, hdelete]
    obtain ⟨hnumber, hthreads⟩ := ih (n + 1) ((s.setKey 0 ⟨2 * (n % 2 ^ 31) + 1, none⟩).setKey 0
      ⟨unsignedInt (2 * (n % 2 ^ 31) + 1 + 1), none⟩) (by
        simp [State.setKey, unsignedInt]
        omega)
    refine ⟨?_, hthreads⟩
    rwa [Nat.add_comm k 1, ← Nat.add_assoc]

/-- A value is set under the first incarnation of the key `0`, which is then
deleted and is created and deleted again `k` times. -/
def stale (k : ℕ) : List (Call Unit) := [.create none, .set () 0 7, .delete 0] ++ reuse k

lemma stale_wrapped (hk : (1 + k) % 2 ^ 31 = 0) : ((perform 64 .start (stale k)).1.keys 0).seq = 0 ∧
      ((perform 64 .start (stale k)).1.threads ()).datum 0 = ⟨1, 7⟩ := by
  have hseq : ((perform 64 (.start : State Unit)
      [.create none, .set () 0 7, .delete 0]).1.keys 0).seq = 2 * (1 % 2 ^ 31) := by
    decide +kernel
  have hdatum : ((perform 64 (.start : State Unit)
      [.create none, .set () 0 7, .delete 0]).1.threads ()).datum 0 = ⟨1, 7⟩ := by
    decide +kernel
  obtain ⟨hwrapped, hthreads⟩ := perform_reuse k 1 _ hseq
  rw [stale, perform_append]
  constructor
  · rw [hwrapped, hk]
  · rw [hthreads, hdatum]

lemma keyCreate_revives {s : State Unit} (hseq : (s.keys 0).seq = 0)
    (hdatum : (s.threads ()).datum 0 = ⟨1, 7⟩) :
    (keyCreate 64 none s).2 = some 0 ∧ (getspecific () 0 (keyCreate 64 none s).1).2 = 7 := by
  have hcreate := keyCreate_first s rfl hseq (by omega) none
  rw [hcreate, getspecific_value _ _ _ (by decide)]
  refine ⟨rfl, ?_⟩
  simp [value, State.setKey, hdatum]

/-- On a host with a `uintptr_t` of 64 bits, an incarnation of the key that comes
`2 ^ 31` deletions later starts with the value of the first one. -/
theorem new_key_has_old_value : ∃ k, k + 1 = 2 ^ 31 ∧
      let s := (perform 64 .start (stale k)).1
      (keyCreate 64 none s).2 = some 0 ∧ (getspecific () 0 (keyCreate 64 none s).1).2 = 7 := by
  have hk : ∃ k, k + 1 = 2 ^ 31 := ⟨2 ^ 31 - 1, by omega⟩
  obtain ⟨k, hk⟩ := hk
  obtain ⟨hseq, hdatum⟩ := stale_wrapped (k := k) (by omega)
  exact ⟨k, hk, keyCreate_revives hseq hdatum⟩

/-- Two incarnations of a key, the second read without a value. -/
theorem values_follow_keys_twice :
    (Map.start.follow [.create none, .set () 0 7, .delete 0, .create (some 3), .get () 0]
      (perform 64 .start
        [.create none, .set () 0 7, .delete 0, .create (some 3), .get () 0]).2).isSome :=
  (values_follow_keys 64
    ([.create none, .set () 0 7, .delete 0, .create (some 3), .get () 0] : List (Call Unit))
    (.inr ⟨rfl, fun key => (deletions_le_length 64 key _ _).trans_lt (by decide)⟩)).1

end Eglibc.Tsd
