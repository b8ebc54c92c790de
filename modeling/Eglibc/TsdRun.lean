import Eglibc.Tsd

/-!
# Values follow the keys

The map has one value per thread and existing key. `pthread_key_delete` adds one in an
`unsigned int`; as long as no number wraps, every run of calls answers as the map does.
-/

namespace Eglibc.Tsd

variable {T : Type} {exiting : Set T}

/-! ## The map -/

structure Map (T : Type) where
  live : ℕ → Bool
  value : T → ℕ → ℕ

def Map.start : Map T := ⟨fun _ => false, fun _ _ => 0⟩

def Map.next [DecidableEq T] (m : Map T) : Call T → Answer → Option (Map T)
  | .create _, .created none => some m
  | .create _, .created (some key) =>
    if m.live key then none
    else some ⟨Function.update m.live key true, fun t => Function.update (m.value t) key 0⟩
  | .delete key, .code result =>
    if m.live key then
      if result = .ok then some { m with live := Function.update m.live key false } else none
    else if result = .einval then some m else none
  | .set t key v, .code result =>
    if m.live key then
      if result = .ok then
        some { m with value := Function.update m.value t (Function.update (m.value t) key v) }
      else none
    else if result = .einval then some m else none
  | .get t key, .value v => if m.live key ∧ v ≠ m.value t key then none else some m
  | _, _ => none

def Map.follow [DecidableEq T] (m : Map T) : List (Call T) → List Answer → Option (Map T)
  | [], [] => some m
  | call :: calls, answer :: answers => (m.next call answer).bind fun m' => m'.follow calls answers
  | _, _ => none

/-! ## The invariant of every run -/

/-- A stored value has an odd number, and its thread remembers that it has
stored something unless it is exiting. -/
structure Stored (exiting : Set T) (s : State T) : Prop where
  odd : ∀ t key, ((s.threads t).datum key).data ≠ 0 → ((s.threads t).datum key).seq % 2 = 1
  used : ∀ t key, t ∉ exiting → ((s.threads t).datum key).data ≠ 0 → (s.threads t).used = true

structure Stands (s : State T) (m : Map T) : Prop where
  live : ∀ key, m.live key = true ↔ Exists s key
  fits : ∀ key, (s.keys key).seq < 2 ^ 32
  behind : ∀ t key, ((s.threads t).datum key).seq ≤ (s.keys key).seq
  value : ∀ t key, Exists s key → value s t key = m.value t key

lemma datum_start (t : T) (key : ℕ) : (State.start.threads t).datum key = .zero := by
  by_cases h : key / secondLevel = 0 <;>
    simp [State.start, Thread.start, Thread.datum, Thread.entry, Thread.block, h]

lemma stored_start : Stored (T := T) ∅ .start where
  odd t key h := by simp [datum_start, Datum.zero] at h
  used t key _ h := by simp [datum_start, Datum.zero] at h

lemma stands_start : Stands (T := T) .start .start where
  live key := by simp [Map.start, Exists, State.start]
  fits key := by simp [State.start]
  behind t key := by simp [datum_start, Datum.zero]
  value t key h := by simp [Exists, State.start] at h

/-! ### Changing a key -/

lemma Stored.setKey (h : Stored exiting s) (key : ℕ) (k : Key) : Stored exiting (s.setKey key k) :=
  ⟨h.odd, h.used⟩

lemma exists_setKey (s : State T) (key j : ℕ) (k : Key) :
    Exists (s.setKey key k) j ↔ if j = key then key < keysMax ∧ k.seq % 2 = 1 else Exists s j := by
  by_cases hj : j = key
  · subst hj
    simp [Exists, State.setKey]
  · simp [Exists, State.setKey, hj]

lemma value_setKey_of_ne (s : State T) (t : T) (k : Key) (hj : j ≠ key) :
    value (s.setKey key k) t j = value s t j := by
  simp [value, State.setKey, hj]

lemma Stands.behind_setKey (h : Stands s m) (hgrow : (s.keys key).seq ≤ k.seq) (t : T) (j : ℕ) :
    (((s.setKey key k).threads t).datum j).seq ≤ ((s.setKey key k).keys j).seq := by
  have hj := h.behind t j
  by_cases hkey : j = key
  · subst hkey
    simp [State.setKey]
    omega
  · simpa [State.setKey, hkey] using hj

lemma Stands.fits_setKey (h : Stands s m)
    (hfits : k.seq < 2 ^ 32) (j : ℕ) : ((s.setKey key k).keys j).seq < 2 ^ 32 := by
  by_cases hkey : j = key
  · subst hkey
    simpa [State.setKey] using hfits
  · simpa [State.setKey, hkey] using h.fits j

lemma Stands.create (h : Stands s m) (hkey : key < keysMax)
    (heven : (s.keys key).seq % 2 = 0) (destr : Option ℕ) :
    Stands (s.setKey key ⟨(s.keys key).seq + 1, destr⟩)
      ⟨Function.update m.live key true, fun t => Function.update (m.value t) key 0⟩ where
  live j := by
    rw [exists_setKey]
    by_cases hj : j = key
    · subst hj
      simpa using ⟨hkey, by omega⟩
    · simpa [hj] using h.live j
  fits j := by
    apply h.fits_setKey
    have := h.fits key
    dsimp only
    omega
  behind t j := h.behind_setKey (Nat.le_succ _) t j
  value t j hex := by
    rw [exists_setKey] at hex
    by_cases hj : j = key
    · subst hj
      have hne : ((s.threads t).datum j).seq ≠ (s.keys j).seq + 1 := by
        have := h.behind t j
        omega
      simp [Tsd.value, State.setKey, hne]
    · rw [if_neg hj] at hex
      rw [value_setKey_of_ne s t _ hj, h.value t j hex]
      simp [hj]

lemma Stands.delete (h : Stands s m) (hex : Exists s key)
    (hnowrap : (s.keys key).seq + 1 < 2 ^ 32) :
    Stands (s.setKey key { s.keys key with seq := (s.keys key).seq + 1 })
      { m with live := Function.update m.live key false } where
  live j := by
    rw [exists_setKey]
    by_cases hj : j = key
    · subst hj
      have hodd := hex.2
      simp
      intro _
      omega
    · simpa [hj] using h.live j
  fits j := h.fits_setKey hnowrap j
  behind t j := h.behind_setKey (Nat.le_succ _) t j
  value t j hexj := by
    rw [exists_setKey] at hexj
    by_cases hj : j = key
    · rw [if_pos hj] at hexj
      have hodd := hex.2
      have heven := hexj.2
      dsimp only at heven
      omega
    · rw [if_neg hj] at hexj
      rw [value_setKey_of_ne s t _ hj]
      exact h.value t j hexj

variable [DecidableEq T]

/-! ### Storing an entry -/

lemma datum_setThread (s : State T) (t t' : T) (th : Thread) (j : ℕ) :
    ((s.setThread t th).threads t').datum j =
      if t' = t then th.datum j else (s.threads t').datum j := by
  by_cases h : t' = t
  · subst h
    simp [State.setThread]
  · simp [State.setThread, h]

lemma datum_store (s : State T) (t t' : T) (used : Bool) (key j : ℕ) (d : Datum) :
    ((s.setThread t ({ s.threads t with used := used }.setEntry (key / secondLevel)
        (key % secondLevel) d)).threads t').datum j =
      if t' = t ∧ j = key then d else (s.threads t').datum j := by
  rw [datum_setThread, datum_setEntry]
  by_cases ht : t' = t
  · subst ht
    by_cases hj : j = key
    · simp [hj]
    · simp [hj]
      rfl
  · simp [ht]

lemma Stored.store (h : Stored exiting s) (t : T) (key : ℕ) (used : Bool) (d : Datum)
    (hodd : d.data ≠ 0 → d.seq % 2 = 1) (hused : d.data ≠ 0 → used = true)
    (hkeep : (s.threads t).used = true → used = true) :
    Stored exiting (s.setThread t ({ s.threads t with used := used }.setEntry (key / secondLevel)
      (key % secondLevel) d)) := by
  constructor
  · intro t' j hdata
    rw [datum_store] at hdata ⊢
    by_cases hj : t' = t ∧ j = key
    · rw [if_pos hj] at hdata ⊢
      exact hodd hdata
    · rw [if_neg hj] at hdata ⊢
      exact h.odd t' j hdata
  · intro t' j hstays hdata
    rw [datum_store] at hdata
    have hbefore : t' = t ∧ j = key ∨ (s.threads t').used = true := by
      by_cases hj : t' = t ∧ j = key
      · exact .inl hj
      · rw [if_neg hj] at hdata
        exact .inr (h.used t' j hstays hdata)
    by_cases ht : t' = t
    · subst ht
      simp [State.setThread, setEntry_used]
      by_cases hj : j = key
      · rw [if_pos ⟨rfl, hj⟩] at hdata
        exact hused hdata
      · exact hkeep (hbefore.resolve_left fun h => hj h.2)
    · simp only [State.setThread, Function.update_of_ne ht]
      exact hbefore.resolve_left fun h => ht h.1

lemma setEntry_eq_store (s : State T) (t : T) (cnt inner : ℕ) (d : Datum) :
    s.setEntry t cnt inner d =
      s.setThread t ({ s.threads t with used := (s.threads t).used }.setEntry cnt inner d) := rfl

lemma Stored.clear (h : Stored exiting s) (t : T) (key n : ℕ) :
    Stored exiting (s.setEntry t (key / secondLevel) (key % secondLevel) ⟨n, 0⟩) := by
  exact h.store t key _ ⟨n, 0⟩ (fun h => absurd rfl h) (fun h => absurd rfl h) id

lemma Stored.perform (h : Stored exiting s) (w : ℕ) (call : Call T) :
    Stored exiting (call.perform w s).1 := by
  cases call with
  | create destr =>
    obtain hnone | ⟨key, -, -, -, hsome⟩ := keyCreate_cases w destr s
    · simpa [Call.perform, hnone] using h
    · simpa [Call.perform, hsome] using h.setKey key _
  | delete key =>
    simp [Call.perform, keyDelete]
    split_ifs
    · exact h
    · exact h.setKey key _
    · exact h
    · exact h
  | set t key v =>
    obtain ⟨-, he⟩ | ⟨-, -, -, he⟩ | ⟨hex, used, hv, hu, he⟩ := setspecific_cases t key v s
    · simpa [Call.perform, he] using h
    · simpa [Call.perform, he] using h
    · simp [Call.perform, he]
      apply h.store t key used ⟨unsignedInt (s.keys key).seq, v⟩ _ hv hu
      intro _
      rw [unsignedInt_odd]
      exact hex.2
  | get t key =>
    by_cases hkey : key < keysMax
    · obtain ⟨-, he | ⟨-, he⟩⟩ := getspecific_cases t key s hkey
      · simpa [Call.perform, he] using h
      · simpa [Call.perform, he] using h.clear t key _
    · simpa [Call.perform, getspecific_beyond t s (Nat.not_lt.mp hkey)] using h

lemma Stored.run (h : Stored exiting s) (w : ℕ) (calls : List (Call T)) :
    Stored exiting (Tsd.perform w s calls).1 := by
  induction calls generalizing s with
  | nil => exact h
  | cons call calls ih => exact ih (h.perform w call)

/-! ### Following the map -/

lemma Stands.store (h : Stands s m) (t : T) (key : ℕ) (used : Bool)
    (d : Datum) (hbehind : d.seq ≤ (s.keys key).seq) (v : ℕ)
    (hv : Exists s key → (if d.seq = (s.keys key).seq then d.data else 0) = v) :
    Stands (s.setThread t ({ s.threads t with used := used }.setEntry (key / secondLevel)
        (key % secondLevel) d))
      { m with value := Function.update m.value t (Function.update (m.value t) key v) } where
  live := h.live
  fits := h.fits
  behind t' j := by
    rw [datum_store]
    split_ifs with hj
    · rwa [hj.2]
    · exact h.behind t' j
  value t' j hex := by
    simp only [Tsd.value, datum_store]
    by_cases ht : t' = t
    · subst ht
      by_cases hj : j = key
      · subst hj
        simpa using hv hex
      · have := h.value t' j hex
        simpa [Tsd.value, hj] using this
    · have := h.value t' j hex
      simpa [Tsd.value, ht] using this

lemma Map.set_same (m : Map T) (t : T) (key : ℕ) :
    { m with value := Function.update m.value t (Function.update (m.value t) key (m.value t key)) }
      = m := by
  simp

lemma Stands.get (h : Stands s m) (t : T) (key : ℕ) : Stands (getspecific t key s).1 m := by
  by_cases hkey : key < keysMax
  · obtain ⟨-, he | ⟨hstale, he⟩⟩ := getspecific_cases t key s hkey
    · rwa [he]
    have hstore := h.store t key (s.threads t).used ⟨((s.threads t).datum key).seq, 0⟩
      (h.behind t key) (m.value t key) (by
        intro hex
        rw [if_neg hstale, ← h.value t key hex, Tsd.value, if_neg hstale])
    rw [Map.set_same] at hstore
    rwa [he, setEntry_eq_store]
  · rwa [getspecific_beyond t s (Nat.not_lt.mp hkey)]

theorem Stands.perform (h : Stands s m) (hw : 32 ≤ w) (call : Call T)
    (hnowrap : ∀ key, call = .delete key → Exists s key → (s.keys key).seq + 1 < 2 ^ 32) :
    ∃ m', m.next call (call.perform w s).2 = some m' ∧ Stands (call.perform w s).1 m' := by
  cases call with
  | create destr =>
    obtain hnone | ⟨key, hkey, heven, -, hsome⟩ := keyCreate_cases w destr s
    · exact ⟨m, by simp [Call.perform, hnone, Map.next], by simpa [Call.perform, hnone] using h⟩
    have hlive : m.live key = false := by
      rw [← Bool.not_eq_true, h.live]
      intro hex
      have := hex.2
      omega
    have hmod : ((s.keys key).seq + 1) % 2 ^ w = (s.keys key).seq + 1 := by
      apply Nat.mod_eq_of_lt
      have hle : 2 ^ 32 ≤ 2 ^ w := Nat.pow_le_pow_right (by omega) hw
      have := h.fits key
      omega
    simp [Call.perform, hsome, hmod]
    exact ⟨_, by simp [Map.next, hlive], h.create hkey heven destr⟩
  | delete key =>
    simp only [Call.perform, keyDelete_eq key s (h.fits key)]
    by_cases hex : Exists s key
    · have hgrow := hnowrap key rfl hex
      have hmod : unsignedInt ((s.keys key).seq + 1) = (s.keys key).seq + 1 :=
        Nat.mod_eq_of_lt hgrow
      simp [hex, hmod]
      exact ⟨_, by simp [Map.next, (h.live key).mpr hex], h.delete hex hgrow⟩
    have hlive : m.live key = false := by
      rwa [← Bool.not_eq_true, h.live]
    simpa [hex, id_eq] using ⟨m, by simp [Map.next, hlive], h⟩
  | set t key v =>
    obtain ⟨hex, he⟩ | ⟨hex, hv, hzero, he⟩ | ⟨hex, used, -, -, he⟩ := setspecific_cases t key v s
    · have hlive : m.live key = false := by
        rwa [← Bool.not_eq_true, h.live]
      simp [Call.perform, he]
      exact ⟨m, by simp [Map.next, hlive], h⟩
    · have hsame : m.value t key = v := by
        rw [← h.value t key hex, hv]
        simp [Tsd.value, hzero, Datum.zero]
      simp [Call.perform, he]
      refine ⟨m, ?_, h⟩
      simp [Map.next, (h.live key).mpr hex, ← hsame]
    · have hmod : unsignedInt (s.keys key).seq = (s.keys key).seq := Nat.mod_eq_of_lt (h.fits key)
      simp [Call.perform, he]
      refine ⟨_, by simp [Map.next, (h.live key).mpr hex]; rfl, ?_⟩
      apply h.store t key used
      · exact hmod.le
      · intro _
        simp [hmod]
  | get t key =>
    by_cases hex : Exists s key
    · have hanswer := getspecific_value t key s hex.1
      refine ⟨m, ?_, h.get t key⟩
      simp [Call.perform, Map.next, hanswer, h.value t key hex]
    have hlive : m.live key = false := by
      rwa [← Bool.not_eq_true, h.live]
    exact ⟨m, by simp [Call.perform, Map.next, hlive], h.get t key⟩

/-! ## Runs in which no number wraps -/

/-- How often a run of calls deletes an existing key. -/
def deletions (w key : ℕ) : State T → List (Call T) → ℕ
  | _, [] => 0
  | s, call :: calls =>
    (if call = .delete key ∧ Exists s key then 1 else 0) + deletions w key (call.perform w s).1 calls

/-- The calls to come cannot wrap the key's number: the table's type is an `unsigned int`
too, and `KEY_USABLE` gives up the slot, or too few deletions are left. -/
def Bounded (w : ℕ) (s : State T) (calls : List (Call T)) : Prop :=
  w = 32 ∧ (∀ key, (s.keys key).seq + 1 < 2 ^ 32) ∨
    ∀ key, (s.keys key).seq - (s.keys key).seq % 2 + 2 * deletions w key s calls < 2 ^ 32

lemma Bounded.nowrap {w : ℕ} {s : State T} {call : Call T} {calls : List (Call T)}
    (h : Bounded w s (call :: calls)) (key : ℕ) (hcall : call = .delete key) (hex : Exists s key) :
    (s.keys key).seq + 1 < 2 ^ 32 := by
  obtain ⟨-, h⟩ | h := h
  · exact h key
  have hkey := h key
  rw [deletions, if_pos ⟨hcall, hex⟩] at hkey
  omega

lemma perform_seq (w : ℕ) (call : Call T) (hfits : ∀ key, (s.keys key).seq < 2 ^ 32) (key : ℕ) :
    ((call.perform w s).1.keys key).seq = (s.keys key).seq ∨
    (((s.keys key).seq % 2 = 0 ∧ (s.keys key).seq < ((s.keys key).seq + 2) % 2 ^ w ∧
      ((call.perform w s).1.keys key).seq = ((s.keys key).seq + 1) % 2 ^ w)) ∨
    (call = .delete key ∧ Exists s key ∧
      ((call.perform w s).1.keys key).seq = unsignedInt ((s.keys key).seq + 1)) := by
  cases call with
  | create destr =>
    obtain hnone | ⟨j, -, heven, husable, hsome⟩ := keyCreate_cases w destr s
    · simp [Call.perform, hnone]
    by_cases hj : key = j
    · subst hj
      right
      left
      exact ⟨heven, husable, by simp [Call.perform, hsome, State.setKey]⟩
    · simp [Call.perform, hsome, State.setKey, hj]
  | delete j =>
    simp only [Call.perform, keyDelete_eq j s (hfits j)]
    by_cases hex : Exists s j
    · by_cases hj : key = j
      · subst hj
        simp [hex, State.setKey]
      · simp [hex, State.setKey, hj]
    · simp [hex]
  | set t j v =>
    left
    obtain ⟨-, he⟩ | ⟨-, -, -, he⟩ | ⟨-, used, -, -, he⟩ := setspecific_cases t j v s <;>
      simp [Call.perform, he]
  | get t j =>
    left
    by_cases hj : j < keysMax
    · obtain ⟨-, he | ⟨-, he⟩⟩ := getspecific_cases t j s hj <;> simp [Call.perform, he]
    · simp [Call.perform, getspecific_beyond t s (Nat.not_lt.mp hj)]

lemma Bounded.step {w : ℕ} {s : State T} {call : Call T} {calls : List (Call T)}
    (h : Bounded w s (call :: calls)) (hw : 32 ≤ w) (hfits : ∀ key, (s.keys key).seq < 2 ^ 32) :
    Bounded w (call.perform w s).1 calls := by
  have hle : 2 ^ 32 ≤ 2 ^ w := Nat.pow_le_pow_right (by omega) hw
  obtain ⟨rfl, h⟩ | h := h
  · left
    refine ⟨rfl, fun key => ?_⟩
    have hkey := h key
    obtain he | ⟨-, husable, he⟩ | ⟨-, ⟨-, hodd⟩, he⟩ := perform_seq 32 call hfits key
    · omega
    · omega
    · simp only [unsignedInt] at he
      omega
  right
  intro key
  have hkey := h key
  rw [deletions] at hkey
  obtain he | ⟨heven, -, he⟩ | ⟨hcall, hex, he⟩ := perform_seq w call hfits key
  · omega
  · have hmod : ((s.keys key).seq + 1) % 2 ^ w = (s.keys key).seq + 1 := by
      apply Nat.mod_eq_of_lt
      omega
    omega
  · have hodd := hex.2
    rw [if_pos ⟨hcall, hex⟩] at hkey
    simp only [unsignedInt] at he
    omega

lemma Stands.run {w : ℕ} (hw : 32 ≤ w) (calls : List (Call T)) {s : State T} {m : Map T}
    (h : Stands s m) (hbound : Bounded w s calls) :
    ∃ m', m.follow calls (Tsd.perform w s calls).2 = some m' ∧
      Stands (Tsd.perform w s calls).1 m' := by
  induction calls generalizing s m with
  | nil => exact ⟨m, rfl, h⟩
  | cons call calls ih =>
    obtain ⟨m', hnext, hstep⟩ := h.perform hw call hbound.nowrap
    obtain ⟨m'', hfollow, hend⟩ := ih hstep (hbound.step hw h.fits)
    refine ⟨m'', ?_, hend⟩
    simp [Map.follow, Tsd.perform, hnext, hfollow]

end Eglibc.Tsd
