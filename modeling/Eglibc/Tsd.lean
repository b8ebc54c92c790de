import Mathlib.Data.List.Basic
import Mathlib.Data.List.Range
import Mathlib.Logic.Function.Basic
import Mathlib.Tactic

/-!
# Thread-specific data

A slot of `__pthread_keys` is in use when its sequence number is odd. The numbers are
`uintptr_t`, of `w` bits, but `pthread_key_delete` and `__pthread_setspecific` copy them
into an `unsigned int`.
-/

namespace Eglibc.Tsd

/-! ## The key table and the threads' blocks -/

def keysMax : ℕ := 1024

def secondLevel : ℕ := 32

def firstLevel : ℕ := (keysMax + secondLevel - 1) / secondLevel

def destructorIterations : ℕ := 4

structure Key where
  seq : ℕ
  destr : Option ℕ
  deriving DecidableEq

structure Datum where
  seq : ℕ
  data : ℕ
  deriving DecidableEq

def Datum.zero : Datum := ⟨0, 0⟩

structure Thread where
  used : Bool
  firstBlock : ℕ → Datum
  specific : ℕ → Option (ℕ → Datum)

structure State (T : Type) where
  keys : ℕ → Key
  threads : T → Thread

def Thread.start : Thread := ⟨false, fun _ => .zero, fun _ => none⟩

def State.start {T : Type} : State T := ⟨fun _ => ⟨0, none⟩, fun _ => .start⟩

/-- The pointer `specific[cnt]`; its first element is the thread's own block. -/
def Thread.block (th : Thread) (cnt : ℕ) : Option (ℕ → Datum) :=
  if cnt = 0 then some th.firstBlock else th.specific cnt

def Thread.entry (th : Thread) (cnt inner : ℕ) : Datum :=
  match th.block cnt with
  | none => .zero
  | some block => block inner

/-- Stores an entry, in a block that `calloc` has cleared if there was none. -/
def Thread.setEntry (th : Thread) (cnt inner : ℕ) (d : Datum) : Thread :=
  let block := Function.update ((th.block cnt).getD fun _ => .zero) inner d
  if cnt = 0 then { th with firstBlock := block }
  else { th with specific := Function.update th.specific cnt (some block) }

def Thread.datum (th : Thread) (key : ℕ) : Datum :=
  th.entry (key / secondLevel) (key % secondLevel)

variable {T : Type} [DecidableEq T]

def State.setThread (s : State T) (t : T) (th : Thread) : State T :=
  { s with threads := Function.update s.threads t th }

def State.setEntry (s : State T) (t : T) (cnt inner : ℕ) (d : Datum) : State T :=
  s.setThread t ((s.threads t).setEntry cnt inner d)

def State.setKey (s : State T) (key : ℕ) (k : Key) : State T :=
  { s with keys := Function.update s.keys key k }

/-! ## The calls -/

def keyUnused (seq : ℕ) : Bool := seq % 2 = 0

def keyUsable (w seq : ℕ) : Bool := seq < (seq + 2) % 2 ^ w

/-- The value of a `uintptr_t` after it is assigned to an `unsigned int`. -/
def unsignedInt (n : ℕ) : ℕ := n % 2 ^ 32

inductive Result
  | ok
  | einval
  deriving DecidableEq

def keyCreate (w : ℕ) (destr : Option ℕ) (s : State T) : State T × Option ℕ :=
  match (List.range keysMax).find? fun cnt =>
      keyUnused (s.keys cnt).seq && keyUsable w (s.keys cnt).seq with
  | none => (s, none)
  | some cnt => (s.setKey cnt ⟨((s.keys cnt).seq + 1) % 2 ^ w, destr⟩, some cnt)

def keyDelete (key : ℕ) (s : State T) : State T × Result :=
  if key < keysMax then
    let seq := unsignedInt (s.keys key).seq
    if keyUnused seq then (s, .einval)
    -- the exchange compares the whole number of the table with the copy
    else if (s.keys key).seq = seq then
      (s.setKey key { s.keys key with seq := unsignedInt (seq + 1) }, .ok)
    else (s, .einval)
  else (s, .einval)

def setspecific (t : T) (key value : ℕ) (s : State T) : State T × Result :=
  let th := s.threads t
  let seq := unsignedInt (s.keys key).seq
  if key < secondLevel then
    if keyUnused seq then (s, .einval)
    else
      (s.setThread t
        ({ th with used := th.used || value != 0 }.setEntry 0 key ⟨seq, value⟩), .ok)
  else if keysMax ≤ key || keyUnused seq then (s, .einval)
  else
    let idx1st := key / secondLevel
    let idx2nd := key % secondLevel
    match th.block idx1st, value with
    | none, 0 => (s, .ok)
    | _, value => (s.setThread t ({ th with used := true }.setEntry idx1st idx2nd ⟨seq, value⟩), .ok)

/-- The common end of `__pthread_getspecific`, on the entry it has found. -/
def currentData (t : T) (key cnt inner : ℕ) (s : State T) : State T × ℕ :=
  let d := (s.threads t).entry cnt inner
  if d.data ≠ 0 ∧ d.seq ≠ (s.keys key).seq then (s.setEntry t cnt inner { d with data := 0 }, 0)
  else (s, d.data)

def getspecific (t : T) (key : ℕ) (s : State T) : State T × ℕ :=
  if key < secondLevel then currentData t key 0 key s
  else if keysMax ≤ key then (s, 0)
  else
    match (s.threads t).block (key / secondLevel) with
    | none => (s, 0)
    | some _ => currentData t key (key / secondLevel) (key % secondLevel) s

inductive Call (T : Type)
  | create (destr : Option ℕ)
  | delete (key : ℕ)
  | set (t : T) (key value : ℕ)
  | get (t : T) (key : ℕ)
  deriving DecidableEq

inductive Answer
  | created (key : Option ℕ)
  | code (result : Result)
  | value (data : ℕ)
  deriving DecidableEq

def Call.perform (w : ℕ) (s : State T) : Call T → State T × Answer
  | .create destr => (keyCreate w destr s).map id .created
  | .delete key => (keyDelete key s).map id .code
  | .set t key value => (setspecific t key value s).map id .code
  | .get t key => (getspecific t key s).map id .value

def perform (w : ℕ) : State T → List (Call T) → State T × List Answer
  | s, [] => (s, [])
  | s, call :: calls =>
    let (s', answer) := call.perform w s
    let (s'', answers) := perform w s' calls
    (s'', answer :: answers)

/-! ## Destructors at thread exit -/

structure Invocation (T : Type) where
  key : ℕ
  destr : ℕ
  data : ℕ
  state : State T

/-- What runs while a destructor is active: any calls, of this or of other
threads. -/
abbrev Behaviour (T : Type) := ℕ → ℕ → State T → List (Call T)

structure Pass (T : Type) where
  idx : ℕ
  state : State T
  calls : List (Invocation T)

def Pass.due (t : T) (cnt inner : ℕ) (r : Pass T) : Option (Invocation T) :=
  let d := (r.state.threads t).entry cnt inner
  let cleared := r.state.setEntry t cnt inner { d with data := 0 }
  if d.seq = (r.state.keys r.idx).seq then
    (r.state.keys r.idx).destr.map fun destr => ⟨r.idx, destr, d.data, cleared⟩
  else none

def visit (w : ℕ) (env : Behaviour T) (t : T) (cnt : ℕ) (r : Pass T) (inner : ℕ) : Pass T :=
  let d := (r.state.threads t).entry cnt inner
  if d.data ≠ 0 then
    let cleared := r.state.setEntry t cnt inner { d with data := 0 }
    match r.due t cnt inner with
    | some call =>
      ⟨r.idx + 1, (perform w cleared (env call.destr call.data cleared)).1, r.calls ++ [call]⟩
    | none => ⟨r.idx + 1, cleared, r.calls⟩
  else { r with idx := r.idx + 1 }

def visitBlock (w : ℕ) (env : Behaviour T) (t : T) (r : Pass T) (cnt : ℕ) : Pass T :=
  match (r.state.threads t).block cnt with
  | some _ => (List.range secondLevel).foldl (visit w env t cnt) r
  -- the source advances by the size of the first level here
  | none => { r with idx := r.idx + firstLevel }

def State.setUsed (s : State T) (t : T) (used : Bool) : State T :=
  s.setThread t { s.threads t with used := used }

@[irreducible] def round (w : ℕ) (env : Behaviour T) (t : T) (s : State T) : Pass T :=
  (List.range firstLevel).foldl (visitBlock w env t) ⟨0, s.setUsed t false, []⟩

structure Ran (T : Type) where
  start : State T
  calls : List (Invocation T)

/-- The next round and the ones after it, of which `left` are allowed: another
one is run only if this one's destructors stored a value. -/
def rounds (w : ℕ) (env : Behaviour T) (t : T) : ℕ → State T → State T × List (Ran T)
  | left, s =>
    let r := round w env t s
    let ran : Ran T := ⟨s, r.calls⟩
    if (r.state.threads t).used then
      match left with
      | 0 =>
        let th := r.state.threads t
        (r.state.setThread t { th with firstBlock := fun _ => .zero }, [ran])
      | left + 1 =>
        let (s', more) := rounds w env t left r.state
        (s', ran :: more)
    else (r.state, [ran])

def deallocateTsd (w : ℕ) (env : Behaviour T) (t : T) (s : State T) : State T × List (Ran T) :=
  if (s.threads t).used then
    let (s', ran) := rounds w env t (destructorIterations - 1) s
    let th := s'.threads t
    (s'.setThread t { th with specific := fun _ => none, used := false }, ran)
  else (s, [])

/-! ## Entries -/

variable (s : State T) (t : T) (th : Thread)

@[simp] lemma setThread_keys : (s.setThread t th).keys = s.keys :=
  rfl

variable (cnt inner : ℕ) (d : Datum)

@[simp] lemma setEntry_keys : (s.setEntry t cnt inner d).keys = s.keys := rfl

variable (key : ℕ)

lemma entry_setEntry (cnt' inner' : ℕ) (d : Datum) : (th.setEntry cnt inner d).entry cnt' inner' =
      if cnt' = cnt ∧ inner' = inner then d else th.entry cnt' inner' := by
  by_cases hc : cnt' = cnt
  · subst hc
    have hblock : (th.setEntry cnt' inner d).block cnt' =
        some (Function.update ((th.block cnt').getD fun _ => .zero) inner d) := by
      by_cases h0 : cnt' = 0 <;> simp [Thread.setEntry, Thread.block, h0]
    by_cases hi : inner' = inner
    · simp [Thread.entry, hblock, hi]
    · cases hb : th.block cnt' <;> simp [Thread.entry, hblock, hi, hb]
  have hblock : (th.setEntry cnt inner d).block cnt' = th.block cnt' := by
    by_cases h0 : cnt = 0
    · subst h0
      simp [Thread.setEntry, Thread.block, hc]
    · simp [Thread.setEntry, Thread.block, h0, Function.update_of_ne hc]
  simp [Thread.entry, hblock, hc]

@[simp] lemma setEntry_used : (th.setEntry cnt inner d).used = th.used := by
  by_cases h0 : cnt = 0 <;> simp [Thread.setEntry, h0]

lemma entry_of_block_none {th : Thread} {cnt : ℕ} (h : th.block cnt = none) (inner : ℕ) :
    th.entry cnt inner = .zero := by
  simp [Thread.entry, h]

variable (j : ℕ)

lemma key_eq_iff (key : ℕ) :
    j / secondLevel = key / secondLevel ∧ j % secondLevel = key % secondLevel ↔ j = key := by
  unfold secondLevel
  omega

lemma datum_setEntry (d : Datum) : (th.setEntry (key / secondLevel) (key % secondLevel) d).datum j =
      if j = key then d else th.datum j := by
  simp only [Thread.datum, entry_setEntry, key_eq_iff]

/-- What a thread's entry for a key is worth: its value if it was stored under
the number the key has now. -/
def value (s : State T) (t : T) (key : ℕ) : ℕ :=
  if ((s.threads t).datum key).seq = (s.keys key).seq then ((s.threads t).datum key).data else 0

/-! ## What each call does -/

lemma first_block {key : ℕ} (h : key < secondLevel) :
    key / secondLevel = 0 ∧ key % secondLevel = key :=
  ⟨Nat.div_eq_of_lt h, Nat.mod_eq_of_lt h⟩

lemma currentData_eq (s : State T) : currentData t key (key / secondLevel) (key % secondLevel) s =
      (if ((s.threads t).datum key).data ≠ 0 ∧ ((s.threads t).datum key).seq ≠ (s.keys key).seq then
        s.setEntry t (key / secondLevel) (key % secondLevel)
          ⟨((s.threads t).datum key).seq, 0⟩
      else s, value s t key) := by
  unfold currentData value
  by_cases hd : ((s.threads t).datum key).data = 0
  · have hd' : ((s.threads t).entry (key / secondLevel) (key % secondLevel)).data = 0 := hd
    simp [hd, hd']
  have hd' : ((s.threads t).entry (key / secondLevel) (key % secondLevel)).data ≠ 0 := hd
  by_cases hs : ((s.threads t).datum key).seq = (s.keys key).seq
  · have hs' : ((s.threads t).entry (key / secondLevel) (key % secondLevel)).seq =
      (s.keys key).seq := hs
    simp [hs', Thread.datum]
  have hs' : ((s.threads t).entry (key / secondLevel) (key % secondLevel)).seq ≠
    (s.keys key).seq := hs
  rw [if_pos ⟨hd', hs'⟩, if_pos ⟨hd, hs⟩, if_neg hs]
  rfl

lemma getspecific_cases (s : State T) (hkey : key < keysMax) :
    (getspecific t key s).2 = value s t key ∧
      ((getspecific t key s).1 = s ∨
        ((s.threads t).datum key).seq ≠ (s.keys key).seq ∧
        (getspecific t key s).1 = s.setEntry t (key / secondLevel) (key % secondLevel)
          ⟨((s.threads t).datum key).seq, 0⟩) := by
  have hend : ∀ r : State T × ℕ,
      r = currentData t key (key / secondLevel) (key % secondLevel) s →
      r.2 = value s t key ∧ (r.1 = s ∨
        ((s.threads t).datum key).seq ≠ (s.keys key).seq ∧
        r.1 = s.setEntry t (key / secondLevel) (key % secondLevel)
          ⟨((s.threads t).datum key).seq, 0⟩) := by
    intro r hr
    rw [hr, currentData_eq]
    split_ifs with hstale
    · exact ⟨rfl, .inr ⟨hstale.2, rfl⟩⟩
    · exact ⟨rfl, .inl rfl⟩
  unfold getspecific
  by_cases hfirst : key < secondLevel
  · rw [if_pos hfirst]
    apply hend
    rw [(first_block hfirst).1, (first_block hfirst).2]
  rw [if_neg hfirst, if_neg (Nat.not_le.mpr hkey)]
  cases hb : (s.threads t).block (key / secondLevel) with
  | none =>
    have hzero : (s.threads t).datum key = .zero := entry_of_block_none hb _
    refine ⟨?_, .inl rfl⟩
    simp [value, hzero, Datum.zero]
  | some block => exact hend _ rfl

lemma getspecific_value (s : State T) (hkey : key < keysMax) :
    (getspecific t key s).2 = value s t key :=
  (getspecific_cases t key s hkey).1

lemma getspecific_beyond {key : ℕ} (s : State T) (hkey : keysMax ≤ key) :
    getspecific t key s = (s, 0) := by
  have hfirst : ¬ key < secondLevel := by
    unfold keysMax at hkey
    unfold secondLevel
    omega
  simp [getspecific, hfirst, hkey]

lemma unsignedInt_odd (n : ℕ) : unsignedInt n % 2 = n % 2 := by
  unfold unsignedInt
  omega

def Exists (s : State T) (key : ℕ) : Prop := key < keysMax ∧ (s.keys key).seq % 2 = 1

instance (s : State T) (key : ℕ) : Decidable (Exists s key) :=
  inferInstanceAs (Decidable (_ ∧ _))

omit [DecidableEq T] in
lemma keyUnused_unsignedInt {key : ℕ} (hkey : key < keysMax) :
    keyUnused (unsignedInt (s.keys key).seq) = true ↔ ¬ Exists s key := by
  simp only [keyUnused, unsignedInt_odd, Exists, decide_eq_true_eq]
  omega

lemma setspecific_cases (v : ℕ) (s : State T) :
    (¬ Exists s key ∧ setspecific t key v s = (s, .einval)) ∨
    (Exists s key ∧ v = 0 ∧ (s.threads t).datum key = .zero ∧
      setspecific t key v s = (s, .ok)) ∨
    (Exists s key ∧ ∃ used, (v ≠ 0 → used = true) ∧ ((s.threads t).used = true → used = true) ∧
      setspecific t key v s =
        (s.setThread t ({ s.threads t with used := used }.setEntry (key / secondLevel)
          (key % secondLevel) ⟨unsignedInt (s.keys key).seq, v⟩), .ok)) := by
  unfold setspecific
  by_cases hkey : key < keysMax
  · by_cases hex : Exists s key
    · have hused : ¬ keyUnused (unsignedInt (s.keys key).seq) = true :=
        fun h => (keyUnused_unsignedInt s hkey).mp h hex
      right
      by_cases hfirst : key < secondLevel
      · right
        refine ⟨hex, (s.threads t).used || v != 0, ?_, ?_, ?_⟩
        · intro hv
          simp [hv]
        · intro hu
          simp [hu]
        · simp [hfirst, hused, (first_block hfirst).1, (first_block hfirst).2]
      have hcond : ¬ (decide (keysMax ≤ key) || keyUnused (unsignedInt (s.keys key).seq)) = true := by
        simp [Nat.not_le.mpr hkey, hused]
      simp only [if_neg hfirst, if_neg hcond]
      cases hb : (s.threads t).block (key / secondLevel) with
      | none =>
        cases v with
        | zero => exact .inl ⟨hex, rfl, entry_of_block_none hb _, rfl⟩
        | succ v => exact .inr ⟨hex, true, fun _ => rfl, fun _ => rfl, rfl⟩
      | some block => exact .inr ⟨hex, true, fun _ => rfl, fun _ => rfl, rfl⟩
    have hunused := (keyUnused_unsignedInt s hkey).mpr hex
    left
    refine ⟨hex, ?_⟩
    simp [hunused]
  have hex : ¬ Exists s key := fun h => hkey h.1
  have hfirst : ¬ key < secondLevel := by
    unfold keysMax at hkey
    unfold secondLevel
    omega
  left
  refine ⟨hex, ?_⟩
  simp [hfirst, Nat.not_lt.mp hkey]

omit [DecidableEq T] in
lemma keyCreate_cases (w : ℕ) (destr : Option ℕ) (s : State T) : keyCreate w destr s = (s, none) ∨
    ∃ key, key < keysMax ∧ (s.keys key).seq % 2 = 0 ∧
      (s.keys key).seq < ((s.keys key).seq + 2) % 2 ^ w ∧
      keyCreate w destr s =
        (s.setKey key ⟨((s.keys key).seq + 1) % 2 ^ w, destr⟩, some key) := by
  unfold keyCreate
  cases hfind : (List.range keysMax).find? fun cnt =>
      keyUnused (s.keys cnt).seq && keyUsable w (s.keys cnt).seq with
  | none => exact .inl rfl
  | some key =>
    right
    have hmem := List.mem_of_find?_eq_some hfind
    have htest := List.find?_some hfind
    simp only [keyUnused, keyUsable, Bool.and_eq_true, decide_eq_true_eq] at htest
    exact ⟨key, List.mem_range.mp hmem, htest.1, htest.2, rfl⟩

omit [DecidableEq T] in
lemma keyDelete_eq (s : State T) (hfits : (s.keys key).seq < 2 ^ 32) : keyDelete key s =
      if Exists s key then
        (s.setKey key { s.keys key with seq := unsignedInt ((s.keys key).seq + 1) }, .ok)
      else (s, .einval) := by
  have hsame : unsignedInt (s.keys key).seq = (s.keys key).seq := Nat.mod_eq_of_lt hfits
  unfold keyDelete
  by_cases hkey : key < keysMax
  · have hunused := keyUnused_unsignedInt s hkey
    by_cases hex : Exists s key
    · have hused : ¬ keyUnused (s.keys key).seq = true := by
        intro h
        rw [hsame] at hunused
        exact hunused.mp h hex
      simp [hkey, hsame, hused, hex]
    · rw [if_pos hkey, if_neg hex]
      simp [hunused.mpr hex]
  · have hex : ¬ Exists s key := fun h => hkey h.1
    simp [hkey, hex]

end Eglibc.Tsd
