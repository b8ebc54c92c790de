import Eglibc.Threads

/-!
# The internal lock of a condition variable

`pthread_cond_wait` with its cancellation handler, `pthread_cond_signal` and
`pthread_cond_broadcast` on one condition variable. The user's mutex enters by its kind
only. A futex wait may return at any time.
-/
namespace Eglibc.Condvar
open Threads

/-- The kind of a mutex: process-shared, or of the priority-inheriting kind that is not
robust. -/
structure Mutex where
  pshared : Bool
  pi : Bool
  deriving DecidableEq

/-- `cond->__data.__mutex`: `~0` for a process-shared variable, null before the first wait. -/
inductive CondMutex
  | shared
  | unset
  | mutex (m : Mutex)

structure Cond where
  lock : Bool
  totalSeq : ℕ
  wakeupSeq : ℕ
  wokenSeq : ℕ
  futex : ℕ
  broadcastSeq : ℕ
  nwaiters : ℕ
  mutex : CondMutex

/-- `unsigned long long` counters. -/
@[irreducible] def increment64 (x : ℕ) : ℕ := (x + 1) % 2 ^ 64

/-- Where a thread is. `Enter` positions wait for the internal lock, `Done` positions are
about to release it and return. -/
inductive Pc
  | out
  | waitEnter (m : Mutex)
  | waitLocked (m : Mutex)
  | waitFailed
  | waitReady (seq bcSeq : ℕ)
  | waiting (seq bcSeq : ℕ)
  | waitAgain (seq bcSeq : ℕ)
  | waitRelocked (seq bcSeq : ℕ)
  | waitDone
  | cleanupEnter (bcSeq : ℕ)
  | cleanupLocked (bcSeq : ℕ)
  | cleanupDone
  | signalEnter
  | signalLocked
  | signalDone
  | broadcastEnter
  | broadcastLocked
  | broadcastReady
  | broadcastUnlocked
  | broadcastDone
  deriving DecidableEq

/-- What a thread does with the internal lock. -/
inductive Op
  | acquire
  | release
  | ret
  deriving DecidableEq

/-- `lll_lock`, if the lock is free. -/
def acquire (c : Cond) (pc pc' : Pc) : Pc × Cond × List Op :=
  if c.lock then (pc, c, []) else (pc', { c with lock := true }, [.acquire])

def release (c : Cond) : Cond := { c with lock := false }

/-- `pthread_cond_wait` up to its loop, once the mutex has been unlocked. -/
def enqueue (c : Cond) (m : Mutex) : Cond :=
  { c with
    totalSeq := increment64 c.totalSeq
    futex := increment c.futex
    nwaiters := increment (increment c.nwaiters)
    mutex := match c.mutex with
      | .shared => .shared
      | _ => .mutex m }

def leave (c : Cond) : Cond := { c with nwaiters := decrement (decrement c.nwaiters) }

def cleanup (c : Cond) (bcSeq : ℕ) : Cond :=
  if bcSeq = c.broadcastSeq then
    if c.wakeupSeq < c.totalSeq then
      leave { c with
        wakeupSeq := increment64 c.wakeupSeq
        futex := increment c.futex
        wokenSeq := increment64 c.wokenSeq }
    else leave { c with wokenSeq := increment64 c.wokenSeq }
  else leave c

def markAll (c : Cond) : Cond :=
  { c with
    wakeupSeq := c.totalSeq
    wokenSeq := c.totalSeq
    futex := c.totalSeq * 2 % 2 ^ 32
    broadcastSeq := increment c.broadcastSeq }

def CondMutex.pi : CondMutex → Bool
  | mutex m => m.pi
  | _ => false

def CondMutex.noRequeue : CondMutex → Bool
  | shared => true
  | unset => false
  | mutex m => m.pshared

/-- The next move of a thread, with what it does to the internal lock, the last operation
first. `ok` and `ok'` are the outcomes of unlocking the mutex, of requeueing, and of
waking and unlocking in one operation, which may fail. -/
def advance (requeuePi : Bool) (c : Cond) (pc : Pc) (ok ok' : Bool) : Pc × Cond × List Op :=
  match pc with
  | .out => (pc, c, [])
  | .waitEnter m => acquire c pc (.waitLocked m)
  | .waitLocked m =>
    if !ok then (.waitFailed, c, [])
    else (.waitReady c.wakeupSeq c.broadcastSeq, enqueue c m, [])
  | .waitFailed => (.out, release c, [.ret, .release])
  | .waitReady seq bcSeq => (.waiting seq bcSeq, release c, [.release])
  | .waiting seq bcSeq => (.waitAgain seq bcSeq, c, [])
  | .waitAgain seq bcSeq => acquire c pc (.waitRelocked seq bcSeq)
  | .waitRelocked seq bcSeq =>
    if bcSeq ≠ c.broadcastSeq then (.waitDone, leave c, [])
    else if c.wakeupSeq = seq ∨ c.wokenSeq = c.wakeupSeq then (.waitReady seq bcSeq, c, [])
    else (.waitDone, leave { c with wokenSeq := increment64 c.wokenSeq }, [])
  | .waitDone => (.out, release c, [.ret, .release])
  | .cleanupEnter bcSeq => acquire c pc (.cleanupLocked bcSeq)
  | .cleanupLocked bcSeq => (.cleanupDone, cleanup c bcSeq, [])
  | .cleanupDone => (.out, release c, [.ret, .release])
  | .signalEnter => acquire c pc .signalLocked
  | .signalLocked =>
    if c.wakeupSeq < c.totalSeq then
      let c' := { c with wakeupSeq := increment64 c.wakeupSeq, futex := increment c.futex }
      if requeuePi && c.mutex.pi && ok then (.signalDone, c', [])
      -- `lll_futex_wake_unlock` releases the lock too
      else if ok' then (.out, release c', [.ret, .release])
      else (.signalDone, c', [])
    else (.signalDone, c, [])
  | .signalDone => (.out, release c, [.ret, .release])
  | .broadcastEnter => acquire c pc .broadcastLocked
  | .broadcastLocked =>
    if c.wakeupSeq < c.totalSeq then (.broadcastReady, markAll c, []) else (.broadcastDone, c, [])
  | .broadcastReady => (.broadcastUnlocked, release c, [.release])
  | .broadcastUnlocked =>
    if c.mutex.noRequeue || !ok then (.broadcastDone, c, []) else (.out, c, [.ret])
  | .broadcastDone => (.out, release c, [.ret, .release])

inductive Action (T : Type)
  | wait (t : T) (m : Mutex)
  | signal (t : T)
  | broadcast (t : T)
  | step (t : T) (ok ok' : Bool)
  | cancel (t : T)

structure State (T : Type) where
  cond : Cond
  pc : T → Pc
  log : List (T × Op)

section
variable {T : Type} [DecidableEq T]

def State.goto (s : State T) (t : T) (pc : Pc) : State T :=
  { s with pc := Function.update s.pc t pc }

def next (requeuePi : Bool) (s : State T) : Action T → State T
  | .wait t m =>
    match s.pc t with
    | .out => s.goto t (.waitEnter m)
    | _ => s
  | .signal t =>
    match s.pc t with
    | .out => s.goto t .signalEnter
    | _ => s
  | .broadcast t =>
    match s.pc t with
    | .out => s.goto t .broadcastEnter
    | _ => s
  | .step t ok ok' =>
    let r := advance requeuePi s.cond (s.pc t) ok ok'
    ⟨r.2.1, Function.update s.pc t r.1, r.2.2.map (t, ·) ++ s.log⟩
  | .cancel t =>
    match s.pc t with
    | .waiting _ bcSeq => s.goto t (.cleanupEnter bcSeq)
    | _ => s

def start (pshared : Bool) : State T :=
  ⟨⟨false, 0, 0, 0, 0, 0, 0, if pshared then .shared else .unset⟩, fun _ => .out, []⟩

def run (requeuePi pshared : Bool) (actions : List (Action T)) : State T :=
  actions.foldl (next requeuePi) (start pshared)

/-- A broadcast that has woken the waiters can move them to the mutex: neither is shared
between processes, and the operation succeeds. Otherwise it takes the path `wake_all`. -/
def Requeues (s : State T) : Action T → Prop
  | .step t ok _ => s.pc t = .broadcastUnlocked → s.cond.mutex.noRequeue = false ∧ ok = true
  | _ => True

instance (s : State T) : (a : Action T) → Decidable (Requeues s a)
  | .step _ _ _ => inferInstanceAs (Decidable (_ → _ ∧ _))
  | .wait _ _ | .signal _ | .broadcast _ | .cancel _ => isTrue trivial

/-- Every action of the run does so, in the state that it is taken in. -/
def AllRequeue (requeuePi : Bool) : State T → List (Action T) → Prop
  | _, [] => True
  | s, a :: actions => Requeues s a ∧ AllRequeue requeuePi (next requeuePi s a) actions

instance decidableAllRequeue (requeuePi : Bool) (s : State T) : (actions : List (Action T)) →
    Decidable (AllRequeue requeuePi s actions)
  | [] => isTrue trivial
  | a :: actions =>
    have := decidableAllRequeue requeuePi (next requeuePi s a) actions
    inferInstanceAs (Decidable (_ ∧ _))

end

def Op.weight : Op → ℤ
  | acquire => 1
  | release => -1
  | ret => 0

/-- How often a thread has acquired the lock more than released it. -/
def balance {T : Type} [DecidableEq T] (t : T) : List (T × Op) → ℤ
  | [] => 0
  | (u, op) :: log => balance t log + if u = t then op.weight else 0

def Pc.owns : Pc → Bool
  | waitLocked _ | waitFailed | waitReady .. | waitRelocked .. | waitDone | cleanupLocked _
  | cleanupDone | signalLocked | signalDone | broadcastLocked | broadcastReady | broadcastDone => true
  | _ => false

def Fits (b : ℤ) : Op → Prop
  | .acquire | .ret => b = 0
  | .release => b = 1

def Disciplined {T : Type} [DecidableEq T] : List (T × Op) → Prop
  | [] => True
  | (t, op) :: log => Fits (balance t log) op ∧ Disciplined log

section
variable {T : Type} [DecidableEq T] {s : State T} {t : T}

lemma balance_cons_self (t : T) (op : Op) (log : List (T × Op)) :
    balance t ((t, op) :: log) = balance t log + op.weight := by
  rw [balance, if_pos rfl]

lemma Disciplined.fits
    (h : Disciplined (later ++ (t, op) :: earlier)) : Fits (balance t earlier) op := by
  induction later with
  | nil => exact h.1
  | cons _ later ih => exact ih h.2

structure Inv (s : State T) : Prop where
  held : ∀ t, balance t s.log = (s.pc t).owns.toNat
  disciplined : Disciplined s.log
  locked : ∀ t, (s.pc t).owns = true → s.cond.lock = true
  alone : ∀ t u, (s.pc t).owns = true → (s.pc u).owns = true → t = u

inductive Effect (owns lock : Bool) : Bool → Bool → List Op → Prop
  | none : Effect owns lock owns lock []
  | ret (h : owns = false) : Effect owns lock owns lock [.ret]
  | acquire (h : owns = false) (hfree : lock = false) : Effect owns lock true true [.acquire]
  | release (h : owns = true) : Effect owns lock false false [.release]
  | done (h : owns = true) : Effect owns lock false false [.ret, .release]

lemma acquire_effect (c : Cond) (h : pc.owns = false) (h' : pc'.owns = true) :
    Effect pc.owns c.lock (acquire c pc pc').1.owns (acquire c pc pc').2.1.lock
      (acquire c pc pc').2.2 := by
  unfold acquire
  split_ifs with hlock
  · exact .none
  · rw [h']
    exact .acquire h (by simpa using hlock)

lemma cleanup_lock (c : Cond) (bcSeq : ℕ) : (cleanup c bcSeq).lock = c.lock := by
  unfold cleanup
  split_ifs <;> rfl

lemma advance_effect (requeuePi : Bool) (c : Cond) (pc : Pc) (ok ok' : Bool)
    (hrequeue : pc = .broadcastUnlocked → c.mutex.noRequeue = false ∧ ok = true) :
    Effect pc.owns c.lock (advance requeuePi c pc ok ok').1.owns
      (advance requeuePi c pc ok ok').2.1.lock (advance requeuePi c pc ok ok').2.2 := by
  unfold advance at *
  cases pc with
  | out | waiting seq bcSeq => exact .none
  | waitEnter m => exact acquire_effect c rfl rfl
  | waitAgain seq bcSeq => exact acquire_effect c rfl rfl
  | cleanupEnter bcSeq => exact acquire_effect c rfl rfl
  | signalEnter => exact acquire_effect c rfl rfl
  | broadcastEnter => exact acquire_effect c rfl rfl
  | waitLocked m | waitRelocked seq bcSeq | broadcastLocked =>
    dsimp only
    split_ifs <;> exact .none
  | waitFailed | waitDone | cleanupDone | signalDone | broadcastDone => exact .done rfl
  | waitReady seq bcSeq | broadcastReady => exact .release rfl
  | cleanupLocked bcSeq =>
    rw [cleanup_lock]
    exact .none
  | signalLocked =>
    dsimp only
    split_ifs
    · exact .none
    · exact .done rfl
    · exact .none
    · exact .none
  | broadcastUnlocked =>
    obtain ⟨hmutex, rfl⟩ := hrequeue rfl
    rw [hmutex]
    exact .ret rfl

lemma Inv.goto (h : Inv s) (hpc : pc.owns = (s.pc t).owns) : Inv (s.goto t pc) := by
  have howns : ∀ u, ((s.goto t pc).pc u).owns = (s.pc u).owns := by
    intro u
    by_cases hut : u = t
    · rw [hut, ← hpc]
      simp [State.goto]
    · simp [State.goto, hut]
  constructor
  · intro u
    rw [howns]
    exact h.held u
  · exact h.disciplined
  · intro u
    rw [howns]
    exact h.locked u
  · intro u v
    rw [howns, howns]
    exact h.alone u v

lemma balance_map_of_ne (hut : u ≠ t) (ops : List Op) (log : List (T × Op)) :
    balance u (ops.map (t, ·) ++ log) = balance u log := by
  induction ops with
  | nil => rfl
  | cons op ops ih =>
    simp [balance, ih, if_neg (Ne.symm hut)]

lemma Inv.step (h : Inv s) (he : Effect (s.pc t).owns s.cond.lock pc.owns c.lock ops) :
    Inv ⟨c, Function.update s.pc t pc, ops.map (t, ·) ++ s.log⟩ := by
  have hbal := h.held t
  have hself : balance t (ops.map (t, ·) ++ s.log) = pc.owns.toNat ∧
      Disciplined (ops.map (t, ·) ++ s.log) := by
    generalize pc.owns = o at he
    generalize c.lock = l at he
    cases he with
    | none => exact ⟨hbal, h.disciplined⟩
    | ret ho =>
      rw [ho] at hbal ⊢
      refine ⟨?_, hbal, h.disciplined⟩
      exact (balance_cons_self t _ s.log).trans (by rw [hbal]; rfl)
    | acquire ho hfree | release ho =>
      rw [ho] at hbal
      refine ⟨?_, hbal, h.disciplined⟩
      exact (balance_cons_self t _ s.log).trans (by rw [hbal]; rfl)
    | done ho =>
      rw [ho] at hbal
      have hzero : balance t ((t, .release) :: s.log) = 0 :=
        (balance_cons_self t _ _).trans (by rw [hbal]; rfl)
      refine ⟨?_, hzero, hbal, h.disciplined⟩
      exact (balance_cons_self t _ ((t, .release) :: s.log)).trans (by rw [hzero]; rfl)
  have hother : ∀ u, u ≠ t → (s.pc u).owns = true → pc.owns = (s.pc t).owns ∧ c.lock = true := by
    intro u hut hu
    have hlock := h.locked u hu
    have ht : (s.pc t).owns = false := by
      by_contra ht
      exact hut (h.alone u t hu (by simpa using ht))
    generalize pc.owns = o at he
    generalize c.lock = l at he
    cases he with
    | none | ret ho => exact ⟨rfl, hlock⟩
    | acquire ho hfree =>
      rw [hlock] at hfree
      contradiction
    | release ho | done ho =>
      rw [ht] at ho
      contradiction
  have hpc : ∀ u, u ≠ t → Function.update s.pc t pc u = s.pc u :=
    fun u hut => Function.update_of_ne hut _ _
  have hheld : pc.owns = true → c.lock = true := by
    intro ho
    have hlock := h.locked t
    generalize pc.owns = o at he ho
    generalize c.lock = l at he
    cases he with
    | none => exact hlock ho
    | ret hno =>
      rw [hno] at ho
      contradiction
    | acquire => rfl
    | release | done => contradiction
  have halone : pc.owns = true → ∀ u, u ≠ t → (s.pc u).owns = false := by
    intro ho u hut
    by_contra hu
    have hu : (s.pc u).owns = true := by simpa using hu
    exact hut (h.alone u t hu ((hother u hut hu).1.symm.trans ho))
  constructor
  · intro u
    dsimp only
    by_cases hut : u = t
    · simpa [hut] using hself.1
    · rw [hpc u hut, balance_map_of_ne hut]
      exact h.held u
  · exact hself.2
  · intro u hu
    dsimp only at hu ⊢
    by_cases hut : u = t
    · rw [hut, Function.update_self] at hu
      exact hheld hu
    · rw [hpc u hut] at hu
      exact (hother u hut hu).2
  · intro u v hu hv
    dsimp only at hu hv
    by_cases hut : u = t
    · by_cases hvt : v = t
      · rw [hut, hvt]
      · rw [hut, Function.update_self] at hu
        rw [hpc v hvt, halone hu v hvt] at hv
        contradiction
    rw [hpc u hut] at hu
    by_cases hvt : v = t
    · rw [hvt, Function.update_self] at hv
      rw [halone hv u hut] at hu
      contradiction
    · rw [hpc v hvt] at hv
      exact h.alone u v hu hv

lemma next_inv (h : Inv s) (hrequeue : Requeues s a) : Inv (next requeuePi s a) := by
  cases a with
  | wait t m | signal t | broadcast t | cancel t =>
    unfold next
    dsimp only
    split
    · next ht => exact h.goto (by rw [ht]; rfl)
    · exact h
  | step t ok ok' =>
    apply h.step
    exact advance_effect requeuePi s.cond (s.pc t) ok ok' hrequeue

lemma foldl_inv (actions : List (Action T)) (h : Inv s) (hrequeue : AllRequeue requeuePi s actions) :
    Inv (actions.foldl (next requeuePi) s) := by
  induction actions generalizing s with
  | nil => exact h
  | cons a actions ih => exact ih (next_inv h hrequeue.1) hrequeue.2

lemma start_inv (pshared : Bool) : Inv (start pshared : State T) where
  held := fun _ => rfl
  disciplined := trivial
  locked := fun _ h => by contradiction
  alone := fun _ _ h => by contradiction

/-- In a run in which every broadcast that has woken the waiters can move them, a thread releases the internal
lock only when it holds it, a call returns with the lock released as often as acquired, and
no two threads hold it. -/
theorem lock_released_by_holder (requeuePi pshared : Bool) (actions : List (Action T))
    (hrequeue : AllRequeue requeuePi (start pshared) actions) :
    (∀ later earlier t, (run requeuePi pshared actions).log = later ++ (t, .release) :: earlier →
      balance t earlier = 1) ∧
    (∀ later earlier t, (run requeuePi pshared actions).log = later ++ (t, .ret) :: earlier →
      balance t earlier = 0) ∧ ∀ t u, balance t (run requeuePi pshared actions).log = 1 →
      balance u (run requeuePi pshared actions).log = 1 → t = u := by
  have h : Inv (run requeuePi pshared actions) := foldl_inv actions (start_inv pshared) hrequeue
  have hd := h.disciplined
  refine ⟨?_, ?_, ?_⟩
  · intro later earlier t hlog
    rw [hlog] at hd
    exact hd.fits
  · intro later earlier t hlog
    rw [hlog] at hd
    exact hd.fits
  · have howns : ∀ t, balance t (run requeuePi pshared actions).log = 1 →
        ((run requeuePi pshared actions).pc t).owns = true := by
      intro t ht
      rw [h.held t] at ht
      by_contra hne
      rw [Bool.not_eq_true] at hne
      rw [hne] at ht
      contradiction
    exact fun t u ht hu => h.alone t u (howns t ht) (howns u hu)

end

/-- A wait that is woken by a broadcast with a requeue that works. -/
theorem lock_released_by_holder_requeue :
    let actions : List (Action (Fin 2)) := [.wait 0 ⟨false, false⟩, .step 0 true true,
      .step 0 true true, .step 0 true true, .broadcast 1, .step 1 true true, .step 1 true true,
      .step 1 true true, .step 1 true true]
    AllRequeue false (start false) actions ∧
      ∀ t u, balance t (run false false actions).log = 1 →
        balance u (run false false actions).log = 1 → t = u := by
  intro actions
  have hrequeue : AllRequeue false (start false) actions := by decide +kernel
  exact ⟨hrequeue, (lock_released_by_holder false false actions hrequeue).2.2⟩

/-- On a process-shared variable thread 0 waits and thread 1 broadcasts; thread 2, in a call
of signal, takes the lock before the broadcast returns. -/
def sharedBroadcast : List (Action (Fin 3)) :=
  [.wait 0 ⟨true, false⟩, .step 0 true true, .step 0 true true, .step 0 true true,
    .broadcast 1, .step 1 true true, .step 1 true true, .step 1 true true, .step 1 true true,
    .signal 2, .step 2 true true, .step 1 true true]

/-- The broadcast releases the lock that thread 2 holds. -/
theorem sharedBroadcast_releases_twice :
    ∃ earlier, (run false true sharedBroadcast).log = (1, .ret) :: (1, .release) :: earlier ∧
      balance 1 earlier = 0 ∧ balance 2 earlier = 1 ∧
      balance 1 ((1, .release) :: earlier) = -1 ∧ (run false true sharedBroadcast).cond.lock = false := by
  refine ⟨[(2, .acquire), (1, .release), (1, .acquire), (0, .release), (0, .acquire)],
    ?_⟩
  decide +kernel

end Eglibc.Condvar
