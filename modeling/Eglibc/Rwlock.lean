import Eglibc.Threads

/-!
# Read-write locks

`pthread_rwlock_rdlock`, `pthread_rwlock_wrlock`, `pthread_rwlock_timedwrlock` and
`pthread_rwlock_unlock` on one lock. What the code does under the internal lock is one
move; waiting on a futex and waking are moves of their own.
-/
namespace Eglibc.Rwlock
open Threads

inductive Result
  | ok | eagain | edeadlk | einval | etimedout
  deriving DecidableEq

structure Timespec where
  sec : ℤ
  nsec : ℤ
  deriving DecidableEq

inductive Kind
  | reader
  | writer (abstime : Option Timespec)
  deriving DecidableEq

def Kind.isReader : Kind → Bool
  | reader => true
  | writer _ => false

/-- Where a thread is: outside with the result of its last call, about to wait for a value
of the counter, asleep, back from the wait, or about to wake others. -/
inductive Pc
  | out (result : Result)
  | waiting (kind : Kind) (waitval : ℕ)
  | sleeping (kind : Kind) (waitval : ℕ)
  | woken (kind : Kind) (timedOut : Bool)
  | waking (readers : Bool)
  deriving DecidableEq

/-- The lock. `reads` is a history: how often each thread holds it for reading. -/
structure State (T : Type) where
  writer : Option T
  nrReaders : ℕ
  nrReadersQueued : ℕ
  nrWritersQueued : ℕ
  readersWakeup : ℕ
  writerWakeup : ℕ
  pc : T → Pc
  reads : T → ℕ

/-- Moves. The clock at the time of a move is part of it where the code looks at it. -/
inductive Action (T : Type)
  | rdlock (t : T)
  | wrlock (t : T)
  | timedwrlock (t : T) (abstime now : Timespec)
  | unlock (t : T)
  | wait (t : T)
  | spurious (t : T)
  | expire (t : T)
  | resume (t : T) (now : Timespec)
  | wake (t chosen : T)

def State.word {T : Type} (s : State T) (readers : Bool) : ℕ :=
  if readers then s.readersWakeup else s.writerWakeup

/-- Why a timed call may not wait: a wrong time, one before the epoch, or one in the past. -/
def refuse (now : Timespec) : Option Timespec → Option Result
  | none => none
  | some abstime =>
    if 1000000000 ≤ abstime.nsec ∨ abstime.nsec < 0 then some .einval
    else if abstime.sec < 0 then some .etimedout
    else
      let sec := abstime.sec - now.sec
      if (if abstime.nsec - now.nsec < 0 then sec - 1 else sec) < 0 then some .etimedout else none

def Pc.sleepsOn (readers : Bool) : Pc → Bool
  | sleeping k _ => k.isReader == readers
  | _ => false

section
variable {T : Type} [DecidableEq T]

def State.goto (s : State T) (t : T) (pc : Pc) : State T :=
  { s with pc := Function.update s.pc t pc }

def readAttempt (preferReader : Bool) (s : State T) (t : T) : State T :=
  if s.writer = none ∧ (s.nrWritersQueued = 0 ∨ preferReader) then
    if increment s.nrReaders = 0 then s.goto t (.out .eagain)
    else
      { s.goto t (.out .ok) with
        nrReaders := increment s.nrReaders
        reads := Function.update s.reads t (s.reads t + 1) }
  else if s.writer = some t then s.goto t (.out .edeadlk)
  else if increment s.nrReadersQueued = 0 then s.goto t (.out .eagain)
  else
    { s.goto t (.waiting .reader s.readersWakeup) with
      nrReadersQueued := increment s.nrReadersQueued }

def writeAttempt (abstime : Option Timespec) (now : Timespec) (s : State T) (t : T) : State T :=
  if s.writer = none ∧ s.nrReaders = 0 then { s.goto t (.out .ok) with writer := some t }
  else if s.writer = some t then s.goto t (.out .edeadlk)
  else
    match refuse now abstime with
    | some result => s.goto t (.out result)
    | none =>
      if increment s.nrWritersQueued = 0 then s.goto t (.out .eagain)
      else
        { s.goto t (.waiting (.writer abstime) s.writerWakeup) with
          nrWritersQueued := increment s.nrWritersQueued }

def resume (preferReader : Bool) (now : Timespec) (s : State T) (t : T) : State T :=
  match s.pc t with
  | .woken .reader _ =>
    readAttempt preferReader { s with nrReadersQueued := decrement s.nrReadersQueued } t
  | .woken (.writer abstime) timedOut =>
    let s' := { s with nrWritersQueued := decrement s.nrWritersQueued }
    if timedOut then s'.goto t (.out .etimedout) else writeAttempt abstime now s' t
  | _ => s

def release (s : State T) (t : T) : State T :=
  if s.writer ≠ none then { s with writer := none }
  else
    { s with
      nrReaders := decrement s.nrReaders
      reads := Function.update s.reads t (s.reads t - 1) }

def unlock (s : State T) (t : T) : State T :=
  let s := release s t
  if s.nrReaders = 0 then
    if s.nrWritersQueued ≠ 0 then
      { s.goto t (.waking false) with writerWakeup := increment s.writerWakeup }
    else if s.nrReadersQueued ≠ 0 then
      { s.goto t (.waking true) with readersWakeup := increment s.readersWakeup }
    else s.goto t (.out .ok)
  else s.goto t (.out .ok)

def Pc.wakeReader : Pc → Pc
  | sleeping .reader _ => woken .reader false
  | pc => pc

def Pc.wakeWriter : Pc → Pc
  | sleeping (.writer abstime) _ => woken (.writer abstime) false
  | pc => pc

variable [Fintype T]

def next (preferReader : Bool) (s : State T) : Action T → State T
  | .rdlock t =>
    match s.pc t with
    | .out _ => readAttempt preferReader s t
    | _ => s
  | .wrlock t =>
    match s.pc t with
    | .out _ => writeAttempt none ⟨0, 0⟩ s t
    | _ => s
  | .timedwrlock t abstime now =>
    match s.pc t with
    | .out _ => writeAttempt (some abstime) now s t
    | _ => s
  | .unlock t =>
    match s.pc t with
    | .out _ => if s.writer = some t ∨ s.reads t ≠ 0 then unlock s t else s
    | _ => s
  | .wait t =>
    match s.pc t with
    | .waiting k v =>
      s.goto t (if s.word k.isReader = v then .sleeping k v else .woken k false)
    | _ => s
  | .spurious t =>
    match s.pc t with
    | .sleeping k _ => s.goto t (.woken k false)
    | _ => s
  | .expire t =>
    match s.pc t with
    | .sleeping (.writer (some abstime)) _ => s.goto t (.woken (.writer (some abstime)) true)
    | _ => s
  | .resume t now => resume preferReader now s t
  | .wake t chosen =>
    match s.pc t with
    | .waking true => State.goto { s with pc := fun u => (s.pc u).wakeReader } t (.out .ok)
    | .waking false =>
      -- one sleeping writer is woken, whichever the kernel takes
      if (s.pc chosen).sleepsOn false = true ∨ ∀ u, (s.pc u).sleepsOn false = false then
        (s.goto chosen (s.pc chosen).wakeWriter).goto t (.out .ok)
      else s
    | _ => s

def start : State T := ⟨none, 0, 0, 0, 0, 0, fun _ => .out .ok, fun _ => 0⟩

def run (preferReader : Bool) (actions : List (Action T)) : State T :=
  actions.foldl (next preferReader) start

end

end Eglibc.Rwlock
