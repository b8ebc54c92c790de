import Eglibc.Threads

/-!
# Barriers

`pthread_barrier_wait` as the moves of threads on one barrier. The calls are numbered by
their decrements of `left`; the numbers and the log are a history.
-/
namespace Eglibc.Barrier
open Threads

/-- What calls do that is seen from outside: decrement `left`, increment it, return. -/
inductive Event
  | arrive (call : ℕ)
  | leave (call : ℕ)
  | ret (call : ℕ) (serial : Bool)
  deriving DecidableEq

/-- Where a thread is in `pthread_barrier_wait`. -/
inductive Pc
  | idle
  | entering
  | locked
  | decremented (call : ℕ)
  | last (call : ℕ)
  | bumped (call : ℕ)
  | early (call : ℕ)
  | releasing (call event : ℕ)
  | waiting (call event : ℕ)
  | sleeping (call event : ℕ)
  | woken (call event : ℕ)
  | leaving (call : ℕ) (serial : Bool)
  | unlocking (call : ℕ) (serial : Bool)
  deriving DecidableEq

structure State (T : Type) where
  lock : Bool
  left : ℕ
  currEvent : ℕ
  pc : T → Pc
  arrivals : ℕ
  log : List Event

/-- A thread that sleeps in `futex_wait` is woken. -/
def Pc.wake : Pc → Pc
  | sleeping i e => woken i e
  | pc => pc

section
variable {T : Type} [DecidableEq T]

def State.goto (s : State T) (t : T) (pc : Pc) : State T :=
  { s with pc := Function.update s.pc t pc }

def start (n : ℕ) : State T := ⟨false, n, 0, fun _ => .idle, 0, []⟩

/-- The next move of a thread. A thread that cannot get the lock does not move; a move of
a sleeping thread is a spurious return of `futex_wait`. -/
def next (n : ℕ) (s : State T) (t : T) : State T :=
  match s.pc t with
  | .idle => s.goto t .entering
  | .entering => if s.lock then s else { s.goto t .locked with lock := true }
  | .locked =>
    { s.goto t (.decremented s.arrivals) with
      left := decrement s.left
      arrivals := s.arrivals + 1
      log := .arrive s.arrivals :: s.log }
  | .decremented i => s.goto t (if s.left = 0 then .last i else .early i)
  | .last i => { s.goto t (.bumped i) with currEvent := increment s.currEvent }
  | .bumped i => State.goto { s with pc := fun u => (s.pc u).wake } t (.leaving i true)
  | .early i => s.goto t (.releasing i s.currEvent)
  | .releasing i e => { s.goto t (.waiting i e) with lock := false }
  | .waiting i e => s.goto t (if s.currEvent = e then .sleeping i e else .woken i e)
  | .sleeping i e => s.goto t (.woken i e)
  | .woken i e => s.goto t (if e = s.currEvent then .waiting i e else .leaving i false)
  | .leaving i serial =>
    if increment s.left = n then
      { s.goto t (.unlocking i serial) with left := increment s.left, log := .leave i :: s.log }
    else
      { s.goto t .idle with
        left := increment s.left, log := .ret i serial :: .leave i :: s.log }
  | .unlocking i serial =>
    { s.goto t .idle with lock := false, log := .ret i serial :: s.log }

def run (n : ℕ) (schedule : List T) : State T := schedule.foldl (next n) (start n)

end

/-- The call of a thread that has decremented `left` and not yet incremented it. -/
def Pc.call : Pc → Option ℕ
  | decremented i | last i | bumped i | early i | releasing i _ | waiting i _ | sleeping i _
  | woken i _ | leaving i _ => some i
  | _ => none

def Pc.arrived (pc : Pc) : Bool := pc.call.isSome

def Pc.owns : Pc → Bool
  | locked | decremented _ | last _ | early _ | releasing .. => true
  | _ => false

def FillOk (n b arrivals left : ℕ) : Pc → Prop
  | .idle | .entering | .locked => True
  | .decremented i => i + 1 = arrivals ∧ b * n ≤ i
  | .last i => i + 1 = arrivals ∧ left = 0
  | .early i => b * n ≤ i ∧ i + 1 < b * n + n
  | .releasing i e | .waiting i e | .sleeping i e | .woken i e =>
    e = b % 2 ^ 32 ∧ b * n ≤ i ∧ i + 1 < b * n + n
  | .bumped _ | .leaving .. | .unlocking .. => False

def DrainOk (n b left : ℕ) : Pc → Prop
  | .idle | .entering => True
  | .waiting i e | .sleeping i e | .woken i e =>
    e = b % 2 ^ 32 ∧ b * n ≤ i ∧ i + 1 < b * n + n
  | .bumped i => i + 1 = b * n + n
  | .leaving i serial => b * n ≤ i ∧ i < b * n + n ∧ (serial = true ↔ i + 1 = b * n + n)
  | .unlocking i serial =>
    left = n ∧ b * n ≤ i ∧ i < b * n + n ∧ (serial = true ↔ i + 1 = b * n + n)
  | _ => False

def Allowed (n : ℕ) (log : List Event) : Event → Prop
  | .arrive i | .leave i => ∀ j, j / n < i / n → .leave j ∈ log
  | .ret i serial => (∀ j, j / n = i / n → .arrive j ∈ log) ∧ (serial = true ↔ i % n = n - 1)

def Ordered (n : ℕ) : List Event → Prop
  | [] => True
  | e :: log => Allowed n log e ∧ Ordered n log

section
variable {T : Type} [DecidableEq T]

@[simp] lemma goto_pc_self (s : State T) (t : T) (pc : Pc) : (s.goto t pc).pc t = pc :=
  Function.update_self _ _ _

lemma goto_pc_of_ne (s : State T) (pc : Pc) (h : u ≠ t) : (s.goto t pc).pc u = s.pc u :=
  Function.update_of_ne h _ _

lemma goto_forall {s : State T} {t : T} {pc : Pc} {P : Pc → Prop} (hpc : P pc)
    (h : ∀ u, u ≠ t → P (s.pc u)) (u : T) : P ((s.goto t pc).pc u) := by
  by_cases hu : u = t
  · rwa [hu, goto_pc_self]
  · rw [goto_pc_of_ne s pc hu]
    exact h u hu

lemma goto_call {s : State T} {t : T} {pc : Pc} (hpc : pc.call = (s.pc t).call) (u : T) :
    ((s.goto t pc).pc u).call = (s.pc u).call := by
  by_cases hu : u = t
  · rw [hu, goto_pc_self, hpc]
  · rw [goto_pc_of_ne s pc hu]

end

section
variable {T : Type}

structure Filling (n b : ℕ) (s : State T) : Prop where
  event : s.currEvent = b % 2 ^ 32
  arrivals : s.arrivals + s.left = b * n + n
  alone : ∀ t u, (s.pc t).owns = true → (s.pc u).owns = true → t = u
  locked : ∀ t, (s.pc t).owns = true → s.lock = true
  zero : s.left = 0 → ∃ t i, s.pc t = .decremented i ∨ s.pc t = .last i
  threads : ∀ t, FillOk n b s.arrivals s.left (s.pc t)

structure Draining (n b : ℕ) (s : State T) : Prop where
  event : s.currEvent = (b + 1) % 2 ^ 32
  arrivals : s.arrivals = b * n + n
  locked : s.lock = true
  threads : ∀ t, DrainOk n b s.left (s.pc t)
  alone : ∀ t u i j x y, s.pc t = .unlocking i x → s.pc u = .unlocking j y → t = u

lemma Filling.at_pc {s : State T} {t : T} (h : Filling n b s) (ht : s.pc t = pc) :
    FillOk n b s.arrivals s.left pc := ht ▸ h.threads t

lemma Draining.at_pc {s : State T} {t : T} (h : Draining n b s) (ht : s.pc t = pc) :
    DrainOk n b s.left pc := ht ▸ h.threads t

variable [Fintype T]

structure Inv (n : ℕ) (s : State T) : Prop where
  count : tally Pc.arrived s.pc + s.left = n
  arrive_mem : ∀ i, .arrive i ∈ s.log ↔ i < s.arrivals
  pending : ∀ i < s.arrivals, .leave i ∈ s.log ∨ ∃ t, (s.pc t).call = some i
  ordered : Ordered n s.log
  phase : ∃ b, Filling n b s ∨ Draining n b s

variable {n : ℕ} {s s' : State T}

lemma start_inv (hn : 0 < n) : Inv n (start n : State T) where
  count := by
    have : tally Pc.arrived (start n : State T).pc = 0 := tally_eq_zero.mpr fun _ => rfl
    rw [this]
    exact Nat.zero_add n
  arrive_mem := by simp [start]
  pending := by simp [start]
  ordered := trivial
  phase := by
    refine ⟨0, .inl ⟨rfl, by simp [start], ?_, ?_, ?_, fun _ => trivial⟩⟩
    · intro t u ht
      contradiction
    · intro t ht
      contradiction
    · intro h
      exact absurd h (by simp only [start]; omega)

theorem Inv.quiet (h : Inv n s) (hlog : s'.log = s.log) (harrivals : s'.arrivals = s.arrivals)
    (hleft : s'.left = s.left) (hcall : ∀ u, (s'.pc u).call = (s.pc u).call)
    (hphase : ∃ b, Filling n b s' ∨ Draining n b s') : Inv n s' where
  count := by
    have : tally Pc.arrived s'.pc = tally Pc.arrived s.pc :=
      tally_congr fun u => by simp [Pc.arrived, hcall u]
    rw [this, hleft, h.count]
  arrive_mem := by
    rw [hlog, harrivals]
    exact h.arrive_mem
  pending := by
    rw [hlog, harrivals]
    simp only [hcall]
    exact h.pending
  ordered := by
    rw [hlog]
    exact h.ordered
  phase := hphase

lemma Inv.left_before (h : Inv n s) (hb : b * n ≤ s.arrivals)
    (hcall : ∀ u j, (s.pc u).call = some j → b * n ≤ j) (hj : j < b * n) : .leave j ∈ s.log := by
  rcases h.pending j (by omega) with hleave | ⟨u, hu⟩
  · exact hleave
  · exact absurd (hcall u j hu) (by omega)

theorem Inv.leaving (h : Inv n s) (ht : s.pc t = .leaving i x) :
    ∃ b, Draining n b s ∧ b * n ≤ i ∧ i < b * n + n ∧ (x = true ↔ i + 1 = b * n + n) ∧
      s.left < n := by
  have hcount := h.count
  have hpos : 0 < tally Pc.arrived s.pc := tally_pos (t := t) (by rw [ht]; rfl)
  obtain ⟨b, hb | hb⟩ := h.phase
  · exact False.elim (hb.at_pc ht)
  · have hok := hb.at_pc ht
    exact ⟨b, hb, hok.1, hok.2.1, hok.2.2, by omega⟩

end

section
variable {T : Type} [DecidableEq T] {n b : ℕ} {s : State T} {t : T}

/-- A thread moves while the round fills up. Only a thread that has the lock can have taken
`left` to zero, and it stays at the branch. -/
theorem Filling.goto (h : Filling n b s) (hpc : FillOk n b s.arrivals s.left pc)
    (howns : pc.owns = true → (s.pc t).owns = true)
    (hzero : s.left = 0 → (∃ i, s.pc t = .decremented i ∨ s.pc t = .last i) →
      ∃ i, pc = .decremented i ∨ pc = .last i) : Filling n b (s.goto t pc) where
  event := h.event
  arrivals := h.arrivals
  alone := by
    have howner : ∀ u, ((s.goto t pc).pc u).owns = true → (s.pc u).owns = true := by
      intro u
      by_cases hu : u = t
      · rwa [hu, goto_pc_self]
      · rw [goto_pc_of_ne s pc hu]
        exact id
    exact fun u v hu hv => h.alone u v (howner u hu) (howner v hv)
  locked := by
    intro u
    by_cases hu : u = t
    · rw [hu, goto_pc_self]
      exact fun ho => h.locked t (howns ho)
    · rw [goto_pc_of_ne s pc hu]
      exact h.locked u
  zero := by
    intro hleft
    obtain ⟨u, i, hu⟩ := h.zero hleft
    by_cases hut : u = t
    · rw [hut] at hu
      obtain ⟨j, hj⟩ := hzero hleft ⟨i, hu⟩
      exact ⟨t, j, by rwa [goto_pc_self]⟩
    · exact ⟨u, i, by rwa [goto_pc_of_ne s pc hut]⟩
  threads := goto_forall hpc fun u _ => h.threads u

lemma Draining.goto (h : Draining n b s) (hpc : DrainOk n b s.left pc)
    (hne : ∀ i x, pc ≠ .unlocking i x) : Draining n b (s.goto t pc) where
  event := h.event
  arrivals := h.arrivals
  locked := h.locked
  threads := goto_forall hpc fun u _ => h.threads u
  alone := by
    have hother : ∀ u i x, (s.goto t pc).pc u = .unlocking i x → s.pc u = .unlocking i x := by
      intro u i x hu
      by_cases hut : u = t
      · rw [hut, goto_pc_self] at hu
        exact absurd hu (hne i x)
      · rwa [goto_pc_of_ne s pc hut] at hu
    exact fun u v i j x y hu hv => h.alone u v i j x y (hother u i x hu) (hother v j y hv)

section
variable [Fintype T]

section
variable (h : Inv n s)
include h

lemma Inv.goto {pc : Pc} (hcall : pc.call = (s.pc t).call)
    (hfill : ∀ b, Filling n b s → Filling n b (s.goto t pc))
    (hdrain : ∀ b, Draining n b s → Draining n b (s.goto t pc)) : Inv n (s.goto t pc) := by
  refine h.quiet rfl rfl rfl (goto_call hcall) ?_
  obtain ⟨b, hb | hb⟩ := h.phase
  · exact ⟨b, .inl (hfill b hb)⟩
  · exact ⟨b, .inr (hdrain b hb)⟩

theorem Inv.goto_waiter (hpc : pc = .waiting i e ∨ pc = .sleeping i e ∨ pc = .woken i e)
    (ht : s.pc t = .waiting i e ∨ s.pc t = .sleeping i e ∨ s.pc t = .woken i e) :
    Inv n (s.goto t pc) := by
  apply h.goto
  · rcases hpc with rfl | rfl | rfl <;> rcases ht with ht | ht | ht <;> rw [ht] <;> rfl
  · intro b hb
    have hok := hb.threads t
    apply hb.goto
    · rcases hpc with rfl | rfl | rfl <;> rcases ht with ht | ht | ht <;> rw [ht] at hok <;>
        exact hok
    · rcases hpc with rfl | rfl | rfl <;> intro ho <;> contradiction
    · rintro - ⟨j, hj⟩
      rcases ht with ht | ht | ht <;> rw [ht] at hj <;> rcases hj with hj | hj <;> contradiction
  · intro b hb
    have hok := hb.threads t
    apply hb.goto
    · rcases hpc with rfl | rfl | rfl <;> rcases ht with ht | ht | ht <;> rw [ht] at hok <;>
        exact hok
    · rcases hpc with rfl | rfl | rfl <;> intro j x hj <;> contradiction

lemma next_idle (ht : s.pc t = .idle) : Inv n (s.goto t .entering) := by
  apply h.goto
  · rw [ht]
    rfl
  · intro b hb
    apply hb.goto
    · trivial
    · intro ho
      contradiction
    · rintro - ⟨i, hi⟩
      rw [ht] at hi
      rcases hi with hi | hi <;> contradiction
  · intro b hb
    exact hb.goto trivial fun _ _ he => by contradiction

lemma next_entering (ht : s.pc t = .entering) (hlock : s.lock = false) :
    Inv n { s.goto t .locked with lock := true } := by
  refine h.quiet rfl rfl rfl (goto_call (by rw [ht]; rfl)) ?_
  obtain ⟨b, hb | hb⟩ := h.phase
  · have hfree : ∀ u, (s.pc u).owns = false := by
      intro u
      by_contra ho
      rw [hb.locked u (by simpa using ho)] at hlock
      contradiction
    have hown : ∀ u, ((s.goto t .locked).pc u).owns = true → u = t := by
      intro u hu
      by_contra hut
      rw [goto_pc_of_ne s _ hut, hfree u] at hu
      contradiction
    refine ⟨b, .inl ⟨hb.event, hb.arrivals, ?_, fun _ _ => rfl, ?_, ?_⟩⟩
    · exact fun u v hu hv => (hown u hu).trans (hown v hv).symm
    · intro hleft
      obtain ⟨u, i, hu⟩ := hb.zero hleft
      have ho := hfree u
      rcases hu with hu | hu <;> rw [hu] at ho <;> contradiction
    · exact goto_forall trivial fun u _ => hb.threads u
  · rw [hb.locked] at hlock
    contradiction

theorem next_decremented (ht : s.pc t = .decremented i) :
    Inv n (s.goto t (if s.left = 0 then .last i else .early i)) := by
  apply h.goto
  · rw [ht]
    split_ifs <;> rfl
  · intro b hb
    have hok := hb.at_pc ht
    apply hb.goto
    · have harrivals := hb.arrivals
      split_ifs with hleft
      · exact ⟨hok.1, hleft⟩
      · exact ⟨hok.2, by have := hok.1; omega⟩
    · rw [ht]
      exact fun _ => rfl
    · intro hleft _
      rw [if_pos hleft]
      exact ⟨i, .inr rfl⟩
  · intro b hb
    exact False.elim (hb.at_pc ht)

theorem next_last {i : ℕ} (ht : s.pc t = .last i) :
    Inv n { s.goto t (.bumped i) with currEvent := increment s.currEvent } := by
  refine h.quiet rfl rfl rfl (goto_call (by rw [ht]; rfl)) ?_
  obtain ⟨b, hb | hb⟩ := h.phase
  · have hok := hb.at_pc ht
    have harrivals := hb.arrivals
    have hleft := hok.2
    have hother : ∀ u, u ≠ t → (s.pc u).owns = false := by
      intro u hu
      by_contra ho
      exact hu (hb.alone u t (by simpa using ho) (by rw [ht]; rfl))
    refine ⟨b, .inr ⟨?_, ?_, hb.locked t (by rw [ht]; rfl), ?_, ?_⟩⟩
    · dsimp only
      rw [hb.event, increment]
      omega
    · dsimp only [State.goto]
      omega
    · apply goto_forall
      · show i + 1 = b * n + n
        have := hok.1
        omega
      · intro u hu
        have hfill := hb.threads u
        have ho := hother u hu
        cases hpc : s.pc u <;> rw [hpc] at hfill ho <;> first | contradiction | exact hfill
    · intro u v j k x y hu
      by_cases hut : u = t
      · rw [hut, goto_pc_self] at hu
        contradiction
      rw [goto_pc_of_ne s _ hut] at hu
      have hfill := hb.threads u
      rw [hu] at hfill
      contradiction
  · exact False.elim (hb.at_pc ht)

omit h in
lemma wake_call (pc : Pc) : pc.wake.call = pc.call := by
  cases pc <;> rfl

omit h in
lemma DrainOk.wake (h : DrainOk n b left pc) : DrainOk n b left pc.wake := by
  cases pc <;> exact h

omit h in
lemma wake_unlocking {pc : Pc} {i : ℕ} {x : Bool} (h : pc.wake = .unlocking i x) :
    pc = .unlocking i x := by
  cases pc <;> first | exact h | contradiction

theorem next_bumped {i : ℕ} (ht : s.pc t = .bumped i) :
    Inv n (State.goto { s with pc := fun u => (s.pc u).wake } t (.leaving i true)) := by
  have hwake : Inv n { s with pc := fun u => (s.pc u).wake } := by
    refine h.quiet rfl rfl rfl (fun u => wake_call _) ?_
    obtain ⟨b, hb | hb⟩ := h.phase
    · exact False.elim (hb.at_pc ht)
    · refine ⟨b, .inr ⟨hb.event, hb.arrivals, hb.locked, fun u => (hb.threads u).wake, ?_⟩⟩
      exact fun u v j k x y hu hv => hb.alone u v j k x y (wake_unlocking hu) (wake_unlocking hv)
  have ht' : (s.pc t).wake = .bumped i := by
    rw [ht]
    rfl
  apply hwake.goto
  · dsimp only
    rw [ht']
    rfl
  · intro b hb
    have hok := hb.threads t
    dsimp only at hok
    rw [ht'] at hok
    contradiction
  · intro b hb
    have hok : i + 1 = b * n + n := by
      have := hb.threads t
      dsimp only at this
      rwa [ht'] at this
    apply hb.goto
    · have hn : 0 < n := by
        have := hwake.count
        have : 0 < tally Pc.arrived fun u => (s.pc u).wake := tally_pos (t := t) (by rw [ht']; rfl)
        dsimp only at *
        omega
      exact ⟨by omega, by omega, by simp [hok]⟩
    · intro j x hj
      contradiction

lemma next_early (ht : s.pc t = .early i) : Inv n (s.goto t (.releasing i s.currEvent)) := by
  apply h.goto
  · rw [ht]
    rfl
  · intro b hb
    have hok := hb.at_pc ht
    apply hb.goto
    · exact ⟨hb.event, hok⟩
    · rw [ht]
      exact fun _ => rfl
    · rintro - ⟨j, hj⟩
      rw [ht] at hj
      rcases hj with hj | hj <;> contradiction
  · intro b hb
    exact False.elim (hb.at_pc ht)

lemma next_releasing {i e : ℕ} (ht : s.pc t = .releasing i e) :
    Inv n { s.goto t (.waiting i e) with lock := false } := by
  refine h.quiet rfl rfl rfl (goto_call (by rw [ht]; rfl)) ?_
  obtain ⟨b, hb | hb⟩ := h.phase
  · have hok := hb.at_pc ht
    have hfill : Filling n b (s.goto t (.waiting i e)) := by
      apply hb.goto
      · exact hok
      · intro ho
        contradiction
      · rintro - ⟨j, hj⟩
        rw [ht] at hj
        rcases hj with hj | hj <;> contradiction
    have hfree : ∀ u, ((s.goto t (.waiting i e)).pc u).owns = false := by
      intro u
      by_contra ho
      by_cases hut : u = t
      · rw [hut, goto_pc_self] at ho
        contradiction
      · rw [goto_pc_of_ne s _ hut] at ho
        exact hut (hb.alone u t (by simpa using ho) (by rw [ht]; rfl))
    refine ⟨b, .inl ⟨hfill.event, hfill.arrivals, hfill.alone, ?_, hfill.zero, hfill.threads⟩⟩
    intro u hu
    have := hfree u
    rw [this] at hu
    contradiction
  · exact False.elim (hb.at_pc ht)

theorem next_woken (ht : s.pc t = .woken i e) :
    Inv n (s.goto t (if e = s.currEvent then .waiting i e else .leaving i false)) := by
  split_ifs with he
  · exact h.goto_waiter (.inl rfl) (.inr (.inr ht))
  apply h.goto
  · rw [ht]
    rfl
  · intro b hb
    have hok := hb.at_pc ht
    exact absurd (hok.1.trans hb.event.symm) he
  · intro b hb
    have hok := hb.at_pc ht
    obtain ⟨-, hlow, hhigh⟩ := hok
    apply hb.goto
    · exact ⟨hlow, by omega, by simp; omega⟩
    · intro j x hj
      contradiction

end

lemma round_iff (hn : 0 < n) : i / n = b ↔ b * n ≤ i ∧ i < b * n + n := by
  rw [Nat.div_eq_iff hn]
  omega

lemma lt_of_div_lt (hn : 0 < n) (h : j / n < b) : j < b * n :=
  (Nat.div_lt_iff_lt_mul hn).mp h

lemma mod_eq_last (hn : 0 < n) (hlow : b * n ≤ i) (hhigh : i < b * n + n) :
    i % n = n - 1 ↔ i + 1 = b * n + n := by
  obtain ⟨k, rfl⟩ := Nat.exists_eq_add_of_le hlow
  rw [Nat.add_comm, Nat.add_mul_mod_self_right, Nat.mod_eq_of_lt (by omega)]
  omega

lemma FillOk.le_call (hn : 0 < n)
    (harrivals : arrivals + left = b * n + n) (h : FillOk n b arrivals left pc)
    (hj : pc.call = some j) : b * n ≤ j := by
  cases pc <;> simp only [Pc.call, Option.some.injEq, reduceCtorEq] at hj <;> subst hj <;>
    simp only [FillOk] at h <;> omega

lemma DrainOk.le_call (hn : 0 < n) (h : DrainOk n b left pc)
    (hj : pc.call = some j) : b * n ≤ j := by
  cases pc <;> simp only [Pc.call, Option.some.injEq, reduceCtorEq] at hj <;> subst hj <;>
    simp only [DrainOk] at h <;> omega

lemma next_locked (hn : 0 < n) (h : Inv n s) (ht : s.pc t = .locked) :
    Inv n { s.goto t (.decremented s.arrivals) with
      left := decrement s.left
      arrivals := s.arrivals + 1
      log := .arrive s.arrivals :: s.log } := by
  obtain ⟨b, hb | hb⟩ := h.phase
  · have harrivals := hb.arrivals
    have hcount := h.count
    have hpos : s.left ≠ 0 := by
      intro hleft
      obtain ⟨u, i, hu⟩ := hb.zero hleft
      have hut : u = t := hb.alone u t (by rcases hu with hu | hu <;> rw [hu] <;> rfl)
        (by rw [ht]; rfl)
      rw [hut, ht] at hu
      rcases hu with hu | hu <;> contradiction
    have hdec := decrement_eq hpos
    have htally := tally_update (p := Pc.arrived) s.pc t (.decremented s.arrivals)
    rw [ht] at htally
    have harrives : tally Pc.arrived (Function.update s.pc t (.decremented s.arrivals)) =
      tally Pc.arrived s.pc + 1 := htally
    have hbefore : ∀ j, j < b * n → .leave j ∈ s.log := fun j hj =>
      h.left_before (by omega) (fun u j hu => (hb.threads u).le_call hn harrivals hu) hj
    have hround : s.arrivals / n = b := (round_iff hn).mpr (by omega)
    have hother : ∀ u, u ≠ t → (s.pc u).owns = false := by
      intro u hu
      by_contra ho
      exact hu (hb.alone u t (by simpa using ho) (by rw [ht]; rfl))
    have howns : ∀ u, ((s.goto t (.decremented s.arrivals)).pc u).owns = true → u = t := by
      intro u hu
      by_contra hut
      rw [goto_pc_of_ne s _ hut, hother u hut] at hu
      contradiction
    constructor
    · dsimp only [State.goto]
      omega
    · intro i
      dsimp only
      rw [List.mem_cons, h.arrive_mem i, Event.arrive.injEq]
      omega
    · intro i hi
      dsimp only at hi ⊢
      by_cases hia : i = s.arrivals
      · exact .inr ⟨t, by rw [goto_pc_self, hia]; rfl⟩
      rcases h.pending i (by omega) with hleave | ⟨u, hu⟩
      · exact .inl (List.mem_cons_of_mem _ hleave)
      have hut : u ≠ t := by
        intro hut
        rw [hut, ht] at hu
        contradiction
      exact .inr ⟨u, by rwa [goto_pc_of_ne s _ hut]⟩
    · refine ⟨?_, h.ordered⟩
      intro j hj
      rw [hround] at hj
      exact hbefore j (lt_of_div_lt hn hj)
    · refine ⟨b, .inl ⟨hb.event, ?_, ?_, ?_, ?_, ?_⟩⟩
      · dsimp only
        omega
      · exact fun u v hu hv => (howns u hu).trans (howns v hv).symm
      · exact fun u _ => hb.locked t (by rw [ht]; rfl)
      · exact fun _ => ⟨t, s.arrivals, .inl (goto_pc_self s t _)⟩
      · apply goto_forall
        · exact ⟨rfl, by omega⟩
        · intro u hu
          have hok := hb.threads u
          have ho := hother u hu
          cases hpc : s.pc u <;> rw [hpc] at hok ho <;> first | contradiction | exact hok
  · exact False.elim (hb.at_pc ht)

lemma DrainOk.of_left_ne (h : DrainOk n b left pc) (hne : left ≠ n) : DrainOk n b left' pc := by
  cases pc <;> first | exact h | exact absurd h.1 hne

theorem Inv.leave (h : Inv n s) (ht : s.pc t = .leaving i x)
    (hpc : pc.call = none) (log : List Event) (hlog : Ordered n (log ++ .leave i :: s.log))
    (hret : ∀ j, .arrive j ∉ log) (hphase : Draining n b { s.goto t pc with
      left := s.left + 1, log := log ++ .leave i :: s.log }) :
    Inv n { s.goto t pc with left := s.left + 1, log := log ++ .leave i :: s.log } := by
  have hcount := h.count
  have htally := tally_update (p := Pc.arrived) s.pc t pc
  have harrived : pc.arrived = false := by simp [Pc.arrived, hpc]
  rw [ht, harrived] at htally
  have hleaves : tally Pc.arrived (Function.update s.pc t pc) + 1 = tally Pc.arrived s.pc := htally
  constructor
  · dsimp only [State.goto]
    omega
  · intro j
    dsimp only [State.goto]
    rw [List.mem_append, List.mem_cons, h.arrive_mem j]
    simp [hret j]
  · intro j hj
    dsimp only [State.goto] at hj ⊢
    rcases h.pending j hj with hleave | ⟨u, hu⟩
    · exact .inl (List.mem_append_right _ (List.mem_cons_of_mem _ hleave))
    by_cases hut : u = t
    · rw [hut, ht] at hu
      cases hu
      exact .inl (List.mem_append_right _ List.mem_cons_self)
    · exact .inr ⟨u, by rwa [Function.update_of_ne hut]⟩
  · exact hlog
  · exact ⟨b, .inr hphase⟩

lemma next_leaving (hn : 0 < n) (hmax : n < 2 ^ 32) (h : Inv n s)
    (ht : s.pc t = .leaving i x) : Inv n (next n s t) := by
  obtain ⟨b, hb, hlow, hhigh, hserial, hlt⟩ := h.leaving ht
  have hinc : increment s.left = s.left + 1 := increment_eq (by omega)
  have hround : i / n = b := (round_iff hn).mpr ⟨hlow, hhigh⟩
  have hleave : Ordered n (.leave i :: s.log) := by
    refine ⟨fun j hj => ?_, h.ordered⟩
    rw [hround] at hj
    exact h.left_before (by rw [hb.arrivals]; omega) (fun u j hu => (hb.threads u).le_call hn hu)
      (lt_of_div_lt hn hj)
  have hret : Allowed n (.leave i :: s.log) (.ret i x) := by
    refine ⟨fun j hj => ?_, ?_⟩
    · rw [hround, round_iff hn] at hj
      apply List.mem_cons_of_mem
      rw [h.arrive_mem j, hb.arrivals]
      exact hj.2
    · rw [hserial, mod_eq_last hn hlow hhigh]
  have hother : ∀ u, u ≠ t → DrainOk n b (s.left + 1) (s.pc u) :=
    fun u _ => (hb.threads u).of_left_ne (by omega)
  have hbusy : ∀ u j y, s.pc u ≠ .unlocking j y := by
    intro u j y hu
    have hok := hb.at_pc hu
    exact absurd hok.1 (by omega)
  rw [next, ht]
  dsimp only
  rw [hinc]
  split_ifs with hlast
  · refine h.leave ht rfl [] hleave (by simp) ⟨hb.event, hb.arrivals, hb.locked, ?_, ?_⟩
    · exact goto_forall ⟨hlast, hlow, hhigh, hserial⟩ hother
    have hsame : ∀ u j y, (s.goto t (.unlocking i x)).pc u = .unlocking j y → u = t := by
      intro u j y hu
      by_contra hut
      rw [goto_pc_of_ne s _ hut] at hu
      exact hbusy u j y hu
    exact fun u v j k y z hu hv => (hsame u j y hu).trans (hsame v k z hv).symm
  refine h.leave ht rfl [.ret i x] ⟨hret, hleave⟩ (by simp)
    ⟨hb.event, hb.arrivals, hb.locked, ?_, ?_⟩
  · exact goto_forall trivial hother
  intro u v j k y z hu
  by_cases hut : u = t
  · rw [hut, goto_pc_self] at hu
    contradiction
  · rw [goto_pc_of_ne s _ hut] at hu
    exact absurd hu (hbusy u j y)

theorem next_unlocking (hn : 0 < n) (h : Inv n s) {i : ℕ} {x : Bool}
    (ht : s.pc t = .unlocking i x) :
    Inv n { s.goto t .idle with lock := false, log := .ret i x :: s.log } := by
  have hcount := h.count
  have hcall : ∀ u, ((s.goto t .idle).pc u).call = (s.pc u).call := goto_call (by rw [ht]; rfl)
  obtain ⟨b, hb | hb⟩ := h.phase
  · exact False.elim (hb.at_pc ht)
  have hok := hb.at_pc ht
  obtain ⟨hleft, hlow, hhigh, hserial⟩ := hok
  have hround : i / n = b := (round_iff hn).mpr ⟨hlow, hhigh⟩
  have hnone : ∀ u, (s.pc u).arrived = false := tally_eq_zero.mp (by omega)
  have hout : ∀ u, u ≠ t → s.pc u = .idle ∨ s.pc u = .entering := by
    intro u hu
    have hok := hb.threads u
    have hna := hnone u
    cases hpc : s.pc u with
    | idle => exact .inl rfl
    | entering => exact .inr rfl
    | unlocking j y => exact absurd (hb.alone u t j i y x hpc ht) hu
    | _ =>
      rw [hpc] at hok hna
      contradiction
  have hgone : ∀ u, (s.goto t .idle).pc u = .idle ∨ (s.goto t .idle).pc u = .entering :=
    goto_forall (P := fun pc => pc = .idle ∨ pc = .entering) (.inl rfl) hout
  have hfree : ∀ u, ((s.goto t .idle).pc u).owns = false := by
    intro u
    rcases hgone u with hu | hu <;> rw [hu] <;> rfl
  constructor
  · have : tally Pc.arrived (s.goto t .idle).pc = tally Pc.arrived s.pc :=
      tally_congr fun u => by simp [Pc.arrived, hcall u]
    rwa [this]
  · intro j
    dsimp only [State.goto]
    simp [h.arrive_mem j]
  · intro j hj
    simp only [hcall]
    rcases h.pending j hj with hleave | hu
    · exact .inl (List.mem_cons_of_mem _ hleave)
    · exact .inr hu
  · refine ⟨⟨fun j hj => ?_, ?_⟩, h.ordered⟩
    · rw [hround, round_iff hn] at hj
      rw [h.arrive_mem j, hb.arrivals]
      exact hj.2
    · rw [hserial, mod_eq_last hn hlow hhigh]
  · refine ⟨b + 1, .inl ⟨hb.event, ?_, ?_, ?_, ?_, ?_⟩⟩
    · dsimp only [State.goto]
      rw [hb.arrivals, hleft, Nat.succ_mul]
    · intro u v hu
      rw [hfree u] at hu
      contradiction
    · intro u hu
      rw [hfree u] at hu
      contradiction
    · intro hzero
      dsimp only [State.goto] at hzero
      omega
    · intro u
      rcases hgone u with hu | hu <;> rw [hu] <;> trivial

lemma next_inv (hn : 0 < n) (hmax : n < 2 ^ 32) (h : Inv n s) : Inv n (next n s t) := by
  unfold next
  cases ht : s.pc t with
  | idle => exact next_idle h ht
  | entering =>
    dsimp only
    split_ifs with hlock
    · exact h
    · exact next_entering h ht (by simpa using hlock)
  | locked => exact next_locked hn h ht
  | decremented i => exact next_decremented h ht
  | last i => exact next_last h ht
  | bumped i => exact next_bumped h ht
  | early i => exact next_early h ht
  | releasing i e => exact next_releasing h ht
  | waiting i e =>
    dsimp only
    split_ifs
    · exact h.goto_waiter (.inr (.inl rfl)) (.inl ht)
    · exact h.goto_waiter (.inr (.inr rfl)) (.inl ht)
  | sleeping i e => exact h.goto_waiter (.inr (.inr rfl)) (.inr (.inl ht))
  | woken i e => exact next_woken h ht
  | leaving i x =>
    have := next_leaving hn hmax h ht
    unfold next at this
    rwa [ht] at this
  | unlocking i x => exact next_unlocking hn h ht

end

end

section
variable {n : ℕ}

lemma Ordered.allowed (h : Ordered n (later ++ e :: earlier)) : Allowed n earlier e := by
  induction later with
  | nil => exact h.1
  | cons _ later ih => exact ih h.2

lemma Ordered.serial (h : Ordered n log) (hi : .ret i x ∈ log) : x = true ↔ i % n = n - 1 := by
  obtain ⟨later, earlier, rfl⟩ := List.append_of_mem hi
  exact h.allowed.2

variable {T : Type} [Fintype T] [DecidableEq T]

lemma run_ordered (hn : 0 < n) (hmax : n < 2 ^ 32) (schedule : List T) :
    Ordered n (run n schedule).log :=
  (foldl_invariant (fun _ _ => next_inv hn hmax) schedule (start_inv hn)).ordered

/-- Barriers synchronise every round: a call returns when all calls of its round have
arrived, one call of a round is the serial one, and the calls of a round change `left`
only after all calls of the round before have left. -/
theorem rounds_synchronise (hn : 0 < n) (hmax : n < 2 ^ 32) (schedule : List T) :
    (∀ later earlier i x, (run n schedule).log = later ++ .ret i x :: earlier →
      ∀ j, j / n = i / n → .arrive j ∈ earlier) ∧
    (∀ r, (∀ j, j / n = r → ∃ x, .ret j x ∈ (run n schedule).log) →
      ∃! j, j / n = r ∧ .ret j true ∈ (run n schedule).log) ∧
    ∀ later earlier i, (run n schedule).log = later ++ .arrive i :: earlier ∨
      (run n schedule).log = later ++ .leave i :: earlier →
      ∀ j, j / n < i / n → .leave j ∈ earlier := by
  have h := run_ordered hn hmax schedule
  refine ⟨?_, ?_, ?_⟩
  · intro later earlier i x hlog
    rw [hlog] at h
    exact h.allowed.1
  · intro r hr
    have hlast : (r * n + (n - 1)) / n = r := (round_iff hn).mpr (by omega)
    refine ⟨r * n + (n - 1), ⟨hlast, ?_⟩, ?_⟩
    · obtain ⟨x, hx⟩ := hr _ hlast
      have hserial := (h.serial hx).mpr (by
        rw [Nat.add_comm, Nat.add_mul_mod_self_right, Nat.mod_eq_of_lt (by omega)])
      rwa [hserial] at hx
    · intro j ⟨hj, hret⟩
      have hmod := (h.serial hret).mp rfl
      rw [← Nat.div_add_mod' j n, hj, hmod]
  · intro later earlier i hlog
    rcases hlog with hlog | hlog
    · rw [hlog] at h
      exact h.allowed
    · rw [hlog] at h
      exact h.allowed

def twoThreads : List (Fin 2) := [0, 0, 0, 0, 0, 0, 0, 1, 1, 1, 1, 1, 1, 1, 0, 0, 0]

theorem rounds_synchronise_two : (run 2 twoThreads).log =
      [.ret 0 false, .leave 0, .ret 1 true, .leave 1, .arrive 1, .arrive 0] ∧
    ∃! j, j / 2 = 0 ∧ .ret j true ∈ (run 2 twoThreads).log := by
  have hlog : (run 2 twoThreads).log =
      [.ret 0 false, .leave 0, .ret 1 true, .leave 1, .arrive 1, .arrive 0] := by
    decide +kernel
  refine ⟨hlog, (rounds_synchronise (by decide) (by decide) twoThreads).2.1 0 ?_⟩
  intro j hj
  rw [hlog]
  obtain rfl | rfl : j = 0 ∨ j = 1 := by omega
  · exact ⟨false, by simp⟩
  · exact ⟨true, by simp⟩

end

end Eglibc.Barrier
