import Eglibc.Rwlock

/-!
# Runs of a read-write lock

A wake-up can be lost when a writer whose wait has timed out comes back to a free lock.
-/
namespace Eglibc.Rwlock
open Threads

variable {preferReader x : Bool} {result : Result} {abstime : Option Timespec} {now : Timespec}
  {unlocks : ℕ} {pc : Pc}

def Pc.queued (readers : Bool) : Pc → Bool
  | waiting k _ | sleeping k _ | woken k _ => k.isReader == readers
  | _ => false

structure Counts {T : Type} [Fintype T] (s : State T) : Prop where
  reads : ∑ t, s.reads t = s.nrReaders
  alone : s.writer ≠ none → s.nrReaders = 0
  readersQueued : s.nrReadersQueued = tally (Pc.queued true) s.pc
  writersQueued : s.nrWritersQueued = tally (Pc.queued false) s.pc
  readers_lt : s.nrReaders < 2 ^ 32
  readersQueued_lt : s.nrReadersQueued < 2 ^ 32
  writersQueued_lt : s.nrWritersQueued < 2 ^ 32

lemma start_counts {T : Type} [Fintype T] : Counts (start : State T) := by
  have hnone : ∀ r, tally (Pc.queued r) (start : State T).pc = 0 :=
    fun r => tally_eq_zero.mpr fun _ => rfl
  refine ⟨by simp [start], fun h => absurd rfl h, (hnone true).symm, (hnone false).symm, ?_, ?_, ?_⟩
  all_goals
    simp [start]

lemma wakeReader_queued (r : Bool) (pc : Pc) : pc.wakeReader.queued r = pc.queued r := by
  unfold Pc.wakeReader
  split <;> rfl

lemma wakeWriter_queued (r : Bool) (pc : Pc) : pc.wakeWriter.queued r = pc.queued r := by
  unfold Pc.wakeWriter
  split <;> rfl

section
variable {T : Type} [DecidableEq T] {s : State T} {t u : T} {pc : Pc}

@[simp] lemma goto_pc_self (s : State T) (t : T) (pc : Pc) : (s.goto t pc).pc t = pc :=
  Function.update_self _ _ _

lemma goto_pc_of_ne (pc : Pc) (h : u ≠ t) : (s.goto t pc).pc u = s.pc u :=
  Function.update_of_ne h _ _

lemma queued_of_goto (h : ((s.goto t (.out .ok)).pc u).queued writer = true) :
    u ≠ t ∧ (s.pc u).queued writer = true := by
  have hut : u ≠ t := by
    rintro rfl
    rw [goto_pc_self] at h
    contradiction
  exact ⟨hut, by rwa [goto_pc_of_ne _ hut] at h⟩

lemma readAttempt_goto (preferReader : Bool) (s : State T) (t : T) (pc : Pc) :
    readAttempt preferReader (s.goto t pc) t = readAttempt preferReader s t := by
  simp [readAttempt, State.goto]

lemma writeAttempt_goto (abstime : Option Timespec) (now : Timespec) (s : State T) (t : T)
    (pc : Pc) : writeAttempt abstime now (s.goto t pc) t = writeAttempt abstime now s t := by
  simp [writeAttempt, State.goto]

end

section
variable {T : Type} [DecidableEq T] [Fintype T] {s : State T} {t : T} {pc : Pc}

lemma Counts.goto (h : Counts s) (hpc : ∀ r, pc.queued r = (s.pc t).queued r) :
    Counts (s.goto t pc) where
  reads := h.reads
  alone := h.alone
  readersQueued := h.readersQueued.trans (tally_update_of_eq (hpc true)).symm
  writersQueued := h.writersQueued.trans (tally_update_of_eq (hpc false)).symm
  readers_lt := h.readers_lt
  readersQueued_lt := h.readersQueued_lt
  writersQueued_lt := h.writersQueued_lt

lemma sum_update (f : T → ℕ) (t : T) (x : ℕ) :
    ∑ u, Function.update f t x u + f t = ∑ u, f u + x := by
  rw [Finset.sum_update_of_mem (Finset.mem_univ t),
    ← Finset.sum_erase_add Finset.univ f (Finset.mem_univ t), Finset.sdiff_singleton_eq_erase]
  omega

lemma Counts.out (h : Counts s) (ht : s.pc t = .out result) (result' : Result) :
    Counts (s.goto t (.out result')) := by
  apply h.goto
  intro r
  rw [ht]
  rfl

lemma tally_enqueue (ht : s.pc t = .out result) (k : Kind) (v : ℕ) (r : Bool) :
    tally (Pc.queued r) (s.goto t (.waiting k v)).pc =
      tally (Pc.queued r) s.pc + (k.isReader == r).toNat := by
  have := tally_update (p := Pc.queued r) s.pc t (.waiting k v)
  rwa [ht] at this

lemma tally_dequeue (ht : s.pc t = .woken k x) (result : Result) (r : Bool) :
    tally (Pc.queued r) (s.goto t (.out result)).pc + (k.isReader == r).toNat =
      tally (Pc.queued r) s.pc := by
  have := tally_update (p := Pc.queued r) s.pc t (.out result)
  rwa [ht] at this

lemma readAttempt_counts (h : Counts s) (ht : s.pc t = .out result) :
    Counts (readAttempt preferReader s t) := by
  have hout := h.out ht
  unfold readAttempt
  split_ifs with hfree hover hself hover
  · exact hout .eagain
  · obtain ⟨hinc, hlt⟩ := increment_eq_of_ne_zero h.readers_lt hover
    have hsum := sum_update s.reads t (s.reads t + 1)
    have hreads := h.reads
    constructor
    · dsimp only
      omega
    · intro hw
      exact absurd hfree.1 hw
    · exact (hout .ok).readersQueued
    · exact (hout .ok).writersQueued
    · dsimp only
      omega
    · exact h.readersQueued_lt
    · exact h.writersQueued_lt
  · exact hout .edeadlk
  · exact hout .eagain
  · obtain ⟨hinc, hlt⟩ := increment_eq_of_ne_zero h.readersQueued_lt hover
    have htally := tally_enqueue ht .reader s.readersWakeup
    refine ⟨h.reads, h.alone, ?_, ?_, h.readers_lt, ?_, h.writersQueued_lt⟩
    · rw [htally, hinc, h.readersQueued]
      rfl
    · rw [htally]
      exact h.writersQueued
    · dsimp only
      omega

lemma writeAttempt_counts (h : Counts s)
    (ht : s.pc t = .out result) : Counts (writeAttempt abstime now s t) := by
  have hout := h.out ht
  unfold writeAttempt
  split_ifs with hfree hself hover
  · obtain ⟨hreads, -, hrq, hwq, hlt, hrlt, hwlt⟩ := hout .ok
    exact ⟨hreads, fun _ => hfree.2, hrq, hwq, hlt, hrlt, hwlt⟩
  · exact hout .edeadlk
  · cases refuse now abstime with
    | some result' => exact hout result'
    | none => exact hout .eagain
  · cases refuse now abstime with
    | some result' => exact hout result'
    | none =>
      obtain ⟨hinc, hlt⟩ := increment_eq_of_ne_zero h.writersQueued_lt hover
      have htally := tally_enqueue ht (.writer abstime) s.writerWakeup
      refine ⟨h.reads, h.alone, ?_, ?_, h.readers_lt, h.readersQueued_lt, ?_⟩
      · rw [htally]
        exact h.readersQueued
      · rw [htally, hinc, h.writersQueued]
        rfl
      · dsimp only
        omega

lemma Counts.dequeue_reader (h : Counts s) (ht : s.pc t = .woken .reader x) :
    Counts (State.goto { s with nrReadersQueued := decrement s.nrReadersQueued } t (.out .ok)) := by
  have htally := tally_dequeue ht .ok
  have hr : tally (Pc.queued true) (s.goto t (.out .ok)).pc + 1 = s.nrReadersQueued :=
    (htally true).trans h.readersQueued.symm
  have hdec := decrement_eq (x := s.nrReadersQueued) (by omega)
  have hlt := h.readersQueued_lt
  refine ⟨h.reads, h.alone, ?_, ?_, h.readers_lt, ?_, h.writersQueued_lt⟩
  · show decrement s.nrReadersQueued = tally (Pc.queued true) (s.goto t (.out .ok)).pc
    omega
  · exact h.writersQueued.trans (htally false).symm
  · show decrement s.nrReadersQueued < 2 ^ 32
    omega

lemma Counts.dequeue_writer (h : Counts s) (ht : s.pc t = .woken (.writer abstime) x) (result : Result) :
    Counts (State.goto { s with nrWritersQueued := decrement s.nrWritersQueued } t
      (.out result)) := by
  have htally := tally_dequeue ht result
  have hr : tally (Pc.queued false) (s.goto t (.out result)).pc + 1 = s.nrWritersQueued :=
    (htally false).trans h.writersQueued.symm
  have hdec := decrement_eq (x := s.nrWritersQueued) (by omega)
  have hlt := h.writersQueued_lt
  refine ⟨h.reads, h.alone, ?_, ?_, h.readers_lt, h.readersQueued_lt, ?_⟩
  · exact h.readersQueued.trans (htally true).symm
  · show decrement s.nrWritersQueued = tally (Pc.queued false) (s.goto t (.out result)).pc
    omega
  · show decrement s.nrWritersQueued < 2 ^ 32
    omega

theorem release_counts (h : Counts s) (hholds : s.writer = some t ∨ s.reads t ≠ 0) :
    Counts (release s t) := by
  have hle : s.reads t ≤ ∑ u, s.reads u :=
    Finset.single_le_sum (fun _ _ => Nat.zero_le _) (Finset.mem_univ t)
  have hreads := h.reads
  have hlt := h.readers_lt
  unfold release
  split_ifs with hw
  · exact ⟨h.reads, fun hne => absurd rfl hne, h.readersQueued, h.writersQueued, h.readers_lt,
      h.readersQueued_lt, h.writersQueued_lt⟩
  have hw : s.writer = none := not_not.mp hw
  have hpos : s.reads t ≠ 0 := by
    rcases hholds with hself | hpos
    · rw [hw] at hself
      contradiction
    · exact hpos
  have hdec := decrement_eq (x := s.nrReaders) (by omega)
  have hsum := sum_update s.reads t (s.reads t - 1)
  refine ⟨?_, fun hne => absurd hw hne, h.readersQueued, h.writersQueued, ?_,
    h.readersQueued_lt, h.writersQueued_lt⟩
  · dsimp only
    omega
  · dsimp only
    omega

lemma unlock_counts (h : Counts s) (ht : s.pc t = .out result)
    (hholds : s.writer = some t ∨ s.reads t ≠ 0) : Counts (unlock s t) := by
  have hrel := release_counts h hholds
  have hpc : (release s t).pc t = .out result := by
    unfold release
    split_ifs <;> exact ht
  have hgoto : ∀ pc : Pc, (∀ r, pc.queued r = false) → Counts ((release s t).goto t pc) := by
    intro pc hq
    apply hrel.goto
    intro r
    rw [hpc, hq r]
    rfl
  unfold unlock
  dsimp only
  split_ifs
  · obtain ⟨h₁, h₂, h₃, h₄, h₅, h₆, h₇⟩ := hgoto (.waking false) fun _ => rfl
    exact ⟨h₁, h₂, h₃, h₄, h₅, h₆, h₇⟩
  · obtain ⟨h₁, h₂, h₃, h₄, h₅, h₆, h₇⟩ := hgoto (.waking true) fun _ => rfl
    exact ⟨h₁, h₂, h₃, h₄, h₅, h₆, h₇⟩
  · exact hgoto _ fun _ => rfl
  · exact hgoto _ fun _ => rfl

lemma next_counts (h : Counts s) (a : Action T) : Counts (next preferReader s a) := by
  unfold next
  cases a with
  | rdlock t =>
    dsimp only
    split
    · next result ht => exact readAttempt_counts h ht
    · exact h
  | wrlock t | timedwrlock t abstime now =>
    dsimp only
    split
    · next result ht => exact writeAttempt_counts h ht
    · exact h
  | unlock t =>
    dsimp only
    split
    · next result ht =>
      split_ifs with hholds
      · exact unlock_counts h ht hholds
      · exact h
    · exact h
  | wait t =>
    dsimp only
    split
    · next k v ht =>
      apply h.goto
      intro r
      rw [ht]
      split_ifs <;> rfl
    · exact h
  | spurious t =>
    dsimp only
    split
    · next k v ht =>
      apply h.goto
      intro r
      rw [ht]
      rfl
    · exact h
  | expire t =>
    dsimp only
    split
    · next abstime v ht =>
      apply h.goto
      intro r
      rw [ht]
      rfl
    · exact h
  | resume t now =>
    dsimp only [resume]
    split
    · next x ht =>
      rw [← readAttempt_goto _ _ _ (.out .ok)]
      exact readAttempt_counts (h.dequeue_reader ht) (goto_pc_self _ _ _)
    · next abstime x ht =>
      split_ifs
      · exact h.dequeue_writer ht .etimedout
      · rw [← writeAttempt_goto _ _ _ _ (.out .ok)]
        exact writeAttempt_counts (h.dequeue_writer ht .ok) (goto_pc_self _ _ _)
    · exact h
  | wake t chosen =>
    dsimp only
    split
    · next ht =>
      have hall : Counts { s with pc := fun u => (s.pc u).wakeReader } := by
        refine ⟨h.reads, h.alone, ?_, ?_, h.readers_lt, h.readersQueued_lt, h.writersQueued_lt⟩
        · exact h.readersQueued.trans (tally_congr fun u => wakeReader_queued _ _).symm
        · exact h.writersQueued.trans (tally_congr fun u => wakeReader_queued _ _).symm
      apply hall.goto
      intro r
      rw [wakeReader_queued, ht]
      rfl
    · next ht =>
      split_ifs
      · apply (h.goto fun r => wakeWriter_queued r _).goto
        intro r
        by_cases htc : t = chosen
        · rw [← htc, goto_pc_self, wakeWriter_queued, ht]
          rfl
        · rw [goto_pc_of_ne _ htc, ht]
          rfl
      · exact h
    · exact h

end

/-- A thread of a kind is on its way to the lock: back from its wait, or about to find
that the counter has changed, or to be woken because it has. -/
def Underway {T : Type} (s : State T) (readers : Bool) (t : T) : Prop :=
  match s.pc t with
  | .woken k _ => k.isReader = readers
  | .waiting k v => k.isReader = readers ∧ s.word readers ≠ v
  | .sleeping k v => k.isReader = readers ∧ s.word readers ≠ v ∧ ∃ u, s.pc u = .waking readers
  | _ => False

/-- Values waited for are not ahead of the counters, and counters have seen at most `unlocks`
increments. -/
structure Waits {T : Type} (unlocks : ℕ) (s : State T) : Prop where
  stale : ∀ t k v, s.pc t = .waiting k v ∨ s.pc t = .sleeping k v → v ≤ s.word k.isReader
  words : ∀ r, s.word r ≤ unlocks

/-- While the lock is free and threads are queued, one that comes next is on its way. -/
def Alert {T : Type} (s : State T) : Prop :=
  s.writer = none → s.nrReaders = 0 →
    (s.nrWritersQueued ≠ 0 → ∃ t, Underway s false t) ∧
    (s.nrWritersQueued = 0 → ∀ t, (s.pc t).queued true = true → Underway s true t)

section
variable {T : Type} {s s' : State T} {t u : T} {r : Bool}

lemma Underway.queued (h : Underway s r t) : (s.pc t).queued r = true := by
  unfold Underway at h
  split at h
  · next hpc => simpa [hpc, Pc.queued] using h
  · next hpc => simpa [hpc, Pc.queued] using h.1
  · next hpc => simpa [hpc, Pc.queued] using h.1
  · contradiction

lemma Underway.keep (h : Underway s r t) (hpc : s'.pc t = s.pc t) (hword : s'.word r = s.word r)
    (hwaking : (∃ u, s.pc u = .waking r) → ∃ u, s'.pc u = .waking r) : Underway s' r t := by
  unfold Underway at h ⊢
  rw [hpc, hword]
  split at h
  · exact h
  · exact h
  · exact ⟨h.1, h.2.1, hwaking h.2.2⟩
  · contradiction

theorem underway_of_lt (hq : (s.pc t).queued r = true)
    (hlt : ∀ k v, s.pc t = .waiting k v ∨ s.pc t = .sleeping k v → v < s.word k.isReader)
    (hu : s.pc u = .waking r) : Underway s r t := by
  unfold Underway
  cases hpc : s.pc t with
  | out result | waking r' => rw [hpc] at hq; contradiction
  | woken k x => simpa [hpc, Pc.queued] using hq
  | waiting k v =>
    have hk : k.isReader = r := by simpa [hpc, Pc.queued] using hq
    have := hlt k v (.inl hpc)
    rw [hk] at this
    exact ⟨hk, by omega⟩
  | sleeping k v =>
    have hk : k.isReader = r := by simpa [hpc, Pc.queued] using hq
    have := hlt k v (.inr hpc)
    rw [hk] at this
    exact ⟨hk, by omega, u, hu⟩

lemma alert_of_held (h : s.writer = none → s.nrReaders ≠ 0) : Alert s :=
  fun hw hr => absurd hr (h hw)

lemma not_underway_out (ht : s.pc t = .out result) : ¬Underway s r t := by
  rw [Underway, ht]
  exact id

lemma wakeReader_waits (h : Waits unlocks s) :
    Waits unlocks { s with pc := fun u => (s.pc u).wakeReader } := by
  constructor
  · intro u k v hu
    apply h.stale u k v
    dsimp only [Pc.wakeReader] at hu
    split at hu
    · rcases hu with hu | hu <;> contradiction
    · exact hu
  · exact h.words

variable [DecidableEq T]

lemma Waits.goto (h : Waits unlocks s)
    (hstale : ∀ k v, pc = .waiting k v ∨ pc = .sleeping k v → v ≤ s.word k.isReader) :
    Waits unlocks (s.goto t pc) where
  stale := by
    intro u k v hu
    by_cases hut : u = t
    · rw [hut, goto_pc_self] at hu
      exact hstale k v hu
    · rw [goto_pc_of_ne pc hut] at hu
      exact h.stale u k v hu
  words := h.words

lemma Underway.goto (h : Underway s r u) (hut : u ≠ t) (ht : s.pc t ≠ .waking r) :
    Underway (s.goto t pc) r u := by
  apply h.keep (goto_pc_of_ne pc hut) rfl
  rintro ⟨w, hw⟩
  have hwt : w ≠ t := fun hwt => ht (by rw [← hwt, hw])
  exact ⟨w, by rw [goto_pc_of_ne pc hwt, hw]⟩

lemma Alert.goto (h : Alert s) (hq : ∀ r, pc.queued r = (s.pc t).queued r)
    (hu : ∀ r, Underway s r t → Underway (s.goto t pc) r t) (ht : ∀ r, s.pc t ≠ .waking r) :
    Alert (s.goto t pc) := by
  intro hw hr
  have hall : ∀ r u, Underway s r u → Underway (s.goto t pc) r u := by
    intro r u hur
    by_cases hut : u = t
    · rw [hut] at hur ⊢
      exact hu r hur
    · exact hur.goto hut (ht r)
  obtain ⟨hwriters, hreaders⟩ := h hw hr
  constructor
  · intro hne
    obtain ⟨u, huw⟩ := hwriters hne
    exact ⟨u, hall false u huw⟩
  · intro hzero u huq
    apply hall true u (hreaders hzero u ?_)
    by_cases hut : u = t
    · rw [hut, goto_pc_self, hq] at huq
      rwa [hut]
    · rwa [goto_pc_of_ne pc hut] at huq

lemma Waits.out (h : Waits unlocks s) (result : Result) :
    Waits unlocks (s.goto t (.out result)) := by
  apply h.goto
  rintro k v (hk | hk) <;> contradiction

lemma Waits.waiting (h : Waits unlocks s) (k : Kind) :
    Waits unlocks (s.goto t (.waiting k (s.word k.isReader))) := by
  apply h.goto
  rintro k v (hk | hk)
  · cases hk
    exact le_rfl
  · contradiction

/-- A thread that sleeps comes back from its wait. -/
lemma Alert.wake {k : Kind} {v : ℕ} (h : Alert s) (ht : s.pc t = .sleeping k v) (timedOut : Bool) :
    Alert (s.goto t (.woken k timedOut)) := by
  apply h.goto
  · intro r
    rw [ht]
    rfl
  · intro r hu
    unfold Underway at hu ⊢
    rw [ht] at hu
    simpa using hu.1
  · intro r hr
    rw [ht] at hr
    contradiction

lemma readAttempt_waits (h : Waits unlocks s) : Waits unlocks (readAttempt preferReader s t) := by
  unfold readAttempt
  split_ifs
  · exact h.out _
  · obtain ⟨h₁, h₂⟩ := h.out (t := t) .ok
    exact ⟨h₁, h₂⟩
  · exact h.out _
  · exact h.out _
  · have hwait := h.waiting (t := t) .reader
    exact ⟨hwait.stale, hwait.words⟩

lemma writeAttempt_waits (h : Waits unlocks s) : Waits unlocks (writeAttempt abstime now s t) := by
  have hwait := h.waiting (t := t) (.writer abstime)
  unfold writeAttempt
  split_ifs
  · obtain ⟨h₁, h₂⟩ := h.out (t := t) .ok
    exact ⟨h₁, h₂⟩
  · exact h.out _
  · cases refuse now abstime <;> exact h.out _
  · cases refuse now abstime
    · exact ⟨hwait.stale, hwait.words⟩
    · exact h.out _

lemma Alert.out (h : Alert s) (ht : s.pc t = .out result) (result' : Result) :
    Alert (s.goto t (.out result')) := by
  apply h.goto
  · intro r
    rw [ht]
    rfl
  · exact fun r hu => absurd hu (not_underway_out ht)
  · intro r hr
    rw [ht] at hr
    contradiction

theorem readAttempt_alert (h : Alert s) (ht : s.pc t = .out result) : Alert (readAttempt preferReader s t) := by
  unfold readAttempt
  split_ifs with hfree hover
  · exact h.out ht _
  · exact alert_of_held fun _ => hover
  · exact h.out ht _
  · exact h.out ht _
  · intro hw hr
    have hne : s.nrWritersQueued ≠ 0 := fun hzero => hfree ⟨hw, .inl hzero⟩
    refine ⟨fun _ => ?_, fun hzero => absurd hzero hne⟩
    obtain ⟨u, hu⟩ := (h hw hr).1 hne
    have hut : u ≠ t := by
      rintro rfl
      exact not_underway_out ht hu
    have hkeep : Underway (s.goto t (.waiting .reader s.readersWakeup)) false u :=
      hu.goto hut (by rw [ht]; simp)
    exact ⟨u, hkeep⟩

lemma writeAttempt_alert : Alert (writeAttempt abstime now s t) := by
  apply alert_of_held
  unfold writeAttempt
  split_ifs with hfree
  · intro hw
    contradiction
  · exact fun hw hr => hfree ⟨hw, hr⟩
  · cases refuse now abstime <;> exact fun hw hr => hfree ⟨hw, hr⟩
  · cases refuse now abstime <;> exact fun hw hr => hfree ⟨hw, hr⟩

lemma release_pc (s : State T) (t : T) : (release s t).pc = s.pc := by
  unfold release
  split_ifs <;> rfl

lemma release_word (s : State T) (t : T) (r : Bool) : (release s t).word r = s.word r := by
  unfold release
  split_ifs <;> rfl

lemma release_waits (h : Waits unlocks s) : Waits unlocks (release s t) := by
  constructor
  · intro u k v
    rw [release_pc, release_word]
    exact h.stale u k v
  · intro r
    rw [release_word]
    exact h.words r

theorem Waits.bump (h : Waits unlocks s) (hmax : unlocks + 1 < 2 ^ 32) {r : Bool}
    (s' : State T) (hpc : s'.pc = (s.goto t (.waking r)).pc)
    (hword : s'.word r = increment (s.word r)) (hother : s'.word (!r) = s.word (!r)) :
    Waits (unlocks + 1) s' ∧ ∀ u, (s'.pc u).queued r = true → Underway s' r u := by
  have hle := h.words r
  have hinc : s'.word r = s.word r + 1 := by rw [hword, increment_eq (by omega)]
  have hgoto : Waits unlocks (s.goto t (.waking r)) := by
    apply h.goto
    rintro k v (hk | hk) <;> contradiction
  have hstale : ∀ u k v, s'.pc u = .waiting k v ∨ s'.pc u = .sleeping k v →
      v ≤ s.word k.isReader := by
    intro u k v hu
    rw [hpc] at hu
    exact hgoto.stale u k v hu
  refine ⟨⟨?_, ?_⟩, ?_⟩
  · intro u k v hu
    have hv := hstale u k v hu
    by_cases hk : k.isReader = r
    · rw [hk] at hv ⊢
      omega
    have hk : k.isReader = !r := by
      cases hr : r <;> rw [hr] at hk <;> simpa using hk
    rw [hk] at hv ⊢
    rwa [hother]
  · intro r'
    by_cases hr : r' = r
    · rw [hr]
      omega
    have hr : r' = !r := by
      cases r <;> simpa using hr
    have := h.words r'
    rw [hr] at this ⊢
    omega
  · intro u hq
    apply underway_of_lt (u := t) hq
    · intro k v hu
      have hk : k.isReader = r := by
        rcases hu with hu | hu <;> simpa [hu, Pc.queued] using hq
      have hv := hstale u k v hu
      rw [hk] at hv ⊢
      omega
    · rw [hpc, goto_pc_self]

lemma Alert.dequeue_reader (h : Alert s) (ht : s.pc t = .woken .reader x) :
    Alert (State.goto { s with nrReadersQueued := decrement s.nrReadersQueued } t (.out .ok)) := by
  have hwaking : ∀ r, s.pc t ≠ .waking r := by
    intro r hr
    rw [ht] at hr
    contradiction
  intro hw hr
  obtain ⟨hwriters, hreaders⟩ := h hw hr
  constructor
  · intro hne
    obtain ⟨u, hu⟩ := hwriters hne
    have hut : u ≠ t := by
      rintro rfl
      have := hu.queued
      rw [ht] at this
      contradiction
    have hkeep : Underway (s.goto t (.out .ok)) false u := hu.goto hut (hwaking false)
    exact ⟨u, hkeep⟩
  · intro hzero u hu
    obtain ⟨hut, hu⟩ := queued_of_goto hu
    have hkeep : Underway (s.goto t (.out .ok)) true u :=
      (hreaders hzero u hu).goto hut (hwaking true)
    exact hkeep

lemma wakeReaders_alert (h : Alert s) (ht : s.pc t = .waking true) :
    Alert (State.goto { s with pc := fun u => (s.pc u).wakeReader } t (.out .ok)) := by
  have hne : ∀ {r u}, (s.pc u).queued r = true → u ≠ t := by
    rintro r u hq rfl
    rw [ht] at hq
    contradiction
  have hall : ∀ r u, Underway s r u →
      Underway (State.goto { s with pc := fun u => (s.pc u).wakeReader } t (.out .ok)) r u := by
    intro r u hu
    have hut := hne hu.queued
    have hpc : (State.goto { s with pc := fun u => (s.pc u).wakeReader } t (.out .ok)).pc u =
        (s.pc u).wakeReader := goto_pc_of_ne _ hut
    unfold Underway at hu ⊢
    rw [hpc]
    cases hsu : s.pc u with
    | out result | waking r' => rw [hsu] at hu; contradiction
    | woken k x | waiting k v => rw [hsu] at hu; exact hu
    | sleeping k v =>
      rw [hsu] at hu
      obtain ⟨hk, hword, w, hw⟩ := hu
      cases k with
      | reader => exact hk
      | writer abstime =>
        refine ⟨hk, hword, w, ?_⟩
        have hwt : w ≠ t := by
          rintro rfl
          rw [ht, ← hk] at hw
          exact absurd (Pc.waking.inj hw) (by simp [Kind.isReader])
        rw [goto_pc_of_ne _ hwt]
        dsimp only
        rw [hw]
        rfl
  intro hw hr
  obtain ⟨hwriters, hreaders⟩ := h hw hr
  constructor
  · intro hne
    obtain ⟨u, hu⟩ := hwriters hne
    exact ⟨u, hall false u hu⟩
  · intro hzero u hu
    obtain ⟨hut, hu⟩ := queued_of_goto hu
    rw [wakeReader_queued] at hu
    exact hall true u (hreaders hzero u hu)

lemma wakeWriter_of_not_sleeping (h : pc.sleepsOn false = false) : pc.wakeWriter = pc := by
  unfold Pc.wakeWriter
  split
  · contradiction
  · rfl

lemma wakeWriter_of_sleeping (h : pc.sleepsOn false = true) :
    ∃ abstime, pc.wakeWriter = .woken (.writer abstime) false := by
  cases pc with
  | sleeping k v =>
    cases k with
    | reader => contradiction
    | writer abstime => exact ⟨abstime, rfl⟩
  | _ => contradiction

lemma wakeWriter_alert (h : Alert s) (ht : s.pc t = .waking false) {chosen : T}
    (hchosen : (s.pc chosen).sleepsOn false = true ∨ ∀ u, (s.pc u).sleepsOn false = false) :
    Alert ((s.goto chosen (s.pc chosen).wakeWriter).goto t (.out .ok)) := by
  have hkeep : ∀ u, u ≠ t → (s.pc u).sleepsOn false = false →
      ((s.goto chosen (s.pc chosen).wakeWriter).goto t (.out .ok)).pc u = s.pc u := by
    intro u hut hsleep
    rw [goto_pc_of_ne _ hut]
    by_cases huc : u = chosen
    · rw [huc] at hsleep ⊢
      rw [goto_pc_self, wakeWriter_of_not_sleeping hsleep]
    · rw [goto_pc_of_ne _ huc]
  have hne : ∀ {r u}, (s.pc u).queued r = true → u ≠ t := by
    rintro r u hq rfl
    rw [ht] at hq
    contradiction
  intro hw hr
  obtain ⟨hwriters, hreaders⟩ := h hw hr
  constructor
  · intro hwq
    rcases hchosen with hsleep | hnone
    · obtain ⟨abstime, hwoken⟩ := wakeWriter_of_sleeping hsleep
      have hct : chosen ≠ t := by
        rintro rfl
        rw [ht] at hsleep
        contradiction
      refine ⟨chosen, ?_⟩
      rw [Underway, goto_pc_of_ne _ hct, goto_pc_self, hwoken]
      rfl
    obtain ⟨u, hu⟩ := hwriters hwq
    refine ⟨u, ?_⟩
    have hpc := hkeep u (hne hu.queued) (hnone u)
    -- nobody sleeps, so this one has not yet slept or is already back
    unfold Underway at hu ⊢
    rw [hpc]
    cases hsu : s.pc u with
    | sleeping k v =>
      have hsleep := hnone u
      rw [hsu] at hu hsleep
      rw [Pc.sleepsOn, hu.1] at hsleep
      contradiction
    | _ =>
      rwa [hsu] at hu
  · intro hzero u hu
    obtain ⟨hut, hu⟩ := queued_of_goto hu
    have hq : (s.pc u).queued true = true := by
      by_cases huc : u = chosen
      · rw [huc] at hu ⊢
        rwa [goto_pc_self, wakeWriter_queued] at hu
      · rwa [goto_pc_of_ne _ huc] at hu
    have hawake : (s.pc u).sleepsOn false = false := by
      cases hsu : s.pc u with
      | sleeping k v =>
        rw [hsu] at hq
        cases k with
        | reader => rfl
        | writer abstime => contradiction
      | _ => rfl
    apply (hreaders hzero u hq).keep (hkeep u hut hawake) rfl
    rintro ⟨w, hwaking⟩
    have hwt : w ≠ t := by
      rintro rfl
      rw [ht] at hwaking
      contradiction
    exact ⟨w, by rw [hkeep w hwt (by rw [hwaking]; rfl), hwaking]⟩

end

section
variable {T : Type} {s : State T}

def Shared (s : State T) : Prop := ∃ t, s.writer = some t ∧ ∃ u, s.reads u ≠ 0

/-- The lock is free, a thread sleeps on a counter that has not changed, and no thread is on
its way to the lock. -/
def Lost (s : State T) : Prop :=
  s.writer = none ∧ s.nrReaders = 0 ∧
    (∃ t k v, s.pc t = .sleeping k v ∧ s.word k.isReader = v) ∧ ∀ r t, ¬Underway s r t

lemma Counts.not_shared [Fintype T] (h : Counts s) : ¬Shared s := by
  rintro ⟨t, hw, u, hu⟩
  have hzero := h.alone (by rw [hw]; simp)
  have hle : s.reads u ≤ ∑ u, s.reads u :=
    Finset.single_le_sum (fun _ _ => Nat.zero_le _) (Finset.mem_univ u)
  rw [h.reads, hzero] at hle
  omega

lemma Alert.not_lost [Fintype T] (hc : Counts s) (h : Alert s) : ¬Lost s := by
  rintro ⟨hw, hr, ⟨t, k, v, ht, hword⟩, hnone⟩
  obtain ⟨hwriters, hreaders⟩ := h hw hr
  by_cases hzero : s.nrWritersQueued = 0
  · cases k with
    | reader =>
      have hu := hreaders hzero t (by rw [ht]; rfl)
      exact hnone true t hu
    | writer abstime =>
      have hpos : 0 < tally (Pc.queued false) s.pc := tally_pos (t := t) (by rw [ht]; rfl)
      rw [← hc.writersQueued] at hpos
      omega
  · obtain ⟨u, hu⟩ := hwriters hzero
    exact hnone false u hu

lemma start_waits : Waits 0 (start : State T) where
  stale := by
    rintro t k v (ht | ht) <;> contradiction
  words := by
    intro r
    cases r <;> exact le_rfl

lemma start_alert : Alert (start : State T) := by
  refine fun _ _ => ⟨fun hne => absurd rfl hne, fun _ t ht => ?_⟩
  contradiction

end

section
variable {T : Type} [DecidableEq T] [Fintype T] {s : State T} {t : T}

theorem unlock_alert (hc : Counts s) (h : Waits unlocks s)
    (hmax : unlocks + 1 < 2 ^ 32) (ht : s.pc t = .out result)
    (hholds : s.writer = some t ∨ s.reads t ≠ 0) :
    Waits (unlocks + 1) (unlock s t) ∧ Alert (unlock s t) := by
  have hrel := release_waits (t := t) h
  have hcounts := release_counts hc hholds
  have hgrow : ∀ {s' : State T}, Waits unlocks s' → Waits (unlocks + 1) s' :=
    fun hs' => ⟨hs'.stale, fun r => Nat.le_succ_of_le (hs'.words r)⟩
  have hqueued : ∀ r pc, pc.queued r = false →
      tally (Pc.queued r) ((release s t).goto t pc).pc = tally (Pc.queued r) (release s t).pc := by
    intro r pc hpc
    apply tally_update_of_eq
    rw [release_pc, ht, hpc]
    rfl
  unfold unlock
  dsimp only
  split_ifs with hreaders hwriters hwaiting
  · obtain ⟨hwaits, hunderway⟩ := hrel.bump hmax (t := t) (r := false)
      { (release s t).goto t (.waking false) with
        writerWakeup := increment (release s t).writerWakeup } rfl rfl rfl
    refine ⟨hwaits, fun _ _ => ⟨fun _ => ?_, fun hzero => absurd hzero hwriters⟩⟩
    rw [hcounts.writersQueued, ← hqueued false (.waking false) rfl] at hwriters
    obtain ⟨u, hu⟩ := exists_of_tally_pos (Nat.pos_of_ne_zero hwriters)
    exact ⟨u, hunderway u hu⟩
  · obtain ⟨hwaits, hunderway⟩ := hrel.bump hmax (t := t) (r := true)
      { (release s t).goto t (.waking true) with
        readersWakeup := increment (release s t).readersWakeup } rfl rfl rfl
    exact ⟨hwaits, fun _ _ => ⟨fun hne => absurd hne hwriters, fun _ => hunderway⟩⟩
  · refine ⟨hgrow (hrel.out _), fun _ _ => ⟨fun hne => absurd hne hwriters, fun _ u hu => ?_⟩⟩
    have hnone : tally (Pc.queued true) ((release s t).goto t (.out .ok)).pc = 0 := by
      rw [hqueued true _ rfl, ← hcounts.readersQueued]
      exact not_not.mp hwaiting
    rw [tally_eq_zero.mp hnone u] at hu
    contradiction
  · exact ⟨hgrow (hrel.out _), alert_of_held fun _ => hreaders⟩

end

section
variable {T : Type} [DecidableEq T] [Fintype T] {s : State T} {t : T}

def Action.isUnlock : Action T → Bool
  | unlock _ => true
  | _ => false

def Pc.timedOut : Pc → Bool
  | woken (.writer _) timedOut => timedOut
  | _ => false

/-- A writer whose wait has timed out comes back while the lock is held, not after an unlock
that was meant for it. -/
def BackInTime (s : State T) : Action T → Prop
  | .resume t _ => (s.pc t).timedOut = true → s.writer = none → s.nrReaders ≠ 0
  | _ => True

instance (s : State T) : (a : Action T) → Decidable (BackInTime s a)
  | .resume _ _ => inferInstanceAs (Decidable (_ → _ → _))
  | .rdlock _ | .wrlock _ | .timedwrlock .. | .unlock _ | .wait _ | .spurious _ | .expire _ | .wake .. =>
    isTrue trivial

/-- Every action of the run does so, in the state that it is taken in. -/
def AllBackInTime (preferReader : Bool) : State T → List (Action T) → Prop
  | _, [] => True
  | s, a :: actions => BackInTime s a ∧ AllBackInTime preferReader (next preferReader s a) actions

instance decidableAllBackInTime (preferReader : Bool) (s : State T) : (actions : List (Action T)) →
    Decidable (AllBackInTime preferReader s actions)
  | [] => isTrue trivial
  | a :: actions =>
    have := decidableAllBackInTime preferReader (next preferReader s a) actions
    inferInstanceAs (Decidable (_ ∧ _))

lemma next_alert (preferReader : Bool) (hc : Counts s) (hw : Waits unlocks s)
    (ha : Alert s) {a : Action T} (hback : BackInTime s a)
    (hmax : unlocks + a.isUnlock.toNat < 2 ^ 32) :
    Waits (unlocks + a.isUnlock.toNat) (next preferReader s a) ∧
      Alert (next preferReader s a) := by
  unfold next
  cases a with
  | rdlock t =>
    dsimp only
    split
    · next result ht => exact ⟨readAttempt_waits hw, readAttempt_alert ha ht⟩
    · exact ⟨hw, ha⟩
  | wrlock t | timedwrlock t abstime now =>
    dsimp only
    split
    · exact ⟨writeAttempt_waits hw, writeAttempt_alert⟩
    · exact ⟨hw, ha⟩
  | unlock t =>
    have hgrow : Waits (unlocks + 1) s :=
      ⟨hw.stale, fun r => Nat.le_succ_of_le (hw.words r)⟩
    dsimp only
    split
    · next result ht =>
      split_ifs with hholds
      · exact unlock_alert hc hw hmax ht hholds
      · exact ⟨hgrow, ha⟩
    · exact ⟨hgrow, ha⟩
  | wait t =>
    dsimp only
    split
    · next k v ht =>
      have hv := hw.stale t k v (.inl ht)
      constructor
      · apply hw.goto
        intro k' v' hk
        split_ifs at hk with hword
        · rcases hk with hk | hk
          · contradiction
          · cases hk
            exact hv
        · rcases hk with hk | hk <;> contradiction
      · apply ha.goto
        · intro r
          rw [ht]
          split_ifs <;> rfl
        · intro r hu
          unfold Underway at hu ⊢
          rw [ht] at hu
          obtain ⟨hk, hword⟩ := hu
          rwa [goto_pc_self, if_neg (by rwa [hk])]
        · intro r hr
          rw [ht] at hr
          contradiction
    · exact ⟨hw, ha⟩
  | spurious t =>
    dsimp only
    split
    · next k v ht =>
      constructor
      · apply hw.goto
        rintro k' v' (hk | hk) <;> contradiction
      · exact ha.wake ht false
    · exact ⟨hw, ha⟩
  | expire t =>
    dsimp only
    split
    · next abstime v ht =>
      constructor
      · apply hw.goto
        rintro k' v' (hk | hk) <;> contradiction
      · exact ha.wake ht true
    · exact ⟨hw, ha⟩
  | resume t now =>
    dsimp only [resume]
    split
    · next x ht =>
      have hout := hw.out (t := t) .ok
      rw [← readAttempt_goto _ _ _ (.out .ok)]
      refine ⟨readAttempt_waits ⟨hout.stale, hout.words⟩, ?_⟩
      exact readAttempt_alert (ha.dequeue_reader ht) (goto_pc_self _ _ _)
    · next abstime x ht =>
      cases x with
      | true =>
        have hout := hw.out (t := t) .etimedout
        rw [BackInTime, ht] at hback
        exact ⟨⟨hout.stale, hout.words⟩, alert_of_held (hback rfl)⟩
      | false => exact ⟨writeAttempt_waits ⟨hw.stale, hw.words⟩, writeAttempt_alert⟩
    · exact ⟨hw, ha⟩
  | wake t chosen =>
    dsimp only
    split
    · next ht => exact ⟨(wakeReader_waits hw).out _, wakeReaders_alert ha ht⟩
    · next ht =>
      split_ifs with hchosen
      · refine ⟨Waits.out ?_ _, wakeWriter_alert ha ht hchosen⟩
        apply hw.goto
        intro k v hk
        apply hw.stale chosen k v
        unfold Pc.wakeWriter at hk
        split at hk
        · rcases hk with hk | hk <;> contradiction
        · exact hk
      · exact ⟨hw, ha⟩
    · exact ⟨hw, ha⟩

lemma run_counts (preferReader : Bool) (actions : List (Action T)) :
    Counts (run preferReader actions) := by
  exact foldl_invariant (I := Counts) (fun _ a h => next_counts h a) actions start_counts

lemma foldl_alert (preferReader : Bool) (actions : List (Action T)) (hc : Counts s)
    (hw : Waits unlocks s) (ha : Alert s) (hback : AllBackInTime preferReader s actions)
    (hmax : unlocks + actions.countP Action.isUnlock < 2 ^ 32) :
    Alert (actions.foldl (next preferReader) s) := by
  induction actions generalizing s unlocks with
  | nil => exact ha
  | cons a actions ih =>
    rw [List.countP_cons] at hmax
    have hsplit : a.isUnlock.toNat = if a.isUnlock = true then 1 else 0 := by
      cases a.isUnlock <;> rfl
    obtain ⟨hw', ha'⟩ := next_alert preferReader hc hw ha hback.1 (by omega)
    exact ih (next_counts hc a) hw' ha' hback.2 (by omega)

/-- In every run a writer is alone. In a run in which writers whose waits have timed out come
back while the lock is held, and the counters do not go round, no wake-up is lost. -/
theorem excludes_and_wakes (preferReader : Bool) (actions : List (Action T)) :
    ¬Shared (run preferReader actions) ∧
      (AllBackInTime preferReader start actions → actions.countP Action.isUnlock < 2 ^ 32 →
        ¬Lost (run preferReader actions)) := by
  have hcounts := run_counts preferReader actions
  refine ⟨hcounts.not_shared, fun hback hmax => ?_⟩
  apply Alert.not_lost hcounts
  exact foldl_alert preferReader actions start_counts start_waits start_alert hback
    (by rwa [Nat.zero_add])

end

local instance threeThreads : NeZero 3 := ⟨by decide⟩

/-- A reader waits behind a writer, another writer gives up in time, and the reader is
woken and gets the lock. -/
def givesUp : List (Action (Fin 3)) :=
  [.wrlock 0, .timedwrlock 2 ⟨10, 0⟩ ⟨0, 0⟩, .wait 2, .rdlock 1, .wait 1, .expire 2, .resume 2 ⟨10, 0⟩,
    .unlock 0, .wake 0 1, .resume 1 ⟨10, 0⟩]

theorem excludes_and_wakes_reader : ¬Lost (run false givesUp) ∧ ¬Lost (run true givesUp) :=
  ⟨(excludes_and_wakes false givesUp).2 (by decide +kernel) (by decide),
    (excludes_and_wakes true givesUp).2 (by decide +kernel) (by decide)⟩

/-- Thread 0 holds the lock for writing, thread 1 waits for it with a time limit and thread
2 waits for reading. The unlock is for thread 1, which has just timed out. -/
def timedOutWriter : List (Action (Fin 3)) :=
  [.wrlock 0, .timedwrlock 1 ⟨10, 0⟩ ⟨0, 0⟩, .wait 1, .rdlock 2, .wait 2, .expire 1, .unlock 0,
    .wake 0 1, .resume 1 ⟨10, 0⟩]

lemma timedOutWriter_run (preferReader : Bool) : Lost (run preferReader timedOutWriter) ∧
      (run preferReader timedOutWriter).pc 0 = .out .ok ∧
      (run preferReader timedOutWriter).pc 1 = .out .etimedout := by
  have hrun : (run preferReader timedOutWriter).writer = none ∧
      (run preferReader timedOutWriter).nrReaders = 0 ∧
      (run preferReader timedOutWriter).pc 0 = .out .ok ∧
      (run preferReader timedOutWriter).pc 1 = .out .etimedout ∧
      (run preferReader timedOutWriter).pc 2 = .sleeping .reader 0 ∧
      (run preferReader timedOutWriter).word true = 0 := by
    cases preferReader <;> decide +kernel
  obtain ⟨hwriter, hreaders, h₀, h₁, h₂, hword⟩ := hrun
  refine ⟨⟨hwriter, hreaders, ⟨2, .reader, 0, h₂, hword⟩, ?_⟩, h₀, h₁⟩
  intro r t
  fin_cases t
  · exact not_underway_out h₀
  · exact not_underway_out h₁
  · intro hu
    unfold Underway at hu
    rw [show (⟨2, by decide⟩ : Fin 3) = 2 from rfl, h₂] at hu
    obtain ⟨hr, hne, -⟩ := hu
    rw [← hr] at hne
    exact hne hword

/-- The reader is lost whichever side is preferred. -/
theorem timedOutWriter_lost : Lost (run false timedOutWriter) ∧ Lost (run true timedOutWriter) :=
  ⟨(timedOutWriter_run false).1, (timedOutWriter_run true).1⟩

end Eglibc.Rwlock
