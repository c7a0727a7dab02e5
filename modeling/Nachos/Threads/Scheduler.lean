import Nachos.Threads.Semaphore

namespace Nachos.Threads

open Base Lib Function

/-!
# Threads — the scheduler

`Thread::Fork`, `Yield`, `Sleep`, `Begin` and `Finish` of `threads/thread.cc`, the dispatcher of
`threads/scheduler.cc` and the semaphores they meet in. All of this runs with interrupts off,
so a step lasts until the code gives the processor away, idles, or turns interrupts on again.

A thread that calls `Sleep` stays `currentThread` while it looks for somebody to run. If nobody
is ready it idles, and the interrupt handlers that run then may make any thread ready, the
sleeping one included. `CpuPhase` tells these moments apart; `switched` is the moment after
`SWITCH`, when the new thread has not yet looked at `toBeDestroyed`.

* `schedSystem` — any number of threads and semaphores, interrupt handlers included;
* `SchedState.Inv` — each thread is where its program counter says, once;
* `scheduler_invariant` — what follows for the lists, the statuses and the destruction of
  finished threads;
* `ready_threads_run_in_order` — no thread overtakes another one that is ready.
-/

/-! ### The model -/

/-- `ThreadStatus`. -/
inductive ThreadStatus where
  | justCreated
  | running
  | ready
  | blocked
  deriving DecidableEq

/-- Where a thread is in the code of the scheduler. -/
inductive ThreadPc (S : Type*) where
  /-- `Fork` has not been called on it. -/
  | unborn
  /-- Forked: `SWITCH` will enter `ThreadRoot`, which calls `Begin`. -/
  | starting
  /-- In code of its own. -/
  | user
  /-- In `Yield`, inside `Run`. -/
  | yielding
  /-- In the `Sleep` of `P` on a semaphore. -/
  | waiting (x : S)
  /-- In the `Sleep` of `Finish`. -/
  | finishing
  /-- Its object has been deleted. -/
  | dead
  deriving DecidableEq

/-- What the processor is doing. -/
inductive CpuPhase where
  /-- It runs code of `currentThread`. -/
  | running
  /-- `currentThread` is at the test of the loop in `Sleep`. -/
  | sleeping
  /-- `currentThread` is in `Idle`. -/
  | idling
  /-- `SWITCH` has just entered `currentThread`. -/
  | switched
  deriving DecidableEq

/-- The threads, the scheduler and the semaphores. -/
structure SchedState (T S : Type*) where
  status : T → ThreadStatus
  pc : T → ThreadPc S
  readyList : List T
  toBeDestroyed : Option T
  currentThread : T
  phase : CpuPhase
  sem : S → Semaphore T
  /-- The threads deleted so far. -/
  deleted : List T

/-- What can happen next. -/
inductive SchedAction (T S : Type*) where
  /-- The current thread calls `Fork` on a new thread. -/
  | fork (u : T)
  /-- The current thread calls `Yield`, or a time slice makes it. -/
  | yield
  /-- The current thread calls `P`. -/
  | p (x : S)
  /-- The current thread calls `V`. -/
  | v (x : S)
  /-- An interrupt handler calls `V`. -/
  | interrupt (x : S)
  /-- The current thread calls `Finish`. -/
  | finish
  /-- One test of the loop in `Sleep`. -/
  | sleepLoop
  /-- `Idle` returns. -/
  | idleReturn
  /-- The thread that `SWITCH` has entered goes on. -/
  | resume

namespace SchedState

variable {T S : Type*} [DecidableEq T] [DecidableEq S]

/-- `Scheduler::ReadyToRun`. -/
def readyToRun (s : SchedState T S) (t : T) : Option (SchedState T S) :=
  (append s.readyList t).map fun l =>
    { s with status := update s.status t .ready, readyList := l }

/-- `Scheduler::Run`, up to the return of `SWITCH` in the new thread. -/
def run (s : SchedState T S) (nextThread : T) (finishing : Bool) : Outcome (SchedState T S) :=
  -- `ASSERT(toBeDestroyed == NULL)`
  if finishing = true ∧ s.toBeDestroyed ≠ none then .fault
  else
    .next { s with
      toBeDestroyed := if finishing then some s.currentThread else s.toBeDestroyed
      currentThread := nextThread
      status := update s.status nextThread .running
      phase := .switched }

/-- `Scheduler::CheckToBeDestroyed`. -/
def checkToBeDestroyed (s : SchedState T S) : Option (SchedState T S) :=
  match s.toBeDestroyed with
  | none => some s
  | some d =>
    -- `ASSERT(this != kernel->currentThread)` in `Thread::~Thread`
    if d = s.currentThread then none
    else some { s with
      toBeDestroyed := none
      pc := update s.pc d .dead
      deleted := s.deleted ++ [d] }

/-- `Thread::Fork` on the thread `u`. -/
def fork (s : SchedState T S) (u : T) : Outcome (SchedState T S) :=
  if s.phase = .running ∧ s.pc u = .unborn then
    match s.readyToRun u with
    | none => .fault
    | some s' => .next { s' with pc := update s'.pc u .starting }
  else .disabled

/-- `Thread::Yield`. -/
def yield (s : SchedState T S) : Outcome (SchedState T S) :=
  if s.phase = .running then
    match removeFront s.readyList with
    | none => .next s
    | some (nextThread, l) =>
      match ({ s with
          readyList := l
          pc := update s.pc s.currentThread .yielding } : SchedState T S).readyToRun
            s.currentThread with
      | none => .fault
      | some s' => s'.run nextThread false
  else .disabled

/-- One pass through the loop of `Semaphore::P`: it returns, or the thread starts to sleep. -/
def pTest (s : SchedState T S) (x : S) : Outcome (SchedState T S) :=
  match (s.sem x).pTest s.currentThread with
  | none => .fault
  | some (sem, true) =>
    .next { s with
      sem := update s.sem x sem
      pc := update s.pc s.currentThread .user
      phase := .running }
  | some (sem, false) =>
    .next { s with
      sem := update s.sem x sem
      pc := update s.pc s.currentThread (.waiting x)
      status := update s.status s.currentThread .blocked
      phase := .sleeping }

/-- `Semaphore::V`. -/
def v (s : SchedState T S) (x : S) : Outcome (SchedState T S) :=
  match (s.sem x).v with
  | (sem, none) => .next { s with sem := update s.sem x sem }
  | (sem, some u) =>
    match ({ s with sem := update s.sem x sem } : SchedState T S).readyToRun u with
    | none => .fault
    | some s' => .next s'

/-- `Thread::Finish`, up to the loop in `Sleep`. -/
def finish (s : SchedState T S) : SchedState T S :=
  { s with
    pc := update s.pc s.currentThread .finishing
    status := update s.status s.currentThread .blocked
    phase := .sleeping }

/-- One test of the loop in `Thread::Sleep`. -/
def sleepLoop (s : SchedState T S) : Outcome (SchedState T S) :=
  match removeFront s.readyList with
  | none => .next { s with phase := .idling }
  | some (nextThread, l) =>
    ({ s with readyList := l } : SchedState T S).run nextThread
      (s.pc s.currentThread = .finishing)

/-- What a thread does when `SWITCH` has entered it: the rest of `Run`, or `Begin`. -/
def resume (s : SchedState T S) : Outcome (SchedState T S) :=
  match s.checkToBeDestroyed with
  | none => .fault
  | some s' =>
    match s'.pc s'.currentThread with
    | .starting | .yielding =>
      .next { s' with pc := update s'.pc s'.currentThread .user, phase := .running }
    | .waiting x => s'.pTest x
    -- A thread without a stack, or one that has finished.
    | _ => .fault

/-- One step. -/
def next (s : SchedState T S) : SchedAction T S → Outcome (SchedState T S)
  | .fork u => s.fork u
  | .yield => s.yield
  | .p x => if s.phase = .running then s.pTest x else .disabled
  | .v x => if s.phase = .running then s.v x else .disabled
  -- Handlers run where interrupts are enabled, and in `Idle`.
  | .interrupt x => if s.phase = .running ∨ s.phase = .idling then s.v x else .disabled
  | .finish => if s.phase = .running then .next s.finish else .disabled
  | .sleepLoop => if s.phase = .sleeping then s.sleepLoop else .disabled
  | .idleReturn => if s.phase = .idling then .next { s with phase := .sleeping } else .disabled
  | .resume => if s.phase = .switched then s.resume else .disabled

/-- The state when the kernel has been initialised by the thread `main`. -/
structure Start (main : T) (s : SchedState T S) : Prop where
  current : s.currentThread = main
  phase : s.phase = .running
  status : s.status = update (fun _ => .justCreated) main .running
  pc : s.pc = update (fun _ => .unborn) main .user
  readyList : s.readyList = []
  toBeDestroyed : s.toBeDestroyed = none
  queue : ∀ x, (s.sem x).queue = []
  deleted : s.deleted = []

end SchedState

/-- Any number of threads and semaphores on one processor. -/
def schedSystem (T S : Type*) [DecidableEq T] [DecidableEq S] (main : T) :
    LTS (SchedState T S) (SchedAction T S) where
  init := SchedState.Start main
  next := SchedState.next

/-! ### The invariant -/

namespace SchedState

variable {T S : Type*}

/-- The pairs of program counter and status of a thread that does not have the processor. -/
inductive Rest : ThreadPc S → ThreadStatus → Prop where
  | unborn : Rest .unborn .justCreated
  | starting : Rest .starting .ready
  | yielding : Rest .yielding .ready
  | asleep (x : S) : Rest (.waiting x) .blocked
  | woken (x : S) : Rest (.waiting x) .ready
  | finishing : Rest .finishing .blocked
  | dead : Rest .dead .blocked

/-- The same for `currentThread`, which may be asleep, or woken already, until it has found
another thread. -/
inductive Active : CpuPhase → ThreadPc S → ThreadStatus → Prop where
  | running : Active .running .user .running
  | sleeping {c st} : Rest c st → c = .finishing ∨ (∃ x, c = .waiting x) → Active .sleeping c st
  | idling {c st} : Rest c st → c = .finishing ∨ (∃ x, c = .waiting x) → Active .idling c st
  | starting : Active .switched .starting .running
  | yielding : Active .switched .yielding .running
  | waiting (x : S) : Active .switched (.waiting x) .running

variable {c : ThreadPc S} {st : ThreadStatus} {ph : CpuPhase} {a : SchedAction T S}

theorem Rest.ne_running (h : Rest c st) : st ≠ .running := by
  cases h <;> nofun

theorem Rest.of_ready (h : Rest c .ready) : Active .switched c .running := by
  cases h with
  | starting => exact .starting
  | yielding => exact .yielding
  | woken x => exact .waiting x

theorem Rest.of_unborn (h : Rest (.unborn : ThreadPc S) st) :
    st = .justCreated := by
  cases h; rfl

theorem Active.wake {x : S} (h : Active ph (.waiting x) .blocked) :
    Active ph (.waiting x) .ready := by
  cases h with
  | sleeping _ hc => exact .sleeping (.woken x) hc
  | idling _ hc => exact .idling (.woken x) hc

theorem Rest.of_finishing (h : Rest (.finishing : ThreadPc S) st) :
    st = .blocked := by
  cases h; rfl

theorem Active.of_sleeping (h : Active .sleeping c st) :
    Rest c st ∧ (c = .finishing ∨ ∃ x, c = .waiting x) := by
  cases h with
  | sleeping hr hc => exact ⟨hr, hc⟩

theorem Active.of_idling (h : Active .idling c st) :
    Rest c st ∧ (c = .finishing ∨ ∃ x, c = .waiting x) := by
  cases h with
  | idling hr hc => exact ⟨hr, hc⟩

theorem Active.of_switched (h : Active .switched c st) :
    st = .running ∧ (c = .starting ∨ c = .yielding ∨ ∃ x, c = .waiting x) := by
  cases h <;> simp

theorem Rest.of_dead (h : Rest (.dead : ThreadPc S) st) : st = .blocked := by
  cases h; rfl

theorem Rest.of_blocked (h : Rest c .blocked) :
    (∃ x, c = .waiting x) ∨ c = .finishing ∨ c = .dead := by
  cases h <;> simp

theorem Active.of_blocked (h : Active ph c .blocked) :
    Rest c .blocked := by
  cases h <;> assumption

theorem Active.of_finishing
    (h : Active ph (.finishing : ThreadPc S) st) : ph = .sleeping ∨ ph = .idling := by
  cases h <;> simp

theorem Active.not_dead :
    ¬ Active ph (.dead : ThreadPc S) st := by
  intro h
  cases h <;> simp_all

theorem Active.of_running (h : Active .running c st) :
    c = .user ∧ st = .running := by
  cases h; exact ⟨rfl, rfl⟩

/-- No list holds a thread twice. -/
structure Distinct (s : SchedState T S) : Prop where
  ready : s.readyList.Nodup
  queue : ∀ x, (s.sem x).queue.Nodup
  deleted : s.deleted.Nodup

/-- A thread is on the lists its status and program counter say. -/
structure Listed (s : SchedState T S) (t : T) : Prop where
  ready : t ∈ s.readyList ↔ s.status t = .ready
  queue : ∀ x, t ∈ (s.sem x).queue ↔ s.status t = .blocked ∧ s.pc t = .waiting x
  deleted : t ∈ s.deleted ↔ s.pc t = .dead

/-- The lists hold the threads they should hold, once. -/
structure Lists (s : SchedState T S) : Prop where
  distinct : s.Distinct
  listed : ∀ t, s.Listed t

/-- The invariant of the scheduler. -/
structure Inv (s : SchedState T S) : Prop where
  lists : s.Lists
  active : Active s.phase (s.pc s.currentThread) (s.status s.currentThread)
  rest : ∀ t, t ≠ s.currentThread → Rest (s.pc t) (s.status t)
  toBeDestroyed_iff : ∀ t, s.toBeDestroyed = some t ↔ s.pc t = .finishing ∧ t ≠ s.currentThread
  toBeDestroyed_none : s.phase ≠ .switched → s.toBeDestroyed = none

/-- Nothing that concerns a thread other than `t` differs. -/
structure SameBut (t : T) (s s' : SchedState T S) : Prop where
  status : ∀ u, u ≠ t → s'.status u = s.status u
  pc : ∀ u, u ≠ t → s'.pc u = s.pc u
  ready : ∀ u, u ≠ t → (u ∈ s'.readyList ↔ u ∈ s.readyList)
  queue : ∀ x u, u ≠ t → (u ∈ (s'.sem x).queue ↔ u ∈ (s.sem x).queue)
  deleted : ∀ u, u ≠ t → (u ∈ s'.deleted ↔ u ∈ s.deleted)

variable {s s' : SchedState T S} {t : T}

/-- The lists stay right when one thread moves and they follow it. -/
theorem Lists.move (h : s.Lists) (hb : SameBut t s s') (hd : s'.Distinct) (ht : s'.Listed t) :
    s'.Lists := by
  refine ⟨hd, fun u => ?_⟩
  by_cases hu : u = t
  · rw [hu]; exact ht
  · obtain ⟨hr, hq, hdel⟩ := h.listed u
    refine ⟨?_, fun x => ?_, ?_⟩
    · rw [hb.ready u hu, hb.status u hu]; exact hr
    · rw [hb.queue x u hu, hb.status u hu, hb.pc u hu]; exact hq x
    · rw [hb.deleted u hu, hb.pc u hu]; exact hdel

/-- No other thread is finishing. -/
theorem Inv.eq_of_finishing (h : s.Inv) (htbd : s.toBeDestroyed = none) (hf : s.pc t = .finishing) :
    t = s.currentThread := by
  by_contra hne
  have hsome := (h.toBeDestroyed_iff t).mpr ⟨hf, hne⟩
  rw [htbd] at hsome
  cases hsome

/-- The invariant survives the move of one thread that leaves the processor where it is. -/
theorem Inv.move (h : s.Inv) (htbd : s.toBeDestroyed = none)
    (hcur : s'.currentThread = s.currentThread) (htbd' : s'.toBeDestroyed = s.toBeDestroyed)
    (hb : SameBut t s s') (hd : s'.Distinct) (ht : s'.Listed t)
    (ha : Active s'.phase (s'.pc s.currentThread) (s'.status s.currentThread))
    (hr : t ≠ s.currentThread → Rest (s'.pc t) (s'.status t) ∧ s'.pc t ≠ .finishing) :
    s'.Inv := by
  refine ⟨h.lists.move hb hd ht, hcur ▸ ha, fun u hu => ?_, fun u => ?_,
    fun _ => htbd'.trans htbd⟩
  · rw [hcur] at hu
    by_cases hut : u = t
    · subst hut; exact (hr hu).1
    · rw [hb.pc u hut, hb.status u hut]; exact h.rest u hu
  · rw [htbd', hcur]
    by_cases hut : u = t
    · subst hut
      simp only [htbd, reduceCtorEq, false_iff, not_and]
      exact fun hf hu => (hr hu).2 hf
    · rw [hb.pc u hut]
      exact h.toBeDestroyed_iff u

theorem Inv.setPhase (h : s.Inv)
    (ha : Active ph (s.pc s.currentThread) (s.status s.currentThread))
    (hnone : s.toBeDestroyed = none) : ({ s with phase := ph } : SchedState T S).Inv := by
  obtain ⟨hr, hq, hd⟩ := h.lists.distinct
  refine ⟨⟨⟨hr, hq, hd⟩, fun t => ?_⟩, ha, h.rest, h.toBeDestroyed_iff, fun _ => hnone⟩
  obtain ⟨htr, htq, htd⟩ := h.lists.listed t
  exact ⟨htr, htq, htd⟩

theorem Inv.of_running (h : s.Inv) (hph : s.phase = .running) :
    s.pc s.currentThread = .user ∧ s.status s.currentThread = .running ∧
      s.toBeDestroyed = none := by
  obtain ⟨hpc, hst⟩ := Active.of_running (hph ▸ h.active)
  exact ⟨hpc, hst, h.toBeDestroyed_none (by rw [hph]; nofun)⟩

theorem Inv.notMem_of_running (h : s.Inv) (hst : s.status t = .running) :
    t ∉ s.readyList ∧ ∀ x, t ∉ (s.sem x).queue := by
  obtain ⟨hr, hq, -⟩ := h.lists.listed t
  exact ⟨by rw [hr, hst]; nofun, fun x => by rw [hq, hst]; nofun⟩

/-! ### What each operation keeps -/

variable [DecidableEq T] [DecidableEq S]

omit [DecidableEq T] in
/-- A change of its value leaves the queue of a semaphore alone. -/
theorem queue_setValue (sem : S → Semaphore T) (x y : S) (v : Int) :
    (update sem x { sem x with value := v } y).queue = (sem y).queue := by
  by_cases hy : y = x <;> simp [hy]

/-- A new thread goes to the end of the ready list. -/
theorem Inv.fork (h : s.Inv) (u : T) : (s.fork u).Meets Inv := by
  apply Outcome.Meets.ite
  rintro ⟨hph, hu⟩
  obtain ⟨hpc, -, htbd⟩ := h.of_running hph
  have hne : u ≠ s.currentThread := by rintro rfl; rw [hpc] at hu; cases hu
  have hjust : s.status u = .justCreated := Rest.of_unborn (hu ▸ h.rest u hne)
  have hnot : u ∉ s.readyList := by rw [(h.lists.listed u).ready, hjust]; nofun
  simp only [readyToRun, append_of_notMem hnot, Option.map_some, Outcome.meets_next]
  refine h.move (t := u) htbd rfl rfl ?_ ?_ ?_ ?_ ?_
  · constructor <;> intros <;> simp_all
  · exact ⟨nodup_append_singleton h.lists.distinct.ready hnot, h.lists.distinct.queue,
      h.lists.distinct.deleted⟩
  · obtain ⟨-, hq, hd⟩ := h.lists.listed u
    constructor <;> simp_all
  · simpa [hne.symm] using h.active
  · exact fun _ => ⟨by simpa using Rest.starting, by simp⟩

/-- The test of `P` by a thread that has the processor: it goes on, or it joins the queue. -/
theorem Inv.pTest (h : s.Inv) (hst : s.status s.currentThread = .running)
    (htbd : s.toBeDestroyed = none) (hdead : s.pc s.currentThread ≠ .dead) (x : S) :
    (s.pTest x).Meets Inv := by
  obtain ⟨hnr, hnq⟩ := h.notMem_of_running hst
  have hdel : s.currentThread ∉ s.deleted := by rwa [(h.lists.listed _).deleted]
  rcases Semaphore.pTest_cases (hnq x) with ⟨-, hp⟩ | ⟨-, hp⟩
  · simp only [SchedState.pTest, hp, Outcome.meets_next]
    refine h.move htbd rfl rfl ?_ ?_ ?_ ?_ (absurd rfl)
    · constructor
      case queue =>
        intro y u hu
        by_cases hy : y = x <;> simp [hy, hu]
      all_goals intros; simp_all
    · refine ⟨h.lists.distinct.ready, fun y => ?_, h.lists.distinct.deleted⟩
      by_cases hy : y = x
      · simpa [hy] using nodup_append_singleton (h.lists.distinct.queue x) (hnq x)
      · simpa [hy] using h.lists.distinct.queue y
    · constructor
      · simpa using hnr
      · intro y
        by_cases hy : y = x
        · simp [hy]
        · simp [hy, hnq y, Ne.symm hy]
      · simpa using hdel
    · simpa using Active.sleeping (Rest.asleep x) (.inr ⟨x, rfl⟩)
  · simp only [SchedState.pTest, hp, Outcome.meets_next]
    refine h.move htbd rfl rfl ?_ ?_ ?_ ?_ (absurd rfl)
    · constructor <;> intros <;> simp_all [queue_setValue]
    · refine ⟨h.lists.distinct.ready, fun y => ?_, h.lists.distinct.deleted⟩
      rw [queue_setValue]
      exact h.lists.distinct.queue y
    · constructor
      · simpa [hst] using hnr
      · intro y; simp [queue_setValue, hnq y]
      · simpa using hdel
    · simpa [hst] using Active.running

/-- `V` moves the longest waiter from the queue to the ready list. -/
theorem Inv.v (h : s.Inv) (htbd : s.toBeDestroyed = none) (x : S) : (s.v x).Meets Inv := by
  cases hq : (s.sem x).queue with
  | nil =>
    simp only [SchedState.v, Semaphore.v_nil hq, Outcome.meets_next]
    refine h.move htbd rfl rfl ?_ ?_ ?_ ?_ (absurd rfl)
    · refine ⟨fun _ _ => rfl, fun _ _ => rfl, fun _ _ => Iff.rfl, fun y u _ => ?_,
        fun _ _ => Iff.rfl⟩
      rw [queue_setValue]
    · refine ⟨h.lists.distinct.ready, fun y => ?_, h.lists.distinct.deleted⟩
      rw [queue_setValue]
      exact h.lists.distinct.queue y
    · obtain ⟨hr, hqs, hd⟩ := h.lists.listed s.currentThread
      refine ⟨hr, fun y => ?_, hd⟩
      rw [queue_setValue]
      exact hqs y
    · exact h.active
  | cons u rest =>
    obtain ⟨hst, hpc⟩ := ((h.lists.listed u).queue x).mp (by simp [hq])
    have hnd : u ∉ rest ∧ rest.Nodup := List.nodup_cons.mp (hq ▸ h.lists.distinct.queue x)
    have hnot : u ∉ s.readyList := by simp [(h.lists.listed u).ready, hst]
    simp only [SchedState.v, Semaphore.v_cons hq, readyToRun, append_of_notMem hnot,
      Option.map_some, Outcome.meets_next]
    refine h.move (t := u) htbd rfl rfl ?_ ?_ ?_ ?_ ?_
    · constructor
      case queue =>
        intro y w hw
        by_cases hy : y = x <;> simp [hy, hq, hw]
      all_goals intros; simp_all
    · refine ⟨nodup_append_singleton h.lists.distinct.ready hnot, fun y => ?_,
        h.lists.distinct.deleted⟩
      by_cases hy : y = x
      · simpa [hy] using hnd.2
      · simpa [hy] using h.lists.distinct.queue y
    · constructor
      · simp
      · intro y
        by_cases hy : y = x
        · simp [hy, hnd.1]
        · have := (h.lists.listed u).queue y
          simp_all [Ne.symm hy]
      · exact (h.lists.listed u).deleted
    · -- The woken thread may be the current one, if it is in `Sleep`.
      by_cases hu : u = s.currentThread
      · have ha := h.active
        rw [← hu, hst, hpc] at ha
        simpa [← hu, hpc] using ha.wake
      · simpa [Ne.symm hu] using h.active
    · intro _
      simp only [hpc, update_self]
      exact ⟨.woken x, by simp⟩

omit [DecidableEq S] in
/-- `Finish` starts to sleep, on no list. -/
theorem Inv.finish (h : s.Inv) (hph : s.phase = .running) : s.finish.Inv := by
  obtain ⟨hpc, hst, htbd⟩ := h.of_running hph
  obtain ⟨hnr, hnq⟩ := h.notMem_of_running hst
  refine h.move htbd rfl rfl ?_ ?_ ?_ ?_ (absurd rfl)
  · constructor <;> intros <;> simp_all [SchedState.finish]
  · exact ⟨h.lists.distinct.ready, h.lists.distinct.queue, h.lists.distinct.deleted⟩
  · have hd := (h.lists.listed s.currentThread).deleted
    constructor <;> simp_all [SchedState.finish]
  · simpa [SchedState.finish] using Active.sleeping Rest.finishing (.inl rfl)

/-- The processor goes to the first ready thread, from a thread that has already put itself
where it will be found again. -/
theorem Lists.run (hl : s.Lists) (hrest : ∀ t, Rest (s.pc t) (s.status t))
    (hfin : ∀ t, s.pc t = .finishing → t = s.currentThread) (htbd : s.toBeDestroyed = none)
    {n : T} {l : List T} (hn : s.readyList = n :: l) :
    (({ s with readyList := l } : SchedState T S).run n
      (s.pc s.currentThread = .finishing)).Meets Inv := by
  have hready : s.status n = .ready := (hl.listed n).ready.mp (by simp [hn])
  have hrn := hready ▸ hrest n
  have hnd : n ∉ l ∧ l.Nodup := List.nodup_cons.mp (hn ▸ hl.distinct.ready)
  have hnf : s.pc n ≠ .finishing := by
    intro hf
    rw [hf] at hrn
    cases hrn
  unfold SchedState.run
  rw [if_neg (by simp [htbd])]
  refine ⟨hl.move (t := n) ?_ ⟨hnd.2, hl.distinct.queue, hl.distinct.deleted⟩ ?_, ?_, ?_, ?_, ?_⟩
  · constructor <;> intros <;> simp_all
  · obtain ⟨-, hq, hd⟩ := hl.listed n
    constructor <;> simp_all
  · simpa using hrn.of_ready
  · intro t ht
    simpa [show t ≠ n from ht] using hrest t
  · intro t
    by_cases hc : s.pc s.currentThread = .finishing
    · simp only [hc, decide_true, if_true, Option.some.injEq]
      constructor
      · rintro rfl
        exact ⟨hc, fun heq => hnf (heq ▸ hc)⟩
      · exact fun ht => (hfin t ht.1).symm
    · simp only [hc, decide_false, Bool.false_eq_true, if_false, htbd, reduceCtorEq, false_iff]
      rintro ⟨hf, -⟩
      exact hc (hfin t hf ▸ hf)
  · intro hne
    exact absurd rfl hne

/-- The loop of `Sleep` finds a thread to run or goes to `Idle`. -/
theorem Inv.sleepLoop (h : s.Inv) (hph : s.phase = .sleeping) : (s.sleepLoop).Meets Inv := by
  obtain ⟨hcur, hpc⟩ := Active.of_sleeping (hph ▸ h.active)
  have htbd := h.toBeDestroyed_none (by rw [hph]; nofun)
  cases hr : s.readyList with
  | nil =>
    have hs : s.sleepLoop = .next { s with phase := .idling } := by
      simp [SchedState.sleepLoop, hr, removeFront]
    rw [hs]
    exact h.setPhase (.idling hcur hpc) htbd
  | cons n l =>
    simp only [SchedState.sleepLoop, hr, removeFront]
    refine Lists.run h.lists (fun t => ?_) (fun t => h.eq_of_finishing htbd) htbd hr
    by_cases ht : t = s.currentThread
    · rw [ht]; exact hcur
    · exact h.rest t ht

/-- `Yield` keeps the processor if nobody is ready, and otherwise goes to the end of the list. -/
theorem Inv.yield (h : s.Inv) : (s.yield).Meets Inv := by
  apply Outcome.Meets.ite
  intro hph
  obtain ⟨hpc, hst, htbd⟩ := h.of_running hph
  obtain ⟨hnr, hnq⟩ := h.notMem_of_running hst
  cases hr : s.readyList with
  | nil => simpa only [removeFront, Outcome.meets_next] using h
  | cons n l =>
    have hnl : s.currentThread ∉ l := fun hm => hnr (by simp [hr, hm])
    simp only [removeFront, readyToRun, append_of_notMem hnl, Option.map_some]
    -- The state `Run` is called in, with the next thread still at the front of the list.
    let s₁ : SchedState T S := { s with
      status := update s.status s.currentThread .ready
      pc := update s.pc s.currentThread .yielding
      readyList := n :: (l ++ [s.currentThread]) }
    have hl : s₁.Lists := by
      apply h.lists.move (t := s.currentThread)
      · constructor <;> intros <;> simp_all [s₁]
      · refine ⟨?_, h.lists.distinct.queue, h.lists.distinct.deleted⟩
        have := nodup_append_singleton h.lists.distinct.ready hnr
        simpa [s₁, hr] using this
      · have hd := (h.lists.listed s.currentThread).deleted
        constructor <;> simp_all [s₁]
    have hrun := Lists.run hl (s := s₁) (fun t => ?_) (fun t ht => ?_) htbd rfl
    · simpa [s₁] using hrun
    · by_cases ht : t = s.currentThread
      · simpa [s₁, ht] using Rest.yielding
      · simpa [s₁, ht] using h.rest t ht
    · by_contra hne
      have hne' : t ≠ s.currentThread := hne
      exact hne' (h.eq_of_finishing htbd (by simpa [s₁, hne'] using ht))

omit [DecidableEq S] in
/-- `CheckToBeDestroyed` deletes a thread that has given up the processor for good. -/
theorem Inv.checkToBeDestroyed (h : s.Inv) :
    ∃ s', s.checkToBeDestroyed = some s' ∧ s'.Inv ∧ s'.toBeDestroyed = none ∧
      s'.phase = s.phase := by
  cases htbd : s.toBeDestroyed with
  | none => exact ⟨s, by simp [SchedState.checkToBeDestroyed, htbd], h, htbd, rfl⟩
  | some d =>
    obtain ⟨hpc, hne⟩ := (h.toBeDestroyed_iff d).mp htbd
    obtain ⟨hr, hq, hdel⟩ := h.lists.listed d
    have hnot : d ∉ s.deleted := by rw [hdel, hpc]; nofun
    have hst : s.status d = .blocked := Rest.of_finishing (hpc ▸ h.rest d hne)
    simp only [SchedState.checkToBeDestroyed, htbd, if_neg hne, Option.some.injEq,
      exists_eq_left', and_true]
    refine ⟨h.lists.move (t := d) ?_ ?_ ?_, ?_, ?_, ?_, fun _ => rfl⟩
    · constructor <;> intros <;> simp_all
    · exact ⟨h.lists.distinct.ready, h.lists.distinct.queue,
        nodup_append_singleton h.lists.distinct.deleted hnot⟩
    · constructor <;> simp_all
    · simpa [Ne.symm hne] using h.active
    · intro t ht
      by_cases htd : t = d
      · simpa [htd, hst] using Rest.dead
      · simpa [htd] using h.rest t ht
    · -- No other thread is finishing.
      intro t
      by_cases htd : t = d
      · simp [htd]
      · have := h.toBeDestroyed_iff t
        rw [htbd] at this
        simpa [htd, Ne.symm htd] using this

/-- The thread that `SWITCH` has entered goes on where it left off. -/
theorem Inv.resume (h : s.Inv) (hph : s.phase = .switched) : (s.resume).Meets Inv := by
  obtain ⟨s', hs', h', htbd, hph'⟩ := h.checkToBeDestroyed
  obtain ⟨hst, hpc⟩ := Active.of_switched (hph ▸ hph' ▸ h'.active)
  obtain ⟨hnr, hnq⟩ := h'.notMem_of_running hst
  have hstart : s'.pc s'.currentThread ≠ .dead →
      ({ s' with pc := update s'.pc s'.currentThread .user, phase := .running } :
        SchedState T S).Inv := by
    intro hdead
    have hdel : s'.currentThread ∉ s'.deleted := by rwa [(h'.lists.listed _).deleted]
    refine h'.move htbd rfl rfl ?_ ?_ ?_ ?_ (absurd rfl)
    · constructor <;> intros <;> simp_all
    · exact ⟨h'.lists.distinct.ready, h'.lists.distinct.queue, h'.lists.distinct.deleted⟩
    · constructor <;> simp_all
    · simpa [hst] using Active.running
  simp only [SchedState.resume, hs']
  rcases hpc with hpc | hpc | ⟨x, hpc⟩
  · simpa only [hpc, Outcome.meets_next] using hstart (by simp [hpc])
  · simpa only [hpc, Outcome.meets_next] using hstart (by simp [hpc])
  · simpa only [hpc] using h'.pTest hst htbd (by simp [hpc]) x

/-- Every action keeps the invariant and trips no check. -/
theorem Inv.next (h : s.Inv) (a : SchedAction T S) : (s.next a).Meets Inv := by
  cases a with
  | fork u => exact h.fork u
  | yield => exact h.yield
  | p x =>
    refine Outcome.Meets.ite fun hph => ?_
    obtain ⟨hpc, hst, htbd⟩ := h.of_running hph
    exact h.pTest hst htbd (by rw [hpc]; nofun) x
  | v x => exact Outcome.Meets.ite fun hph => h.v (h.toBeDestroyed_none (by rw [hph]; nofun)) x
  | interrupt x =>
    refine Outcome.Meets.ite fun hph => h.v (h.toBeDestroyed_none ?_) x
    rcases hph with hph | hph <;> (rw [hph]; nofun)
  | finish => exact Outcome.Meets.ite fun hph => h.finish hph
  | sleepLoop => exact Outcome.Meets.ite fun hph => h.sleepLoop hph
  | idleReturn =>
    refine Outcome.Meets.ite fun hph => ?_
    obtain ⟨hcur, hpc⟩ := Active.of_idling (hph ▸ h.active)
    exact h.setPhase (.sleeping hcur hpc) (h.toBeDestroyed_none (by rw [hph]; nofun))
  | resume => exact Outcome.Meets.ite fun hph => h.resume hph

omit [DecidableEq S] in
/-- The kernel starts in the invariant. -/
theorem Start.inv {main : T} (h : s.Start main) : s.Inv := by
  obtain ⟨hcur, hph, hst, hpc, hr, htbd, hq, hd⟩ := h
  refine ⟨⟨⟨by simp [hr], fun x => by simp [hq], by simp [hd]⟩, fun t => ?_⟩, ?_, fun t ht => ?_,
    fun t => ?_, fun _ => htbd⟩
  · by_cases ht : t = main <;> constructor <;> simp [hr, hq, hd, hst, hpc, ht]
  · simpa [hcur, hph, hst, hpc] using Active.running
  · rw [hcur] at ht
    simpa [hst, hpc, ht] using Rest.unborn
  · by_cases ht : t = main <;> simp [htbd, hpc, ht]

/-! ### What the invariant says -/

/-- A thread that has called `Finish`. -/
def Finished (s : SchedState T S) (t : T) : Prop := s.pc t = .finishing ∨ s.pc t = .dead

/-- What the scheduler owes its threads at a scheduling point. -/
structure Ordered (s : SchedState T S) : Prop where
  ready_nodup : s.readyList.Nodup
  mem_ready : ∀ t, t ∈ s.readyList ↔ s.status t = .ready
  blocked_once : ∀ t, s.status t = .blocked → ¬ s.Finished t →
    ∃ x, (s.sem x).queue.count t = 1 ∧ ∀ y, y ≠ x → t ∉ (s.sem y).queue
  running_current : ∀ t, s.status t = .running →
    t = s.currentThread ∧ t ∉ s.readyList ∧ ∀ x, t ∉ (s.sem x).queue
  /-- A finishing thread still has the processor but runs no code, or the thread that has it now
  is about to delete it. -/
  finishing : ∀ t, s.pc t = .finishing →
    (t = s.currentThread ∧ (s.phase = .sleeping ∨ s.phase = .idling)) ∨
    (t ≠ s.currentThread ∧ s.toBeDestroyed = some t ∧ s.phase = .switched)
  deleted_once : ∀ t, s.pc t = .dead → s.deleted.count t = 1
  deleted_gone : ∀ t, t ∈ s.deleted →
    s.pc t = .dead ∧ t ≠ s.currentThread ∧ t ∉ s.readyList ∧ ∀ x, t ∉ (s.sem x).queue
  no_fault : ∀ a, s.next a ≠ .fault

omit [DecidableEq S] in
theorem Inv.blocked_once (h : s.Inv) (hst : s.status t = .blocked) (hf : ¬ s.Finished t) :
    ∃ x, (s.sem x).queue.count t = 1 ∧ ∀ y, y ≠ x → t ∉ (s.sem y).queue := by
  -- Whether or not it has the processor, a blocked thread that is not finishing waits in `P`.
  have hrest : Rest (s.pc t) .blocked := by
    by_cases ht : t = s.currentThread
    · have ha := h.active
      rw [← ht, hst] at ha
      exact ha.of_blocked
    · exact hst ▸ h.rest t ht
  obtain ⟨x, hx⟩ : ∃ x, s.pc t = .waiting x := by
    rcases hrest.of_blocked with hx | hx | hx
    · exact hx
    · exact absurd (.inl hx) hf
    · exact absurd (.inr hx) hf
  have hq := (h.lists.listed t).queue
  refine ⟨x, ?_, fun y hy hm => ?_⟩
  · exact List.count_eq_one_of_mem (h.lists.distinct.queue x) ((hq x).mpr ⟨hst, hx⟩)
  · have hpc := ((hq y).mp hm).2
    rw [hx] at hpc
    cases hpc
    exact hy rfl

omit [DecidableEq S] in
theorem Inv.finishing_cases (h : s.Inv) (hf : s.pc t = .finishing) :
    (t = s.currentThread ∧ (s.phase = .sleeping ∨ s.phase = .idling)) ∨
    (t ≠ s.currentThread ∧ s.toBeDestroyed = some t ∧ s.phase = .switched) := by
  by_cases ht : t = s.currentThread
  · have ha := h.active
    rw [← ht, hf] at ha
    exact .inl ⟨ht, ha.of_finishing⟩
  · have htbd := (h.toBeDestroyed_iff t).mpr ⟨hf, ht⟩
    refine .inr ⟨ht, htbd, ?_⟩
    by_contra hne
    rw [h.toBeDestroyed_none hne] at htbd
    cases htbd

theorem Inv.ordered (h : s.Inv) : s.Ordered where
  ready_nodup := h.lists.distinct.ready
  mem_ready := fun t => (h.lists.listed t).ready
  blocked_once := fun _ => h.blocked_once
  running_current := by
    intro t hst
    refine ⟨?_, h.notMem_of_running hst⟩
    by_contra ht
    exact (h.rest t ht).ne_running hst
  finishing := fun _ => h.finishing_cases
  deleted_once := fun t ht =>
    List.count_eq_one_of_mem h.lists.distinct.deleted ((h.lists.listed t).deleted.mpr ht)
  deleted_gone := by
    intro t ht
    obtain ⟨hr, hq, hd⟩ := h.lists.listed t
    have hpc := hd.mp ht
    have hne : t ≠ s.currentThread := by
      rintro rfl
      exact (hpc ▸ h.active).not_dead
    have hst : s.status t = .blocked := Rest.of_dead (hpc ▸ h.rest t hne)
    exact ⟨hpc, hne, by rw [hr, hst]; nofun, fun x => by rw [hq, hpc]; nofun⟩
  no_fault := fun a => (h.next a).ne_fault

/-! ### How threads end -/

omit [DecidableEq S] in
theorem readyToRun_frame (hs : s.readyToRun t = some s') :
    s'.pc = s.pc ∧ s'.deleted = s.deleted := by
  obtain ⟨l, -, rfl⟩ := Option.map_eq_some_iff.mp hs
  exact ⟨rfl, rfl⟩

omit [DecidableEq S] in
theorem run_frame {fin : Bool} (hs : s.run t fin = .next s') :
    s'.pc = s.pc ∧ s'.deleted = s.deleted := by
  unfold run at hs
  split at hs
  · cases hs
  · cases hs
    exact ⟨rfl, rfl⟩

theorem v_frame {x : S} (hs : s.v x = .next s') : s'.pc = s.pc ∧ s'.deleted = s.deleted := by
  unfold v at hs
  split at hs
  · cases hs
    exact ⟨rfl, rfl⟩
  · split at hs
    · cases hs
    · rename_i hr
      cases hs
      obtain ⟨hpc, hd⟩ := readyToRun_frame hr
      exact ⟨hpc, hd⟩

theorem pTest_frame {x : S} (hs : s.pTest x = .next s') :
    (∀ t, t ≠ s.currentThread → s'.pc t = s.pc t) ∧ s'.deleted = s.deleted := by
  unfold pTest at hs
  split at hs
  · cases hs
  · cases hs
    exact ⟨fun t ht => update_of_ne ht .., rfl⟩
  · cases hs
    exact ⟨fun t ht => update_of_ne ht .., rfl⟩

theorem fork_frame {u : T} (hs : s.fork u = .next s') :
    (∀ t, s.pc t ≠ .unborn → s'.pc t = s.pc t) ∧ s'.deleted = s.deleted := by
  obtain ⟨hu, hs⟩ := Outcome.guard_eq_next.mp hs
  split at hs
  · cases hs
  · rename_i hr
    cases hs
    obtain ⟨hpc, hd⟩ := readyToRun_frame hr
    refine ⟨fun t ht => ?_, hd⟩
    have htu : t ≠ u := by rintro rfl; exact ht hu.2
    simp [htu, hpc]

omit [DecidableEq S] in
theorem yield_frame (hs : s.yield = .next s') :
    (∀ t, t ≠ s.currentThread → s'.pc t = s.pc t) ∧ s'.deleted = s.deleted := by
  obtain ⟨-, hs⟩ := Outcome.guard_eq_next.mp hs
  split at hs
  · cases hs
    exact ⟨fun _ _ => rfl, rfl⟩
  · split at hs
    · cases hs
    · rename_i hr
      obtain ⟨hpc, hd⟩ := run_frame hs
      obtain ⟨hpc', hd'⟩ := readyToRun_frame hr
      refine ⟨fun t ht => ?_, by rw [hd, hd']⟩
      rw [hpc, hpc']
      exact update_of_ne ht ..

theorem sleepLoop_frame (hs : s.sleepLoop = .next s') :
    s'.pc = s.pc ∧ s'.deleted = s.deleted := by
  unfold sleepLoop at hs
  split at hs
  · cases hs
    exact ⟨rfl, rfl⟩
  · obtain ⟨hpc, hd⟩ := run_frame hs
    exact ⟨hpc, hd⟩

/-- `resume` deletes the thread in `toBeDestroyed`. -/
theorem resume_frame (hs : s.resume = .next s') :
    (∀ t, t ≠ s.currentThread → s.toBeDestroyed ≠ some t → s'.pc t = s.pc t) ∧
      s'.deleted = s.deleted ++ s.toBeDestroyed.toList := by
  unfold resume at hs
  split at hs
  · cases hs
  · rename_i s₁ hc
    have hs₁ : s₁.currentThread = s.currentThread ∧
        (∀ t, s.toBeDestroyed ≠ some t → s₁.pc t = s.pc t) ∧
        s₁.deleted = s.deleted ++ s.toBeDestroyed.toList := by
      unfold checkToBeDestroyed at hc
      split at hc
      · rename_i hn
        cases hc
        simp [hn]
      · rename_i d hd
        split at hc
        · cases hc
        · cases hc
          refine ⟨rfl, fun t ht => ?_, by rw [hd]; rfl⟩
          rw [hd, Ne, Option.some.injEq] at ht
          exact update_of_ne (Ne.symm ht) ..
    obtain ⟨hcur, hpc, hdel⟩ := hs₁
    split at hs
    · cases hs
      exact ⟨fun t ht hd => by simpa [hcur, ht] using hpc t hd, hdel⟩
    · cases hs
      exact ⟨fun t ht hd => by simpa [hcur, ht] using hpc t hd, hdel⟩
    · obtain ⟨hpc', hdel'⟩ := pTest_frame hs
      exact ⟨fun t ht hd => by rw [hpc' t (hcur ▸ ht), hpc t hd], by rw [hdel', hdel]⟩
    · cases hs

/-- The threads an action deletes. -/
def destroys (s : SchedState T S) : SchedAction T S → List T
  | .resume => s.toBeDestroyed.toList
  | _ => []

/-- What an action does to the program counter of a thread it is not about, and which threads
it deletes. -/
theorem next_frame (hs : s.next a = .next s') :
    (∀ t, s.pc t ≠ .unborn → (s.phase = .sleeping ∨ s.phase = .idling ∨ t ≠ s.currentThread) →
      t ∉ s.destroys a → s'.pc t = s.pc t) ∧
    s'.deleted = s.deleted ++ s.destroys a := by
  cases a with
  | fork u =>
    obtain ⟨hpc, hd⟩ := fork_frame hs
    exact ⟨fun t hu _ _ => hpc t hu, by simp [hd, destroys]⟩
  | yield =>
    have hph := (Outcome.guard_eq_next.mp hs).1
    obtain ⟨hpc, hd⟩ := yield_frame hs
    exact ⟨fun t _ ht _ => hpc t (by simpa [hph] using ht), by simp [hd, destroys]⟩
  | p x =>
    obtain ⟨hph, hs⟩ := Outcome.guard_eq_next.mp hs
    obtain ⟨hpc, hd⟩ := pTest_frame hs
    exact ⟨fun t _ ht _ => hpc t (by simpa [hph] using ht), by simp [hd, destroys]⟩
  | v x =>
    obtain ⟨hpc, hd⟩ := v_frame (Outcome.guard_eq_next.mp hs).2
    exact ⟨fun t _ _ _ => by rw [hpc], by simp [hd, destroys]⟩
  | interrupt x =>
    obtain ⟨hpc, hd⟩ := v_frame (Outcome.guard_eq_next.mp hs).2
    exact ⟨fun t _ _ _ => by rw [hpc], by simp [hd, destroys]⟩
  | finish =>
    obtain ⟨hph, hs⟩ := Outcome.guard_eq_next.mp hs
    cases hs
    refine ⟨fun t _ ht _ => ?_, by simp [SchedState.finish, destroys]⟩
    exact update_of_ne (by simpa [hph] using ht) ..
  | sleepLoop =>
    obtain ⟨hpc, hd⟩ := sleepLoop_frame (Outcome.guard_eq_next.mp hs).2
    exact ⟨fun t _ _ _ => by rw [hpc], by simp [hd, destroys]⟩
  | idleReturn =>
    obtain ⟨-, hs⟩ := Outcome.guard_eq_next.mp hs
    cases hs
    exact ⟨fun _ _ _ _ => rfl, by simp [destroys]⟩
  | resume =>
    obtain ⟨hph, hs⟩ := Outcome.guard_eq_next.mp hs
    obtain ⟨hpc, hd⟩ := resume_frame hs
    refine ⟨fun t _ ht hdel => hpc t (by simpa [hph] using ht) ?_, hd⟩
    simpa [destroys] using hdel

/-- After `SWITCH` there is nothing to do but to go on in the new thread. -/
theorem eq_resume_of_switched (hph : s.phase = .switched)
    (hs : s.next a = .next s') : a = .resume := by
  cases a with
  | resume => rfl
  | fork u => exact absurd (Outcome.guard_eq_next.mp hs).1.1 (by rw [hph]; nofun)
  | interrupt x => exact absurd (Outcome.guard_eq_next.mp hs).1 (by simp [hph])
  | _ => exact absurd (Outcome.guard_eq_next.mp hs).1 (by rw [hph]; nofun)

/-- A thread that has called `Finish` stays finished. -/
theorem Inv.finished_next (h : s.Inv) (hs : s.next a = .next s')
    (ht : s.Finished t) : s'.Finished t := by
  obtain ⟨hpc, hdel⟩ := next_frame hs
  have h' := (h.next a).next hs
  by_cases hd : t ∈ s.destroys a
  · right
    rw [← (h'.lists.listed t).deleted, hdel]
    exact List.mem_append_right _ hd
  · have hsame : s'.pc t = s.pc t := by
      refine hpc t ?_ ?_ hd
      · rcases ht with ht | ht <;> (rw [ht]; nofun)
      · rcases ht with ht | ht
        · rcases h.finishing_cases ht with ⟨-, hph | hph⟩ | ⟨hne, -⟩
          · exact .inl hph
          · exact .inr (.inl hph)
          · exact .inr (.inr hne)
        · have hmem := (h.lists.listed t).deleted.mpr ht
          exact .inr (.inr (h.ordered.deleted_gone t hmem).2.1)
    unfold Finished
    rwa [hsame]

/-- A finished thread never runs again. -/
theorem Inv.finished_run (h : s.Inv) {main : T} {ls : List (SchedAction T S)}
    (hr : (schedSystem T S main).Run s ls s') (ht : s.Finished t) :
    s'.Inv ∧ s'.Finished t := by
  induction hr with
  | nil => exact ⟨h, ht⟩
  | snoc _ hs ih => exact ⟨(ih.1.next _).next hs, ih.1.finished_next hs ih.2⟩

/-- A finished thread does not run: at most it is still waiting in `Sleep` for another thread to
take the processor. -/
theorem Inv.not_running_of_finished (h : s.Inv) (ht : s.Finished t) :
    s.status t ≠ .running ∧
      (s.currentThread = t → s.phase = .sleeping ∨ s.phase = .idling) := by
  have hcur : s.currentThread = t → s.phase = .sleeping ∨ s.phase = .idling := by
    rintro rfl
    rcases ht with ht | ht
    · exact (ht ▸ h.active).of_finishing
    · exact absurd (ht ▸ h.active) Active.not_dead
  refine ⟨fun hrun => ?_, hcur⟩
  have htc := (h.ordered.running_current t hrun).1
  have ha := h.active
  rw [← htc, hrun] at ha
  rcases hcur htc.symm with hph | hph <;> rw [hph] at ha
  · exact ha.of_sleeping.1.ne_running rfl
  · exact ha.of_idling.1.ne_running rfl

end SchedState

/-- **Scheduler invariant.** However many threads fork, yield, wait, signal and finish, and
whenever interrupt handlers signal, the lists and the statuses agree and no check fails;
only the thread in `toBeDestroyed` is ever deleted, by the first step of the thread that runs
after it; and a thread that has called `Finish` never runs again. -/
theorem scheduler_invariant {T S : Type*} [DecidableEq T] [DecidableEq S] (main : T)
    (s : SchedState T S) (h : (schedSystem T S main).Reachable s) :
    s.Ordered ∧
    (∀ a s', s.next a = .next s' →
      (∀ t, t ∈ s'.deleted → t ∉ s.deleted →
        a = .resume ∧ s.toBeDestroyed = some t ∧ s.currentThread ≠ t) ∧
      (∀ t, s.toBeDestroyed = some t → t ∉ s.deleted ∧ t ∈ s'.deleted)) ∧
    (∀ t ls s', s.Finished t → (schedSystem T S main).Run s ls s' →
      s'.status t ≠ .running ∧
        (s'.currentThread = t → s'.phase = .sleeping ∨ s'.phase = .idling)) := by
  have hinv : s.Inv :=
    (h.safe (I := SchedState.Inv) (fun _ h0 => SchedState.Start.inv h0) (fun _ a hi => hi.next a)).1
  refine ⟨hinv.ordered, fun a s' hs => ⟨fun t ht hnot => ?_, fun t ht => ?_⟩,
    fun t ls s' ht hr => ?_⟩
  · -- The log of deletions grows by what the action deletes.
    rw [(SchedState.next_frame hs).2, List.mem_append, or_iff_right hnot] at ht
    cases a with
    | resume =>
      have htbd : s.toBeDestroyed = some t := by simpa [SchedState.destroys] using ht
      exact ⟨rfl, htbd, ((hinv.toBeDestroyed_iff t).mp htbd).2.symm⟩
    | _ => cases ht
  · obtain ⟨hpc, -⟩ := (hinv.toBeDestroyed_iff t).mp ht
    refine ⟨by rw [(hinv.lists.listed t).deleted, hpc]; nofun, ?_⟩
    -- With a thread to be deleted the processor has just been switched: nothing else is enabled.
    have hph : s.phase = .switched := by
      by_contra hne
      rw [hinv.toBeDestroyed_none hne] at ht
      cases ht
    have ha : a = .resume := SchedState.eq_resume_of_switched hph hs
    subst ha
    rw [(SchedState.next_frame hs).2]
    exact List.mem_append_right _ (by simp [SchedState.destroys, ht])
  · obtain ⟨hinv', ht'⟩ := hinv.finished_run hr ht
    exact hinv'.not_running_of_finished ht'

/-- The main thread forks another one and finishes; the other one deletes it. -/
theorem scheduler_invariant_finish :
    ∃ s : SchedState Bool Unit, s.currentThread = true ∧ s.deleted = [false] ∧ s.Ordered := by
  obtain ⟨s, hs, hcur, hdel⟩ := (schedSystem Bool Unit false).reaches
    (s := { status := update (fun _ => .justCreated) false .running
            pc := update (fun _ => .unborn) false .user
            readyList := [], toBeDestroyed := none, currentThread := false, phase := .running
            sem := fun _ => .new 0, deleted := [] })
    ⟨rfl, rfl, rfl, rfl, rfl, rfl, fun _ => rfl, rfl⟩ [.fork true, .finish, .sleepLoop, .resume]
    (fun s => s.currentThread = true ∧ s.deleted = [false]) rfl
  exact ⟨s, hcur, hdel, (scheduler_invariant false s hs).1⟩

/-! ### The order of the threads -/

namespace SchedState

variable {T S : Type*} [DecidableEq T] [DecidableEq S] {s s' : SchedState T S} {a : SchedAction T S}
    {t : T}

/-- The thread that `SWITCH` has just entered. -/
def dispatched (s : SchedState T S) : List T :=
  if s.phase = .switched then [s.currentThread] else []

/-- The threads that get the processor while the actions are taken, and the state these lead to. -/
def dispatches (s : SchedState T S) : List (SchedAction T S) → List T × SchedState T S
  | [] => ([], s)
  | a :: l =>
    match s.next a with
    | .next s' => (s'.dispatched ++ (s'.dispatches l).1, (s'.dispatches l).2)
    | _ => ([], s)

omit [DecidableEq T] [DecidableEq S] in
/-- Threads are only put behind the others. -/
theorem inLine_append {new : List T} (h : s'.readyList = s.readyList ++ new)
    (hph : s'.phase ≠ .switched) : s.readyList <+: s'.dispatched ++ s'.readyList := by
  rw [dispatched, if_neg hph, h]
  exact List.prefix_append ..

omit [DecidableEq S] in
theorem readyList_readyToRun (hs : s.readyToRun t = some s') :
    s'.readyList = s.readyList ++ [t] ∧ s'.phase = s.phase := by
  obtain ⟨l, hl, rfl⟩ := Option.map_eq_some_iff.mp hs
  exact ⟨(append_eq_some hl).symm, rfl⟩

omit [DecidableEq S] in
theorem readyList_run {fin : Bool} (hs : s.run t fin = .next s') :
    s'.dispatched ++ s'.readyList = t :: s.readyList := by
  unfold run at hs
  split at hs <;> cases hs
  rfl

theorem readyList_v {x : S} (hs : s.v x = .next s') :
    s'.phase = s.phase ∧ ∃ new, s'.readyList = s.readyList ++ new := by
  unfold v at hs
  split at hs
  · cases hs
    exact ⟨rfl, [], (List.append_nil _).symm⟩
  · split at hs
    · cases hs
    · rename_i hr
      cases hs
      exact ⟨(readyList_readyToRun hr).2, _, (readyList_readyToRun hr).1⟩

theorem inLine_pTest {x : S} (hs : s.pTest x = .next s') :
    s.readyList <+: s'.dispatched ++ s'.readyList := by
  unfold pTest at hs
  split at hs <;> cases hs <;> exact List.prefix_rfl

/-- **Step.** A thread leaves the ready list only at the front, to get the processor. -/
theorem inLine_next (hs : s.next a = .next s') : s.readyList <+: s'.dispatched ++ s'.readyList := by
  cases a with
  | fork u =>
    obtain ⟨⟨hph, -⟩, hs⟩ := Outcome.guard_eq_next.mp hs
    split at hs <;> cases hs
    rename_i hr
    obtain ⟨hready, hphase⟩ := readyList_readyToRun hr
    exact inLine_append hready (by simp [hphase, hph])
  | yield =>
    obtain ⟨hph, hs⟩ := Outcome.guard_eq_next.mp hs
    cases hl : s.readyList with
    | nil => exact List.nil_prefix
    | cons u l =>
      simp only [hl, removeFront_cons] at hs
      split at hs
      · cases hs
      · rename_i hr
        rw [readyList_run hs, (readyList_readyToRun hr).1]
        exact List.prefix_append (u :: l) _
  | sleepLoop =>
    have hs := (Outcome.guard_eq_next.mp hs).2
    unfold sleepLoop at hs
    cases hl : s.readyList with
    | nil => exact List.nil_prefix
    | cons u l =>
      simp only [hl, removeFront_cons] at hs
      rw [readyList_run hs]
  | v x | interrupt x =>
    obtain ⟨hph, hs⟩ := Outcome.guard_eq_next.mp hs
    obtain ⟨hphase, new, hready⟩ := readyList_v hs
    exact inLine_append hready (by rw [hphase]; rintro h; simp [h] at hph)
  | p x => exact inLine_pTest (Outcome.guard_eq_next.mp hs).2
  | finish | idleReturn =>
    cases (Outcome.guard_eq_next.mp hs).2
    exact List.prefix_rfl
  | resume =>
    have hs := (Outcome.guard_eq_next.mp hs).2
    unfold resume at hs
    split at hs
    · cases hs
    · rename_i s₁ hc
      -- `CheckToBeDestroyed` leaves the ready list alone.
      have hready : s₁.readyList = s.readyList := by
        unfold checkToBeDestroyed at hc
        split at hc
        · cases hc
          rfl
        · split at hc <;> cases hc
          rfl
      rw [← hready]
      split at hs
      · cases hs
        exact List.prefix_rfl
      · cases hs
        exact List.prefix_rfl
      · exact inLine_pTest hs
      · cases hs

end SchedState

/-- **Threads run in the order in which they became ready.** Whatever happens, the threads that are
ready get the processor in the order of the ready list and before all that become ready later; those
that have not got it yet are still at the front of the list. -/
theorem ready_threads_run_in_order {T S : Type*} [DecidableEq T] [DecidableEq S]
    (s : SchedState T S) (ls : List (SchedAction T S)) :
    s.readyList <+: (s.dispatches ls).1 ++ (s.dispatches ls).2.readyList := by
  induction ls generalizing s with
  | nil => exact List.prefix_rfl
  | cons a ls ih =>
    unfold SchedState.dispatches
    cases hs : s.next a with
    | next s' =>
      rw [List.append_assoc]
      exact (SchedState.inLine_next hs).trans ((List.prefix_append_right_inj _).mpr (ih s'))
    | disabled => exact List.prefix_rfl
    | fault => exact List.prefix_rfl

end Nachos.Threads
