import Nachos.Threads.Lock

namespace Nachos.Threads

open Base Lib Function

/-!
# Threads — `Condition`

`Condition::Wait` allocates a private semaphore, queues it, releases the lock, sleeps on the
semaphore and takes the lock again; `Signal` dequeues the oldest semaphore and `V`s it;
`Broadcast` signals until the queue is empty. A thread has at most one private semaphore at
a time, so `waitQueue` names the semaphores by the threads that own them.

The lock inside the state is the one of `Lock.lean`: its `Acquire` and `Release` are cut into
the same pieces, whether a client calls them or `Wait` does, and its invariant is part of the
condition variable's.

Four fields are history, read by no step: `arrival` (when a thread was queued), `signalled`
(its semaphore has been dequeued since), and the queue a `Broadcast` found and what it has
dequeued so far. `CondState.Inv` ties each thread's program counter to its place in the
queue and to its private semaphore.
-/

variable {T : Type*} [DecidableEq T]

/-! ### The model -/

/-- Where a thread is in the code of the condition variable. -/
inductive CondPc where
  /-- In none of its operations. -/
  | outside
  /-- In `Wait`, queued, inside `conditionLock->Release()`. -/
  | releasing
  /-- In `Wait`, about to call `waiter->P()`. -/
  | entering
  /-- In `Wait`, asleep in `waiter->P()`. -/
  | asleep
  /-- In `Wait`, woken in `waiter->P()` and about to test again. -/
  | woken
  /-- In `Wait`, inside `conditionLock->Acquire()`. -/
  | acquiring
  /-- In `Broadcast`, at the test of the loop. -/
  | broadcasting
  deriving DecidableEq

/-- The thread is inside `Wait`. -/
def CondPc.inWait : CondPc → Prop
  | .outside | .broadcasting => False
  | _ => True

/-- A condition variable with its lock and the threads using it. -/
structure CondState (T : Type*) where
  lock : LockState T
  waitQueue : List T
  waiter : T → Semaphore T
  pc : T → CondPc
  clock : ℕ
  arrival : T → ℕ
  signalled : T → Bool
  queuedAtStart : T → List T
  dequeued : T → List T

/-- The pieces of the operations between two possible context switches. -/
inductive CondAction (T : Type*) where
  /-- A piece of `Acquire` or `Release`, called by a client or by `Wait`. -/
  | lock (a : LockAction T)
  /-- `Wait` is called: the assertion, `new Semaphore`, `waitQueue->Append`. -/
  | wait (t : T)
  /-- A pass through the test of `waiter->P()`. -/
  | waiterTest (t : T)
  /-- The whole of `Signal`. -/
  | signal (t : T)
  /-- `Broadcast` is called. -/
  | broadcast (t : T)
  /-- One test of the loop of `Broadcast`, with the `Signal` that follows it. -/
  | broadcastLoop (t : T)
  deriving DecidableEq

namespace CondState

/-- `Condition::Condition`, with a fresh lock. -/
def new : CondState T where
  lock := .new
  waitQueue := []
  waiter := fun _ => .new 0
  pc := fun _ => .outside
  clock := 0
  arrival := fun _ => 0
  signalled := fun _ => false
  queuedAtStart := fun _ => []
  dequeued := fun _ => []

/-- `Condition::Signal` after its assertion: dequeue the first semaphore, if any, and `V` it. -/
def signalFront (s : CondState T) : CondState T :=
  match removeFront s.waitQueue with
  | none => s
  | some (u, rest) =>
    match (s.waiter u).v with
    | (sem, none) =>
      { s with
        waitQueue := rest
        waiter := update s.waiter u sem
        signalled := update s.signalled u true }
    | (sem, some w) =>
      { s with
        waitQueue := rest
        waiter := update s.waiter u sem
        pc := update s.pc w .woken
        signalled := update s.signalled u true }

/-- A piece of the lock's code taken where the thread's program counter allows it. -/
def lockStep (s : CondState T) (a : LockAction T) : Outcome (CondState T) :=
  match s.pc a.thread, a with
  | .outside, _ | .releasing, .release _ | .acquiring, .acquire _ | .acquiring, .resume _ =>
    (s.lock.next a).map fun l => { s with lock := l }
  | .releasing, .releaseV t =>
    (s.lock.next a).map fun l => { s with lock := l, pc := update s.pc t .entering }
  | .acquiring, .setHolder t =>
    -- `delete waiter`, and `Wait` returns.
    (s.lock.next a).map fun l => { s with lock := l, pc := update s.pc t .outside }
  | _, _ => .disabled

/-- One action. -/
def next (s : CondState T) : CondAction T → Outcome (CondState T)
  | .lock a => s.lockStep a
  | .wait t =>
    if s.pc t = .outside ∧ s.lock.pc t = .holding then
      -- `ASSERT(conditionLock->IsHeldByCurrentThread())`
      if s.lock.isHeldBy t then
        match append s.waitQueue t with
        | none => .fault
        | some q =>
          .next { s with
            waitQueue := q
            waiter := update s.waiter t (.new 0)
            pc := update s.pc t .releasing
            clock := s.clock + 1
            arrival := update s.arrival t s.clock
            signalled := update s.signalled t false }
      else .fault
    else .disabled
  | .waiterTest t =>
    if s.pc t = .entering ∨ s.pc t = .woken then
      match (s.waiter t).pTest t with
      | none => .fault
      | some (sem, true) =>
        .next { s with
          waiter := update s.waiter t sem
          pc := update s.pc t .acquiring }
      | some (sem, false) =>
        .next { s with
          waiter := update s.waiter t sem
          pc := update s.pc t .asleep }
    else .disabled
  | .signal t =>
    if s.pc t = .outside ∧ s.lock.pc t = .holding then
      -- `ASSERT(conditionLock->IsHeldByCurrentThread())`
      if s.lock.isHeldBy t then .next s.signalFront else .fault
    else .disabled
  | .broadcast t =>
    if s.pc t = .outside ∧ s.lock.pc t = .holding then
      .next { s with
        pc := update s.pc t .broadcasting
        queuedAtStart := update s.queuedAtStart t s.waitQueue
        dequeued := update s.dequeued t [] }
    else .disabled
  | .broadcastLoop t =>
    if s.pc t = .broadcasting then
      match s.waitQueue with
      | [] => .next { s with pc := update s.pc t .outside }
      | u :: _ =>
        if s.lock.isHeldBy t then
          .next { s.signalFront with
            dequeued := update s.dequeued t (s.dequeued t ++ [u]) }
        else .fault
    else .disabled

end CondState

/-- Any number of threads using one condition variable with one lock, each holding the lock
when it calls `Wait`, `Signal` or `Broadcast`. -/
def condSystem (T : Type*) [DecidableEq T] : LTS (CondState T) (CondAction T) where
  init := fun s => s = .new
  next := CondState.next

/-! ### What an action does -/

namespace CondState

variable {s s' : CondState T}

/-- Everything a piece of the lock's code can do to the condition variable. -/
theorem lockStep_cases {a : LockAction T} (h : s.lockStep a = .next s') :
    ∃ l p, s.lock.next a = .next l ∧ s' = { s with lock := l, pc := p } ∧
      (s.pc a.thread = .outside ∧ p = s.pc ∨
       s.pc a.thread = .releasing ∧ (∃ t, a = .release t) ∧ p = s.pc ∨
       s.pc a.thread = .acquiring ∧ (∃ t, a = .acquire t ∨ a = .resume t) ∧ p = s.pc ∨
       (∃ t, a = .releaseV t ∧ s.pc t = .releasing ∧ p = update s.pc t .entering) ∨
       ∃ t, a = .setHolder t ∧ s.pc t = .acquiring ∧ p = update s.pc t .outside) := by
  cases hpc : s.pc a.thread <;> cases a <;>
    simp only [lockStep, LockAction.thread] at h hpc ⊢ <;>
    simp only [hpc, reduceCtorEq] at h <;>
    (obtain ⟨l, hl, rfl⟩ := Outcome.map_eq_next_iff.mp h) <;>
    refine ⟨l, _, hl, rfl, ?_⟩ <;> simp [hpc]

end CondState

/-! ### The invariant -/

namespace CondState

/-- A waiter that has not reached the test of its `P`: queued with an empty semaphore, or
already signalled and holding the unit it will consume. -/
def Pending (s : CondState T) (t : T) : Prop :=
  (t ∈ s.waitQueue ∧ s.signalled t = false ∧ s.waiter t = ⟨0, []⟩) ∨
  (t ∉ s.waitQueue ∧ s.signalled t = true ∧ s.waiter t = ⟨1, []⟩)

/-- What the program counter of a thread says about the lock, the queue and the private
semaphore. -/
def Local (s : CondState T) (t : T) : Prop :=
  match s.pc t with
  | .outside => t ∉ s.waitQueue
  | .releasing => (s.lock.pc t = .holding ∨ s.lock.pc t = .releasing) ∧ s.Pending t
  | .entering => s.lock.pc t = .outside ∧ s.Pending t
  | .asleep =>
    s.lock.pc t = .outside ∧ t ∈ s.waitQueue ∧ s.signalled t = false ∧ s.waiter t = ⟨0, [t]⟩
  | .woken =>
    s.lock.pc t = .outside ∧ t ∉ s.waitQueue ∧ s.signalled t = true ∧ s.waiter t = ⟨1, []⟩
  | .acquiring =>
    s.lock.pc t ≠ .holding ∧ s.lock.pc t ≠ .releasing ∧ t ∉ s.waitQueue ∧ s.signalled t = true
  | .broadcasting =>
    s.lock.pc t = .holding ∧ t ∉ s.waitQueue ∧ s.queuedAtStart t = s.dequeued t ++ s.waitQueue

/-- The inductive invariant of the condition variable. -/
structure Inv (s : CondState T) : Prop where
  lock : s.lock.Inv
  nodup : s.waitQueue.Nodup
  locals : ∀ t, s.Local t
  sorted : s.waitQueue.Pairwise fun u w => s.arrival u < s.arrival w
  arrived : ∀ t ∈ s.waitQueue, s.arrival t < s.clock

variable {s s' : CondState T}

omit [DecidableEq T] in
/-- `Local` only reads the thread's own components, and the whole queue while the thread is
broadcasting; a lock sleeper may meanwhile be woken. -/
theorem Local.frame {t : T} (h : s.Local t) (hpc : s'.pc t = s.pc t)
    (hl : s'.lock.pc t = s.lock.pc t ∨ (s.lock.pc t = .asleep ∧ s'.lock.pc t = .woken))
    (hq : t ∈ s'.waitQueue ↔ t ∈ s.waitQueue) (hsig : s'.signalled t = s.signalled t)
    (hw : s'.waiter t = s.waiter t)
    (hb : s.pc t = .broadcasting → s'.waitQueue = s.waitQueue ∧
      s'.queuedAtStart t = s.queuedAtStart t ∧ s'.dequeued t = s.dequeued t) : s'.Local t := by
  unfold Local Pending at *
  rw [hpc]
  cases hc : s.pc t with
  | broadcasting =>
    obtain ⟨hbq, hbs, hbd⟩ := hb hc
    rw [hc] at h
    rcases hl with hl | ⟨hl, -⟩
    · simpa [hl, hbq, hbs, hbd] using h
    · simp [hl] at h
  | acquiring =>
    rw [hc] at h
    rcases hl with hl | ⟨-, hl⟩
    · simpa [hl, hq, hsig] using h
    · simpa [hl, hq, hsig] using h.2.2
  | outside => rw [hc] at h; simpa [hq] using h
  | releasing | entering | asleep | woken =>
    rw [hc] at h
    rcases hl with hl | ⟨hl, -⟩
    · simpa [hl, hq, hsig, hw] using h
    · simp [hl] at h

omit [DecidableEq T] in
/-- Only the lock's owner can be broadcasting. -/
theorem Inv.eq_of_broadcasting (h : s.Inv) {t w : T} (ht : (s.lock.pc t).inside)
    (hw : s.pc w = .broadcasting) : w = t := by
  have hl := h.locals w
  simp only [Local, hw] at hl
  exact h.lock.token.unique (by rw [hl.1]; trivial) ht

omit [DecidableEq T] in
theorem Inv.notMem_of_outside (h : s.Inv) {t : T} (hpc : s.pc t = .outside) : t ∉ s.waitQueue := by
  have hl := h.locals t
  simpa only [Local, hpc] using hl

omit [DecidableEq T] in
/-- A queued thread is inside `Wait`, unsignalled, with an empty private semaphore on which
at most itself is asleep. -/
theorem Inv.of_mem_waitQueue (h : s.Inv) {u : T} (hu : u ∈ s.waitQueue) :
    s.signalled u = false ∧
      ((s.pc u = .releasing ∨ s.pc u = .entering) ∧ s.waiter u = ⟨0, []⟩ ∨
        s.pc u = .asleep ∧ s.waiter u = ⟨0, [u]⟩) := by
  have hl := h.locals u
  unfold Local Pending at hl
  cases hc : s.pc u <;> simp only [hc] at hl <;> simp_all

/-- What `Signal` does to a non-empty queue: the first thread leaves it, its semaphore gets
one unit, and it is made ready if it was asleep. -/
theorem Inv.signalFront_cons (h : s.Inv) {u : T} {rest : List T} (hq : s.waitQueue = u :: rest) :
    ∃ p, ((s.pc u = .releasing ∨ s.pc u = .entering) ∧ p = s.pc u ∨ s.pc u = .asleep ∧ p = .woken) ∧
      s.signalFront = { s with
        waitQueue := rest
        waiter := update s.waiter u ⟨1, []⟩
        pc := update s.pc u p
        signalled := update s.signalled u true } := by
  obtain ⟨-, ⟨hpc, hw⟩ | ⟨hpc, hw⟩⟩ := h.of_mem_waitQueue (u := u) (by simp [hq])
  · refine ⟨s.pc u, .inl ⟨hpc, rfl⟩, ?_⟩
    simp only [signalFront, hq, removeFront_cons, hw, update_eq_self]
    rfl
  · refine ⟨.woken, .inr ⟨hpc, rfl⟩, ?_⟩
    simp only [signalFront, hq, removeFront_cons, hw]
    rfl

omit [DecidableEq T] in
theorem Inv.new : (CondState.new : CondState T).Inv :=
  ⟨.new, by simp [CondState.new], fun t => by simp [Local, CondState.new],
    by simp [CondState.new], by simp [CondState.new]⟩

/-! ### Every action keeps the invariant -/

/-- The lock and the place of the acting thread change: only that thread can lose its `Local`. -/
theorem Inv.moveLock (h : s.Inv) {a : LockAction T} {l : LockState T} (hl : s.lock.next a = .next l)
    {pc : T → CondPc} (hpc : ∀ w, w ≠ a.thread → pc w = s.pc w)
    (hloc : ({ s with lock := l, pc := pc } : CondState T).Local a.thread) :
    ({ s with lock := l, pc := pc } : CondState T).Inv := by
  refine ⟨h.lock.next hl, h.nodup, fun w => ?_, h.sorted, h.arrived⟩
  by_cases hw : w = a.thread
  · rw [hw]; exact hloc
  · exact (h.locals w).frame (hpc w hw) (h.lock.next_others hl hw) Iff.rfl rfl rfl
      fun _ => ⟨rfl, rfl, rfl⟩

theorem Inv.lockStep (h : s.Inv) {a : LockAction T} (hs : s.lockStep a = .next s') : s'.Inv := by
  obtain ⟨l, p, hl, rfl, hcase⟩ := lockStep_cases hs
  have hmoves := h.lock.next_moves hl
  have hself := h.locals a.thread
  rcases hcase with ⟨hpc, rfl⟩ | ⟨hpc, ⟨t, rfl⟩, rfl⟩ | ⟨hpc, ⟨t, ht⟩, rfl⟩ |
    ⟨t, rfl, hpc, rfl⟩ | ⟨t, rfl, hpc, rfl⟩
  · apply h.moveLock hl (fun _ _ => rfl)
    simp only [Local, hpc] at hself ⊢
    exact hself
  · apply h.moveLock hl (fun _ _ => rfl)
    simp only [Local, Pending, hpc] at hself ⊢
    exact ⟨.inr hmoves.2, hself.2⟩
  · apply h.moveLock hl (fun _ _ => rfl)
    simp only [Local, hpc] at hself ⊢
    have hto : l.pc a.thread = .asleep ∨ l.pc a.thread = .passed := by
      rcases ht with rfl | rfl <;> exact hmoves.2
    refine ⟨?_, ?_, hself.2.2⟩ <;> rcases hto with hto | hto <;> rw [hto] <;> nofun
  · apply h.moveLock hl (fun w hw => update_of_ne hw _ _)
    simp only [Local, Pending, LockAction.thread, hpc, update_self] at hself ⊢
    exact ⟨hmoves.2, hself.2⟩
  · apply h.moveLock hl (fun w hw => update_of_ne hw _ _)
    simp only [Local, LockAction.thread, hpc, update_self] at hself ⊢
    exact hself.2.2.1

/-- The call of `Wait`: the thread joins the end of the queue. -/
theorem Inv.wait (h : s.Inv) (t : T) : (s.next (.wait t)).Meets fun s' =>
    s'.Inv ∧ s.pc t = .outside ∧ s.lock.pc t = .holding ∧
      s' = { s with
        waitQueue := s.waitQueue ++ [t]
        waiter := update s.waiter t (.new 0)
        pc := update s.pc t .releasing
        clock := s.clock + 1
        arrival := update s.arrival t s.clock
        signalled := update s.signalled t false } := by
  refine .ite fun hg => ?_
  have htq := h.notMem_of_outside hg.1
  rw [if_pos (show s.lock.isHeldBy t from h.lock.holder t hg.2), append_of_notMem htq]
  refine ⟨⟨h.lock, ?_, fun w => ?_, ?_, ?_⟩, hg.1, hg.2, rfl⟩
  · exact nodup_append_singleton h.nodup htq
  · by_cases hw : w = t
    · subst hw
      simp only [Local, Pending, update_self]
      exact ⟨.inl hg.2, .inl ⟨by simp, trivial, rfl⟩⟩
    · refine (h.locals w).frame (by simp [hw]) (.inl rfl) (by simp [hw]) (by simp [hw])
        (by simp [hw]) ?_
      intro hb
      exact absurd (h.eq_of_broadcasting (by rw [hg.2]; trivial) hb) hw
  · -- The newcomer is the youngest waiter.
    refine List.pairwise_append.mpr ⟨?_, by simp, ?_⟩
    · refine h.sorted.imp_of_mem (fun {a b} ha hb hab => ?_)
      have hat : a ≠ t := by rintro rfl; exact htq ha
      have hbt : b ≠ t := by rintro rfl; exact htq hb
      simpa [hat, hbt] using hab
    · intro a ha b hb
      have hat : a ≠ t := by rintro rfl; exact htq ha
      simp only [List.mem_singleton] at hb
      subst hb
      simpa [hat] using h.arrived a ha
  · intro w hw
    by_cases hwt : w = t
    · subst hwt; simp
    · have := h.arrived w (by simpa [hwt] using hw)
      simp only [ne_eq, hwt, not_false_eq_true, update_of_ne]
      omega

/-- The private semaphore and the place of a thread change: only that thread can lose its
`Local`. -/
theorem Inv.moveWaiter (h : s.Inv) {t : T} {sem : Semaphore T} {p : CondPc}
    (hloc : ({ s with waiter := update s.waiter t sem, pc := update s.pc t p } :
      CondState T).Local t) :
    ({ s with waiter := update s.waiter t sem, pc := update s.pc t p } :
      CondState T).Inv := by
  refine ⟨h.lock, h.nodup, fun w => ?_, h.sorted, h.arrived⟩
  by_cases hw : w = t
  · rw [hw]
    exact hloc
  · exact (h.locals w).frame (by simp [hw]) (.inl rfl) Iff.rfl rfl (by simp [hw])
      fun _ => ⟨rfl, rfl, rfl⟩

omit [DecidableEq T] in
/-- A thread before the test of `waiter->P()` is queued, or has been signalled. -/
theorem Inv.of_test (h : s.Inv) {t : T} (hpc : s.pc t = .entering ∨ s.pc t = .woken) :
    s.lock.pc t = .outside ∧
      (s.pc t = .entering ∧ t ∈ s.waitQueue ∧ s.signalled t = false ∧ s.waiter t = ⟨0, []⟩ ∨
        t ∉ s.waitQueue ∧ s.signalled t = true ∧ s.waiter t = ⟨1, []⟩) := by
  have hl := h.locals t
  rcases hpc with hpc | hpc <;> simp only [Local, Pending, hpc] at hl
  · exact ⟨hl.1, hl.2.imp_left fun hp => ⟨hpc, hp⟩⟩
  · exact ⟨hl.1, .inr hl.2⟩

/-- A pass through the test of `waiter->P()`: the thread sleeps exactly when it has not been
signalled. -/
theorem Inv.waiterTest (h : s.Inv) (t : T) : (s.next (.waiterTest t)).Meets fun s' =>
    s'.Inv ∧ ∃ sem p, s' = { s with waiter := update s.waiter t sem, pc := update s.pc t p } ∧
      (s.pc t = .entering ∧ s.signalled t = false ∧ p = .asleep ∨
       (s.pc t = .entering ∨ s.pc t = .woken) ∧ s.signalled t = true ∧ p = .acquiring) := by
  refine .ite fun hpc => ?_
  obtain ⟨hlk, ⟨he, hmem, hsig, hw⟩ | ⟨hnq, hsig, hw⟩⟩ := h.of_test hpc <;> rw [hw]
  · -- Not signalled yet: the semaphore is empty and the thread goes to sleep.
    refine ⟨h.moveWaiter ?_, _, _, rfl, .inl ⟨he, hsig, rfl⟩⟩
    simp only [Local, update_self]
    exact ⟨hlk, hmem, hsig, rfl⟩
  · refine ⟨h.moveWaiter ?_, _, _, rfl, .inr ⟨hpc, hsig, rfl⟩⟩
    simp only [Local, update_self]
    exact ⟨by rw [hlk]; nofun, by rw [hlk]; nofun, hnq, hsig⟩

/-- `Signal` on a non-empty queue by the lock's holder, called directly or from the loop of
`Broadcast`, which also records the thread it dequeued in `d`. -/
theorem Inv.dequeue (h : s.Inv) {t u : T} {rest : List T} (ht : s.lock.pc t = .holding)
    (hpc : s.pc t = .outside ∨ s.pc t = .broadcasting) (hq : s.waitQueue = u :: rest)
    (d : T → List T) (hd : s.pc t = .broadcasting → s.queuedAtStart t = d t ++ rest) :
    ({ s.signalFront with dequeued := d } : CondState T).Inv := by
  have hnd : u ∉ rest ∧ rest.Nodup := List.nodup_cons.mp (hq ▸ h.nodup)
  have htq : t ∉ s.waitQueue := by
    have hl := h.locals t
    rcases hpc with hpc | hpc <;> simp only [Local, hpc] at hl
    · exact hl
    · exact hl.2.1
  have htrest : t ∉ rest := fun hm => htq (by simp [hq, hm])
  have hsorted := h.sorted
  rw [hq] at hsorted
  have harr : ∀ w ∈ rest, s.arrival w < s.clock := fun w hw => h.arrived w (by simp [hq, hw])
  obtain ⟨p, hp, hs⟩ := h.signalFront_cons hq
  rw [hs]
  refine ⟨h.lock, hnd.2, fun w => ?_, (List.pairwise_cons.mp hsorted).2, harr⟩
  by_cases hwu : w = u
  · subst hwu
    have hl := h.locals w
    rcases hp with ⟨hpcw | hpcw, rfl⟩ | ⟨hpcw, rfl⟩ <;>
      simp only [Local, Pending, hpcw, update_self] at hl ⊢
    · exact ⟨hl.1, .inr ⟨hnd.1, trivial, trivial⟩⟩
    · exact ⟨hl.1, .inr ⟨hnd.1, trivial, trivial⟩⟩
    · exact ⟨hl.1, hnd.1, trivial, trivial⟩
  by_cases hwt : w = t
  · -- The holder stays where it is.
    subst hwt
    rcases hpc with hpc | hpc <;> simp only [Local, update_of_ne hwu, hpc]
    · exact htrest
    · exact ⟨ht, htrest, hd hpc⟩
  · refine (h.locals w).frame (by simp [hwu]) (.inl rfl) (by simp [hq, hwu]) (by simp [hwu])
      (by simp [hwu]) fun hb => ?_
    exact absurd (h.eq_of_broadcasting (by rw [ht]; trivial) hb) hwt

/-- Leaving or entering `Broadcast` only moves the program counter of the lock's holder. -/
theorem Inv.moveHolder (h : s.Inv) {t : T} {p : CondPc} {q d : T → List T}
    (ht : s.lock.pc t = .holding) (htq : t ∉ s.waitQueue)
    (hp : p = .outside ∨ p = .broadcasting ∧ q t = d t ++ s.waitQueue) :
    ({ s with pc := update s.pc t p, queuedAtStart := q, dequeued := d } :
      CondState T).Inv := by
  refine ⟨h.lock, h.nodup, fun w => ?_, h.sorted, h.arrived⟩
  by_cases hwt : w = t
  · subst hwt
    rcases hp with rfl | ⟨rfl, hqd⟩ <;> simp only [Local, update_self]
    · exact htq
    · exact ⟨ht, htq, hqd⟩
  · refine (h.locals w).frame (by simp [hwt]) (.inl rfl) Iff.rfl rfl rfl ?_
    intro hb
    exact absurd (h.eq_of_broadcasting (by rw [ht]; trivial) hb) hwt

theorem Inv.signal (h : s.Inv) (t : T) : (s.next (.signal t)).Meets fun s' =>
    s'.Inv ∧ s.pc t = .outside ∧ s.lock.pc t = .holding ∧ s' = s.signalFront := by
  refine .ite fun hg => ?_
  rw [if_pos (show s.lock.isHeldBy t from h.lock.holder t hg.2)]
  refine ⟨?_, hg.1, hg.2, rfl⟩
  cases hq : s.waitQueue with
  | nil =>
    have hsame : s.signalFront = s := by unfold signalFront; rw [hq]; rfl
    rw [hsame]
    exact h
  | cons u rest =>
    refine h.dequeue hg.2 (.inl hg.1) hq s.signalFront.dequeued fun hb => ?_
    rw [hg.1] at hb
    cases hb

theorem Inv.broadcast (h : s.Inv) (t : T) : (s.next (.broadcast t)).Meets fun s' =>
    s'.Inv ∧ s' = { s with
        pc := update s.pc t .broadcasting
        queuedAtStart := update s.queuedAtStart t s.waitQueue
        dequeued := update s.dequeued t [] } :=
  .ite fun hg => ⟨h.moveHolder hg.2 (h.notMem_of_outside hg.1) (.inr ⟨rfl, by simp⟩), rfl⟩

/-- One round of the loop of `Broadcast`: it ends, or it dequeues one thread. -/
theorem Inv.broadcastLoop (h : s.Inv) {t : T} (hpc : s.pc t = .broadcasting) :
    ∃ s', s.next (.broadcastLoop t) = .next s' ∧ s'.Inv ∧
      (s.waitQueue = [] ∧ s' = { s with pc := update s.pc t .outside } ∨
       ∃ u rest, s.waitQueue = u :: rest ∧ s' = { s.signalFront with
          dequeued := update s.dequeued t (s.dequeued t ++ [u]) }) := by
  have hl := h.locals t
  simp only [Local, hpc] at hl
  obtain ⟨hlk, htq, hqd⟩ := hl
  have hnext : s.next (.broadcastLoop t) =
      match s.waitQueue with
      | [] => .next { s with pc := update s.pc t .outside }
      | u :: _ =>
        if s.lock.isHeldBy t then
          .next { s.signalFront with
            dequeued := update s.dequeued t (s.dequeued t ++ [u]) }
        else .fault := by
    rw [CondState.next, if_pos hpc]
  cases hq : s.waitQueue with
  | nil =>
    rw [hq] at hnext
    refine ⟨_, hnext, ?_, .inl ⟨rfl, rfl⟩⟩
    have hi := h.moveHolder (q := s.queuedAtStart) (d := s.dequeued) hlk htq (.inl rfl)
    rw [hq] at hi
    exact hi
  | cons u rest =>
    rw [hq] at hnext
    simp only [if_pos (show s.lock.isHeldBy t from h.lock.holder t hlk)] at hnext
    refine ⟨_, hnext, ?_, .inr ⟨u, rest, rfl, rfl⟩⟩
    exact h.dequeue hlk (.inr hpc) hq _ (fun _ => by simp [hqd, hq])

/-- The invariant survives every action. -/
theorem Inv.next (h : s.Inv) {a : CondAction T} (hs : s.next a = .next s') : s'.Inv := by
  cases a with
  | lock a => exact h.lockStep hs
  | wait t => exact ((h.wait t).next hs).1
  | waiterTest t => exact ((h.waiterTest t).next hs).1
  | signal t => exact ((h.signal t).next hs).1
  | broadcast t => exact ((h.broadcast t).next hs).1
  | broadcastLoop t =>
    by_cases hpc : s.pc t = .broadcasting
    · obtain ⟨s'', hs'', hi, -⟩ := h.broadcastLoop hpc
      rw [hs''] at hs
      cases hs
      exact hi
    · simp [CondState.next, hpc] at hs

/-- In a state of the invariant no assertion fails: the callers hold the lock, and a private
semaphore is queued once. -/
theorem Inv.no_fault (h : s.Inv) (a : CondAction T) : s.next a ≠ .fault := by
  cases a with
  | lock a =>
    intro hf
    have hmap : ∀ f : LockState T → CondState T, (s.lock.next a).map f ≠ .fault :=
      fun f hf => h.lock.no_fault a (Outcome.map_eq_fault_iff.mp hf)
    simp only [CondState.next, CondState.lockStep] at hf
    split at hf
    all_goals first | exact hmap _ hf | cases hf
  | wait t => exact (h.wait t).ne_fault
  | waiterTest t => exact (h.waiterTest t).ne_fault
  | signal t => exact (h.signal t).ne_fault
  | broadcast t => exact (h.broadcast t).ne_fault
  | broadcastLoop t =>
    by_cases hpc : s.pc t = .broadcasting
    · obtain ⟨s'', hs'', -⟩ := h.broadcastLoop hpc
      rw [hs'']; nofun
    · simp [CondState.next, hpc]

end CondState

/-! ### How program counters move -/

namespace CondState

variable {s s' : CondState T}

/-- A `Signal` moves at most one program counter: that of a sleeper it wakes. -/
theorem Inv.signalFront_pc (h : s.Inv) (t : T) :
    s.signalFront.pc t = s.pc t ∨ (s.pc t = .asleep ∧ s.signalFront.pc t = .woken) := by
  cases hq : s.waitQueue with
  | nil => exact .inl (by unfold signalFront; rw [hq]; rfl)
  | cons u rest =>
    obtain ⟨p, ⟨-, rfl⟩ | ⟨hpc, rfl⟩, hs⟩ := h.signalFront_cons hq <;> rw [hs]
    · exact .inl (by rw [update_eq_self])
    · by_cases htu : t = u
      · subst htu; exact .inr ⟨hpc, by simp⟩
      · exact .inl (by simp [htu])

/-- The `Signal`s of a `Broadcast` leave it in its loop, with a shorter queue. -/
theorem Inv.signalFront_broadcasting (h : s.Inv) {t u : T} {rest : List T}
    (hpc : s.pc t = .broadcasting) (hq : s.waitQueue = u :: rest) :
    s.signalFront.pc t = .broadcasting ∧ s.signalFront.waitQueue = rest ∧
      s.signalFront.queuedAtStart = s.queuedAtStart := by
  refine ⟨?_, ?_⟩
  · rcases h.signalFront_pc t with heq | ⟨ha, -⟩
    · rw [heq, hpc]
    · rw [hpc] at ha; cases ha
  · obtain ⟨p, -, hs⟩ := h.signalFront_cons hq
    rw [hs]
    exact ⟨rfl, rfl⟩

/-- What a `Signal`, called directly or by `Broadcast`, does to a non-empty queue. -/
theorem Inv.signal_or_loop (h : s.Inv) {a : CondAction T} {t u : T} {rest : List T}
    (ha : a = .signal t ∨ a = .broadcastLoop t) (hs : s.next a = .next s')
    (hq : s.waitQueue = u :: rest) :
    s'.waitQueue = rest ∧ s'.signalled = update s.signalled u true := by
  have hfront : s.signalFront.waitQueue = rest ∧
      s.signalFront.signalled = update s.signalled u true := by
    obtain ⟨p, -, hs⟩ := h.signalFront_cons hq
    rw [hs]
    exact ⟨rfl, rfl⟩
  rcases ha with rfl | rfl
  · obtain ⟨-, -, -, rfl⟩ := (h.signal _).next hs
    exact hfront
  · by_cases hpc : s.pc t = .broadcasting
    · obtain ⟨s'', hs'', -, ⟨hnil, -⟩ | ⟨v, tail, -, rfl⟩⟩ := h.broadcastLoop hpc
      · rw [hq] at hnil; cases hnil
      · rw [hs''] at hs
        cases hs
        exact hfront
    · simp [CondState.next, hpc] at hs

/-- The last step of `Wait`: the thread has been signalled and holds the lock. -/
theorem Inv.setHolder_of_acquiring (h : s.Inv) {t : T} (hpc : s.pc t = .acquiring)
    (hs : s.next (.lock (.setHolder t)) = .next s') :
    s.signalled t = true ∧ s'.lock.pc t = .holding ∧ s'.lock.lockHolder = some t := by
  have hl := h.locals t
  simp only [Local, hpc] at hl
  obtain ⟨l, p, hnext, rfl, -⟩ := lockStep_cases hs
  have hmoves := (h.lock.next_moves hnext).2
  exact ⟨hl.2.2.2, hmoves, (h.lock.next hnext).holder t hmoves⟩

/-- Every way in which an action can move the program counter of thread `t`. -/
inductive PcStep (s : CondState T) (t : T) : CondAction T → CondPc → CondPc → Prop where
  | stay {a p} : PcStep s t a p p
  | wait : PcStep s t (.wait t) .outside .releasing
  | released : PcStep s t (.lock (.releaseV t)) .releasing .entering
  | sleep : s.signalled t = false → PcStep s t (.waiterTest t) .entering .asleep
  | wake {a} : PcStep s t a .asleep .woken
  | pass {p} : s.signalled t = true → p = .entering ∨ p = .woken →
      PcStep s t (.waiterTest t) p .acquiring
  | returns : PcStep s t (.lock (.setHolder t)) .acquiring .outside
  | broadcast {p} : PcStep s t (.broadcast t) p .broadcasting
  | finish : s.waitQueue = [] → PcStep s t (.broadcastLoop t) .broadcasting .outside

/-- A move of one program counter. -/
theorem PcStep.update {a : CondAction T} {u : T} {p q : CondPc} (hu : s.pc u = q)
    (h : PcStep s u a q p) (t : T) : PcStep s t a (s.pc t) (update s.pc u p t) := by
  by_cases htu : t = u
  · rw [htu, hu, update_self]
    exact h
  · rw [update_of_ne htu]
    exact .stay

theorem Inv.signalFront_pcStep (h : s.Inv) (a : CondAction T) (t : T) :
    PcStep s t a (s.pc t) (s.signalFront.pc t) := by
  rcases h.signalFront_pc t with heq | ⟨hasleep, hwoken⟩
  · rw [heq]
    exact .stay
  · rw [hasleep, hwoken]
    exact .wake

theorem Inv.next_pc (h : s.Inv) {a : CondAction T} (hs : s.next a = .next s') (t : T) :
    PcStep s t a (s.pc t) (s'.pc t) := by
  cases a with
  | lock a =>
    obtain ⟨l, p, -, rfl,
      ⟨-, rfl⟩ | ⟨-, -, rfl⟩ | ⟨-, -, rfl⟩ | ⟨u, rfl, hu, rfl⟩ | ⟨u, rfl, hu, rfl⟩⟩ :=
      lockStep_cases hs
    · exact .stay
    · exact .stay
    · exact .stay
    · exact .update hu .released t
    · exact .update hu .returns t
  | wait u =>
    obtain ⟨-, hu, -, rfl⟩ := (h.wait _).next hs
    exact .update hu .wait t
  | waiterTest u =>
    obtain ⟨-, sem, p, rfl, ⟨hu, hsig, rfl⟩ | ⟨hu, hsig, rfl⟩⟩ := (h.waiterTest _).next hs
    · exact .update hu (.sleep hsig) t
    · exact .update rfl (.pass hsig hu) t
  | signal u =>
    obtain ⟨-, -, -, rfl⟩ := (h.signal _).next hs
    exact h.signalFront_pcStep _ t
  | broadcast u =>
    obtain ⟨-, rfl⟩ := (h.broadcast _).next hs
    exact .update rfl .broadcast t
  | broadcastLoop u =>
    by_cases hpc : s.pc u = .broadcasting
    · obtain ⟨s'', hs'', -, hcase⟩ := h.broadcastLoop hpc
      rw [hs''] at hs
      cases hs
      rcases hcase with ⟨hq, rfl⟩ | ⟨v, rest, -, rfl⟩
      · exact .update hpc (.finish hq) t
      · exact h.signalFront_pcStep _ t
    · simp [CondState.next, hpc] at hs

omit [DecidableEq T] in
/-- A signalled thread is not asleep. -/
theorem Inv.not_asleep (h : s.Inv) {t : T} (hsig : s.signalled t = true) : s.pc t ≠ .asleep := by
  intro hpc
  have hl := h.locals t
  simp only [Local, hpc] at hl
  rw [hsig] at hl
  exact absurd hl.2.2.1 (by decide)

/-- While a thread is broadcasting, nobody else touches the queue. -/
theorem Inv.next_broadcasting (h : s.Inv) {t : T} (hpc : s.pc t = .broadcasting)
    {a : CondAction T} (ha : a ≠ .broadcastLoop t) (hs : s.next a = .next s') :
    s'.pc t = .broadcasting ∧ s'.waitQueue = s.waitQueue := by
  have hlk : s.lock.pc t = .holding := by
    have hl := h.locals t
    simp only [Local, hpc] at hl
    exact hl.1
  have hother : ∀ u, s.lock.pc u = .holding → s.pc u = .outside → False := by
    intro u hu hout
    have htu := h.eq_of_broadcasting (t := u) (by rw [hu]; trivial) hpc
    rw [htu, hout] at hpc
    cases hpc
  refine ⟨?_, ?_⟩
  · have hstep := h.next_pc hs t
    rw [hpc] at hstep
    generalize s'.pc t = p at hstep
    cases hstep with
    | stay | broadcast => rfl
    | pass _ hp => simp at hp
    | finish _ => exact (ha rfl).elim
  · cases a with
    | lock a =>
      obtain ⟨l, p, -, rfl, -⟩ := lockStep_cases hs
      rfl
    | wait u =>
      obtain ⟨-, hout, hu, -⟩ := (h.wait _).next hs
      exact absurd hout (fun hout => hother u hu hout)
    | waiterTest u =>
      obtain ⟨-, sem, p, rfl, -⟩ := (h.waiterTest _).next hs
      rfl
    | signal u =>
      obtain ⟨-, hout, hu, -⟩ := (h.signal _).next hs
      exact absurd hout (fun hout => hother u hu hout)
    | broadcast u =>
      obtain ⟨-, rfl⟩ := (h.broadcast _).next hs
      rfl
    | broadcastLoop u =>
      by_cases hu : s.pc u = .broadcasting
      · have hut := h.eq_of_broadcasting (t := t) (by rw [hlk]; trivial) hu
        exact absurd (by rw [hut]) ha
      · simp [CondState.next, hu] at hs

end CondState

theorem cond_inv {s : CondState T} (h : (condSystem T).Reachable s) : s.Inv :=
  h.invariant (I := CondState.Inv) (by rintro s rfl; exact .new) (fun _ _ _ hi hs => hi.next hs)

/-! ### No signal is lost -/

/-- **A call of `Broadcast` terminates.** As long as `t` does not call `Broadcast` again, the
rounds it has made and the threads still queued add up to the queue it started from, and
one more round than that ends the call. -/
theorem broadcast_rounds {s s' : CondState T} (h : s.Inv) {t : T} (hpc : s.pc t = .broadcasting)
    {ls : List (CondAction T)} (hr : (condSystem T).Run s ls s') (hls : .broadcast t ∉ ls) :
    s'.Inv ∧
    ((s'.pc t = .broadcasting ∧
        ls.count (.broadcastLoop t) + s'.waitQueue.length = s.waitQueue.length) ∨
     (s'.pc t ≠ .broadcasting ∧ ls.count (.broadcastLoop t) = s.waitQueue.length + 1)) := by
  induction hr with
  | nil => exact ⟨h, .inl ⟨hpc, by simp⟩⟩
  | @snoc s₁ s₂ ls l hr hs ih =>
    have hs : s₁.next l = .next s₂ := hs
    obtain ⟨hi, hcase⟩ := ih (fun hm => hls (List.mem_append_left _ hm))
    have hl : l ≠ .broadcast t := fun hl => hls (by simp [hl])
    refine ⟨hi.next hs, ?_⟩
    rw [List.count_append]
    rcases hcase with ⟨hb, hcount⟩ | ⟨hb, hcount⟩
    · by_cases hloop : l = .broadcastLoop t
      · -- A round of `t` itself: it dequeues one thread, or it was the last one.
        subst hloop
        obtain ⟨s'', hs'', -, hround⟩ := hi.broadcastLoop hb
        rw [hs''] at hs
        cases hs
        rcases hround with ⟨hq, rfl⟩ | ⟨u, rest, hq, rfl⟩
        · refine .inr ⟨by simp, ?_⟩
          rw [hq] at hcount
          simp at hcount ⊢
          omega
        · obtain ⟨hpc', hq', -⟩ := hi.signalFront_broadcasting hb hq
          refine .inl ⟨hpc', ?_⟩
          show _ + s₁.signalFront.waitQueue.length = _
          rw [hq']
          rw [hq] at hcount
          simp at hcount ⊢
          omega
      · -- Anybody else leaves the queue alone.
        obtain ⟨hb', hq'⟩ := hi.next_broadcasting hb hloop hs
        refine .inl ⟨hb', ?_⟩
        rw [hq']
        simpa [hloop] using hcount
    · have hloop : l ≠ .broadcastLoop t := by
        rintro rfl
        simp [CondState.next, hb] at hs
      refine .inr ⟨fun hb' => ?_, by simpa [hloop] using hcount⟩
      have hstep := hi.next_pc hs t
      rw [hb'] at hstep
      generalize s₁.pc t = p at hstep hb
      cases hstep with
      | stay => exact hb rfl
      | broadcast => exact hl rfl

/-- **Condition variables lose no signal.** In every state that any number of threads can reach:

    * a thread that returns from `Wait` has been dequeued since it was queued, and holds the
      lock;
    * a `Signal` on a non-empty queue, on its own or from a `Broadcast`, dequeues its first
      thread, which is the one that has waited longest, and nobody else;
    * a dequeued thread is not asleep in this `Wait`, and its next test of `waiter->P()` passes;
    * a `Broadcast` can always go on, has dequeued a first part of the queue it found and faces
      the rest, and returns when it has dequeued all of it, after one round a thread. -/
theorem condition_loses_no_signal (s : CondState T) (h : (condSystem T).Reachable s) :
    (∀ a s' t, s.next a = .next s' → (s.pc t).inWait → s'.pc t = .outside →
      s.signalled t = true ∧ s'.lock.pc t = .holding ∧ s'.lock.lockHolder = some t) ∧
    (∀ a t s' u rest, a = .signal t ∨ a = .broadcastLoop t → s.next a = .next s' →
      s.waitQueue = u :: rest →
      s'.waitQueue = rest ∧ s'.signalled = update s.signalled u true ∧
        ∀ w ∈ rest, s.arrival u < s.arrival w) ∧
    (∀ t, s.signalled t = true → s.pc t ≠ .asleep ∧
      ∀ s', s.next (.waiterTest t) = .next s' → s'.pc t = .acquiring) ∧
    (∀ t, s.pc t = .broadcasting →
      s.queuedAtStart t = s.dequeued t ++ s.waitQueue ∧
      (∃ s', s.next (.broadcastLoop t) = .next s' ∧ s'.queuedAtStart t = s.queuedAtStart t ∧
        (s'.pc t = .outside → s'.dequeued t = s'.queuedAtStart t)) ∧
      ∀ ls s', (condSystem T).Run s ls s' → .broadcast t ∉ ls →
        (s'.pc t = .broadcasting ∧
          ls.count (.broadcastLoop t) + s'.waitQueue.length = s.waitQueue.length) ∨
        (s'.pc t ≠ .broadcasting ∧ ls.count (.broadcastLoop t) = s.waitQueue.length + 1)) := by
  have hi := cond_inv h
  refine ⟨?_, ?_, ?_, ?_⟩
  · intro a s' t hs hw hout
    have hstep := hi.next_pc hs t
    rw [hout] at hstep
    generalize hp : s.pc t = p at hstep hw
    cases hstep with
    | stay | finish => exact hw.elim
    | returns => exact hi.setHolder_of_acquiring hp hs
  · intro a t s' u rest ha hs hq
    have hsorted := hi.sorted
    rw [hq, List.pairwise_cons] at hsorted
    obtain ⟨hq', hsig'⟩ := hi.signal_or_loop ha hs hq
    exact ⟨hq', hsig', hsorted.1⟩
  · intro t hsig
    refine ⟨hi.not_asleep hsig, fun s' hs => ?_⟩
    obtain ⟨-, sem, p, rfl, ⟨-, hsig', -⟩ | ⟨-, -, rfl⟩⟩ := (hi.waiterTest _).next hs
    · rw [hsig] at hsig'; cases hsig'
    · simp
  · intro t hpc
    have hl := hi.locals t
    simp only [CondState.Local, hpc] at hl
    refine ⟨hl.2.2, ?_, fun ls s' hr hls => (broadcast_rounds hi hpc hr hls).2⟩
    obtain ⟨s', hs, -, ⟨hq, rfl⟩ | ⟨u, rest, hq, rfl⟩⟩ := hi.broadcastLoop hpc
    · refine ⟨_, hs, rfl, fun _ => ?_⟩
      show s.dequeued t = s.queuedAtStart t
      rw [hl.2.2, hq, List.append_nil]
    · obtain ⟨hpc', -, hstart⟩ := hi.signalFront_broadcasting hpc hq
      refine ⟨_, hs, congrFun hstart t, fun hout => ?_⟩
      rw [show s.signalFront.pc t = .outside from hout] at hpc'
      cases hpc'

/-- Thread 0 waits, thread 1 signals it before it has gone to sleep, and the test of its
`P` lets it pass. -/
theorem condition_loses_no_signal_early :
    ∃ s : CondState (Fin 2), s.pc 0 = .entering ∧ s.pc 1 = .outside ∧ s.lock.pc 1 = .holding ∧
      s.waitQueue = [] ∧ ∀ s', s.next (.waiterTest 0) = .next s' → s'.pc 0 = .acquiring := by
  obtain ⟨s, hs, hpc, hout, hlock, hq, hsig⟩ := (condSystem (Fin 2)).reaches rfl
    [.lock (.acquire 0), .lock (.setHolder 0), .wait 0, .lock (.release 0), .lock (.releaseV 0),
      .lock (.acquire 1), .lock (.setHolder 1), .signal 1]
    (fun s => s.pc 0 = .entering ∧ s.pc 1 = .outside ∧ s.lock.pc 1 = .holding ∧
      s.waitQueue = [] ∧ s.signalled 0 = true) rfl
  exact ⟨s, hpc, hout, hlock, hq, ((condition_loses_no_signal s hs).2.2.1 0 hsig).2⟩

end Nachos.Threads
