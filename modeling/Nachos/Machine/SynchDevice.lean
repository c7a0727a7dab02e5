import Nachos.FileSys.FileHeader
import Nachos.Threads.Lock

namespace Nachos.Machine

open Base Lib Threads Function

/-!
# Machine — devices behind a lock and a completion semaphore

`SynchDisk::ReadSector` and `WriteSector`, `SynchConsoleOutput::PutChar` and
`PostOfficeOutput::Send` are one protocol: take the lock, hand the request to the device, wait on
a semaphore for the interrupt that says the request is done, give the lock back. The handler of
the device clears its busy flag and calls `V`.

`Device` holds what the three devices do differently. `deviceSystem` is any number of callers
and interrupts that come at any later time; a request is known by its number, its place among
the requests the device has received. `DevState.Inv` ties the lock, the flag, the pending
interrupt and the semaphore together: the semaphore has a unit only between an interrupt and the
return of the `P` it is for.
-/

/-! ### The model -/

/-- A device that takes one request at a time. -/
structure Device (R : Type*) where
  /-- Taking a request sets the busy flag. -/
  setsBusy : Bool
  /-- The assertions the device makes about the request itself. -/
  accepts : R → Bool

/-- Where a caller is. -/
inductive DevPc (R : Type*) where
  /-- Not in a call. -/
  | idle
  /-- Before the request, in or behind `lock->Acquire()`. -/
  | calling (r : R)
  /-- Behind the request, before the test of the semaphore. -/
  | requested
  /-- Asleep in `P`. -/
  | asleep
  /-- Woken in `P`, before the next test. -/
  | woken
  /-- Behind `P`, in or before `lock->Release()`. -/
  | served

/-- The caller has made a request and its `P` has not returned. -/
def DevPc.inProgress {R : Type*} : DevPc R → Prop
  | .requested | .asleep | .woken => True
  | _ => False

/-- A device and its callers. -/
structure DevState (T R : Type*) where
  lock : LockState T
  /-- The completion semaphore. -/
  done : Semaphore T
  pc : T → DevPc R
  /-- The flag of the device: `active`, `putBusy` or `sendBusy`. -/
  busy : Bool
  /-- The numbers of the requests whose interrupt is scheduled. -/
  pending : List ℕ
  /-- The requests received, in the order in which the lock was held. -/
  issued : List R
  /-- The number of the caller's last request. -/
  ticket : T → ℕ
  /-- The numbers of the requests whose interrupt has come. -/
  completed : List ℕ

/-- What can happen next. -/
inductive DevAction (T R : Type*) where
  /-- A thread calls the device with a request. -/
  | call (t : T) (r : R)
  /-- A piece of `lock->Acquire()` or `lock->Release()`. -/
  | lock (a : LockAction T)
  /-- The device takes the request. -/
  | request (t : T)
  /-- A pass through the test of `semaphore->P()`. -/
  | test (t : T)
  /-- The call returns. -/
  | leave (t : T)
  /-- The interrupt of a request comes. -/
  | interrupt (k : ℕ)

namespace DevState

variable {T R : Type*}

/-- The constructors of the three classes. -/
def new : DevState T R where
  lock := .new
  done := .new 0
  pc := fun _ => .idle
  busy := false
  pending := []
  issued := []
  ticket := fun _ => 0
  completed := []

variable [DecidableEq T]

/-- Where in a call a piece of the lock's code may be taken. -/
def atLock (s : DevState T R) (a : LockAction T) : Bool :=
  match s.pc a.thread, a with
  | .calling _, .acquire _ | .calling _, .resume _ | .calling _, .setHolder _ => true
  | .served, .release _ | .served, .releaseV _ => true
  | _, _ => false

/-- The device takes the request of thread `t`. -/
def request (d : Device R) (s : DevState T R) (t : T) : Outcome (DevState T R) :=
  match s.pc t with
  | .calling r =>
    if s.lock.pc t = .holding then
      -- `ASSERT(!active)`
      if s.busy then .fault
      -- A request that fails the other assertions ends the simulation here.
      else if d.accepts r then
        .next { s with
          pc := update s.pc t .requested
          busy := d.setsBusy
          pending := s.pending ++ [s.issued.length]
          ticket := update s.ticket t s.issued.length
          issued := s.issued ++ [r] }
      else .disabled
    else .disabled
  | _ => .disabled

/-- Thread `t` passes the test of the completion semaphore. -/
def passTest (s : DevState T R) (t : T) : Outcome (DevState T R) :=
  match s.done.pTest t with
  | none => .fault
  | some (sem, true) => .next { s with done := sem, pc := update s.pc t .served }
  | some (sem, false) => .next { s with done := sem, pc := update s.pc t .asleep }

/-- The device's `CallBack`, and the one it calls. -/
def interrupt (s : DevState T R) (k : ℕ) : Outcome (DevState T R) :=
  if k ∈ s.pending then
    match s.done.v with
    | (sem, none) =>
      .next { s with
        done := sem, busy := false
        pending := s.pending.erase k, completed := s.completed ++ [k] }
    | (sem, some u) =>
      .next { s with
        done := sem, busy := false
        pending := s.pending.erase k, completed := s.completed ++ [k]
        pc := update s.pc u .woken }
  else .disabled

/-- One action. -/
def next (d : Device R) (s : DevState T R) : DevAction T R → Outcome (DevState T R)
  | .call t r =>
    match s.pc t with
    | .idle => .next { s with pc := update s.pc t (.calling r) }
    | _ => .disabled
  | .lock a =>
    if s.atLock a then (s.lock.next a).map fun l => { s with lock := l } else .disabled
  | .request t => s.request d t
  | .test t =>
    match s.pc t with
    | .requested | .woken => s.passTest t
    | _ => .disabled
  | .leave t =>
    match s.pc t with
    | .served =>
      if s.lock.pc t = .outside then .next { s with pc := update s.pc t .idle }
      else .disabled
    | _ => .disabled
  | .interrupt k => s.interrupt k

end DevState

/-- Any number of threads using one device. -/
def deviceSystem (T : Type*) {R : Type*} [DecidableEq T] (d : Device R) :
    LTS (DevState T R) (DevAction T R) where
  init := fun s => s = .new
  next := DevState.next d

/-! ### The invariant -/

namespace DevState

variable {T R : Type*}

/-- The stage of a caller in the call that holds the lock. -/
def stage : DevPc R → Stage
  | .idle => .idle
  | .calling _ => .before
  | .requested | .asleep | .woken => .inside
  | .served => .behind

/-- The device is at rest. -/
structure Quiet (s : DevState T R) : Prop where
  pending : s.pending = []
  busy : s.busy = false
  value : s.done.value = 0
  queue : s.done.queue = []

/-- The interrupt of the request of `t` is still to come. -/
structure Outstanding (s : DevState T R) (t : T) : Prop where
  pending : s.pending = [s.ticket t]
  value : s.done.value = 0
  pc : s.pc t = .requested ∧ s.done.queue = [] ∨ s.pc t = .asleep ∧ s.done.queue = [t]

/-- The interrupt of the request of `t` has come and `t` has not noticed. -/
structure Completed (s : DevState T R) (t : T) : Prop where
  pending : s.pending = []
  busy : s.busy = false
  value : s.done.value = 1
  queue : s.done.queue = []
  last : s.completed.getLast? = some (s.ticket t)
  pc : s.pc t = .requested ∨ s.pc t = .woken

/-- The invariant. -/
structure Inv (s : DevState T R) : Prop where
  lock : s.lock.Inv
  agrees : ∀ t, (stage (s.pc t)).Agrees (s.lock.pc t)
  device : (∀ t, ¬ (s.pc t).inProgress) ∧ s.Quiet ∨ ∃ t, s.Outstanding t ∨ s.Completed t
  served : ∀ t, s.pc t = .served → s.ticket t ∈ s.completed

theorem atLock_eq (s : DevState T R) (a : LockAction T) :
    s.atLock a = (stage (s.pc a.thread)).allows a := by
  unfold atLock
  cases s.pc a.thread <;> cases a <;> rfl

variable {s s' : DevState T R} {t : T}

theorem Outstanding.inProgress (h : s.Outstanding t) : (s.pc t).inProgress := by
  rcases h.pc with ⟨hpc, -⟩ | ⟨hpc, -⟩ <;> (rw [hpc]; trivial)

theorem Completed.inProgress (h : s.Completed t) : (s.pc t).inProgress := by
  rcases h.pc with hpc | hpc <;> (rw [hpc]; trivial)

theorem Inv.holding (h : s.Inv) (ht : (s.pc t).inProgress) : s.lock.pc t = .holding := by
  have hag := h.agrees t
  cases hpc : s.pc t <;> rw [hpc] at ht hag <;> first | exact hag | exact absurd ht id

/-- A thread that holds the lock and has made no request finds the device at rest. -/
theorem Inv.quiet (h : s.Inv) (ht : s.lock.pc t = .holding) (hpc : ¬ (s.pc t).inProgress) :
    s.Quiet ∧ ∀ u, ¬ (s.pc u).inProgress := by
  rcases h.device with ⟨hnone, hq⟩ | ⟨u, hu⟩
  · exact ⟨hq, hnone⟩
  · have hup : (s.pc u).inProgress := hu.elim Outstanding.inProgress Completed.inProgress
    rw [h.lock.unique_holding ht (h.holding hup)] at hpc
    exact absurd hup hpc

/-- The thread in progress is the one the device works for. -/
theorem Inv.device_of_inProgress (h : s.Inv) (ht : (s.pc t).inProgress) :
    s.Outstanding t ∨ s.Completed t := by
  rcases h.device with ⟨hnone, -⟩ | ⟨u, hu⟩
  · exact absurd ht (hnone t)
  · have hup : (s.pc u).inProgress := hu.elim Outstanding.inProgress Completed.inProgress
    rwa [h.lock.unique_holding (h.holding hup) (h.holding ht)] at hu

/-! ### What each action keeps -/

variable [DecidableEq T]

theorem Inv.agrees_update (h : s.Inv) {c : DevPc R} (hc : (stage c).Agrees (s.lock.pc t)) (u : T) :
    (stage (update s.pc t c u)).Agrees (s.lock.pc u) :=
  (Function.forall_update_iff s.pc fun u c => (stage c).Agrees (s.lock.pc u)).mpr
    ⟨hc, fun u _ => h.agrees u⟩ u

/-- One thread moves, and its request is done if it is behind `P` now. -/
theorem served_update {pc : T → DevPc R} {ticket : T → ℕ} {completed : List ℕ} {c : DevPc R}
    (h : ∀ u, pc u = .served → ticket u ∈ completed) (hc : c = .served → ticket t ∈ completed)
    (u : T) : update pc t c u = .served → ticket u ∈ completed :=
  (Function.forall_update_iff pc fun u c => c = .served → ticket u ∈ completed).mpr
    ⟨hc, fun u _ => h u⟩ u

/-- A thread moves outside the part of the call that concerns the device. -/
theorem Inv.move (h : s.Inv) {c : DevPc R} (ht : ¬ (s.pc t).inProgress) (hc : ¬ c.inProgress)
    (hag : (stage c).Agrees (s.lock.pc t)) (hserved : c ≠ .served) :
    ({ s with pc := update s.pc t c } : DevState T R).Inv := by
  refine ⟨h.lock, h.agrees_update hag, ?_,
    served_update h.served fun hc => absurd hc hserved⟩
  rcases h.device with ⟨hnone, hq⟩ | ⟨u, hu⟩
  · refine .inl ⟨?_, ⟨hq.pending, hq.busy, hq.value, hq.queue⟩⟩
    exact (Function.forall_update_iff s.pc fun _ c => ¬ c.inProgress).mpr ⟨hc, fun u _ => hnone u⟩
  · have hut : u ≠ t := by
      rintro rfl
      exact ht (hu.elim Outstanding.inProgress Completed.inProgress)
    refine .inr ⟨u, ?_⟩
    rcases hu with ⟨hp, hv, hpc⟩ | ⟨hp, hb, hv, hq, hl, hpc⟩
    · exact .inl ⟨hp, hv, by simpa [hut] using hpc⟩
    · exact .inr ⟨hp, hb, hv, hq, hl, by simpa [hut] using hpc⟩

theorem Inv.lockStep (h : s.Inv) {a : LockAction T} (hat : s.atLock a = true) {l : LockState T}
    (hl : s.lock.next a = .next l) : ({ s with lock := l } : DevState T R).Inv := by
  rw [atLock_eq] at hat
  refine ⟨h.lock.next hl, h.lock.agrees_next h.agrees hat hl, ?_, h.served⟩
  rcases h.device with ⟨hnone, hq⟩ | ⟨u, hu⟩
  · exact .inl ⟨hnone, hq.pending, hq.busy, hq.value, hq.queue⟩
  · refine .inr ⟨u, ?_⟩
    rcases hu with ⟨hp, hv, hpc⟩ | ⟨hp, hb, hv, hq, hl, hpc⟩
    · exact .inl ⟨hp, hv, hpc⟩
    · exact .inr ⟨hp, hb, hv, hq, hl, hpc⟩

/-- The device takes a request: it is at rest, so its assertion holds. -/
theorem Inv.request (h : s.Inv) (d : Device R) (t : T) : (s.request d t).Meets Inv := by
  unfold DevState.request
  split
  · rename_i r hpc
    apply Outcome.Meets.ite
    intro hhold
    obtain ⟨hq, hnone⟩ := h.quiet hhold (by rw [hpc]; exact id)
    rw [if_neg (by simp [hq.busy])]
    apply Outcome.Meets.ite
    intro _
    refine ⟨h.lock, h.agrees_update hhold, .inr ⟨t, .inl ⟨?_, hq.value, ?_⟩⟩, fun u hu => ?_⟩
    · simp [hq.pending]
    · simp [hq.queue]
    · by_cases hut : u = t
      · subst hut; simp at hu
      · simpa [hut] using h.served u (by simpa [hut] using hu)
  · trivial

/-- The test of the semaphore: with the interrupt outstanding the caller goes to sleep, and
after it `P` returns and the device is at rest. -/
theorem Inv.passTest (h : s.Inv) (ht : (s.pc t).inProgress) (hasleep : s.pc t ≠ .asleep) :
    (s.passTest t).Meets Inv := by
  have hhold := h.holding ht
  have hother : ∀ u, u ≠ t → ¬ (s.pc u).inProgress := by
    intro u hu hup
    exact hu (h.lock.unique_holding (h.holding hup) hhold)
  unfold DevState.passTest
  rcases h.device_of_inProgress ht with ho | hc
  · rcases ho.pc with ⟨hpc, hq⟩ | ⟨hpc, -⟩
    · rw [Semaphore.pTest_zero ho.value (by simp [hq])]
      refine ⟨h.lock, h.agrees_update hhold, .inr ⟨t, .inl ⟨ho.pending, ho.value, ?_⟩⟩,
        served_update h.served nofun⟩
      simp [hq]
    · exact absurd hpc hasleep
  · rw [Semaphore.pTest_ne_zero (by rw [hc.value]; decide)]
    refine ⟨h.lock, h.agrees_update (.inl hhold), .inl ⟨?_, ⟨hc.pending, hc.busy, ?_, hc.queue⟩⟩,
      served_update h.served fun _ => List.mem_of_getLast? hc.last⟩
    · exact (Function.forall_update_iff s.pc fun _ c => ¬ c.inProgress).mpr ⟨id, hother⟩
    · show wrap32 (s.done.value - 1) = 0
      rw [hc.value]; rfl

/-- An interrupt belongs to the outstanding request, and its unit is for the caller of it. -/
theorem Inv.interrupt (h : s.Inv) (k : ℕ) : (s.interrupt k).Meets Inv := by
  apply Outcome.Meets.ite
  intro hk
  obtain ⟨t, ho⟩ : ∃ t, s.Outstanding t := by
    rcases h.device with ⟨-, hq⟩ | ⟨t, ho | hc⟩
    · simp [hq.pending] at hk
    · exact ⟨t, ho⟩
    · simp [hc.pending] at hk
  have hkt : k = s.ticket t := by simpa [ho.pending] using hk
  subst hkt
  have hhold := h.holding ho.inProgress
  rcases ho.pc with ⟨hpc, hq⟩ | ⟨hpc, hq⟩
  · rw [Semaphore.v_nil hq]
    refine ⟨h.lock, h.agrees, .inr ⟨t, .inr ⟨?_, rfl, ?_, hq, ?_, .inl hpc⟩⟩, fun u hu => ?_⟩
    · simp [ho.pending]
    · show wrap32 (s.done.value + 1) = 1
      rw [ho.value]; rfl
    · simp
    · exact List.mem_append_left _ (h.served u hu)
  · rw [Semaphore.v_cons hq]
    refine ⟨h.lock, h.agrees_update hhold, .inr ⟨t, .inr ⟨?_, rfl, ?_, rfl, ?_, .inr ?_⟩⟩,
      served_update (fun u hu => List.mem_append_left _ (h.served u hu)) nofun⟩
    · simp [ho.pending]
    · show wrap32 (s.done.value + 1) = 1
      rw [ho.value]; rfl
    · simp
    · simp

/-- Every action keeps the invariant and trips no check. -/
theorem Inv.next (h : s.Inv) (d : Device R) (a : DevAction T R) : (s.next d a).Meets Inv := by
  cases a with
  | call t r =>
    simp only [DevState.next]
    split
    · rename_i hpc
      have hag := h.agrees t
      rw [hpc] at hag
      refine h.move (by rw [hpc]; exact id) id ?_ nofun
      rw [show s.lock.pc t = .outside from hag]
      nofun
    · trivial
  | lock a =>
    refine Outcome.Meets.ite fun hat => ?_
    cases hl : s.lock.next a with
    | disabled => trivial
    | fault => exact absurd hl (h.lock.no_fault a)
    | next l => exact h.lockStep hat hl
  | request t => exact h.request d t
  | test t =>
    simp only [DevState.next]
    split
    · rename_i hpc
      exact h.passTest (by rw [hpc]; trivial) (by rw [hpc]; nofun)
    · rename_i hpc
      exact h.passTest (by rw [hpc]; trivial) (by rw [hpc]; nofun)
    · trivial
  | leave t =>
    simp only [DevState.next]
    split
    · rename_i hpc
      refine Outcome.Meets.ite fun hout => ?_
      exact h.move (by rw [hpc]; exact id) id hout nofun
    · trivial
  | interrupt k => exact h.interrupt k

omit [DecidableEq T] in
theorem Inv.new : (DevState.new : DevState T R).Inv where
  lock := .new
  agrees := fun _ => rfl
  device := .inl ⟨fun _ => id, rfl, rfl, rfl, rfl⟩
  served := fun _ ht => nomatch ht

/-! ### What the invariant says -/

/-- What the protocol owes its callers. -/
structure Correct (d : Device R) (s : DevState T R) : Prop where
  no_fault : ∀ a, s.next d a ≠ .fault
  /-- A request reaches the device when no other one is outstanding. -/
  one_request : ∀ t s', s.next d (.request t) = .next s' →
    s.pending = [] ∧ s'.pending = [s'.ticket t]
  /-- A `P` that returns takes the unit of its caller's own interrupt, which is the last one. -/
  own_completion : ∀ t s', s.next d (.test t) = .next s' → s'.pc t = .served →
    s.done.value = 1 ∧ s.completed.getLast? = some (s.ticket t)
  /-- A call returns after the interrupt of its request. -/
  returns_after : ∀ t s', s.next d (.leave t) = .next s' → s.ticket t ∈ s.completed
  value_zero : (∀ t, ¬ (s.pc t).inProgress) → s.done.value = 0

/-- What taking a request does. -/
theorem request_eq_next {d : Device R} (hs : s.request d t = .next s') :
    ∃ r, s.pc t = .calling r ∧ s.lock.pc t = .holding ∧ s' = { s with
      pc := update s.pc t .requested
      busy := d.setsBusy
      pending := s.pending ++ [s.issued.length]
      ticket := update s.ticket t s.issued.length
      issued := s.issued ++ [r] } := by
  unfold DevState.request at hs
  split at hs
  · rename_i r hpc
    obtain ⟨hhold, hs⟩ := Outcome.guard_eq_next.mp hs
    split at hs
    · cases hs
    · obtain ⟨-, hs⟩ := Outcome.guard_eq_next.mp hs
      cases hs
      exact ⟨r, hpc, hhold, rfl⟩
  · cases hs

/-- A thread gets before a request by a call only. -/
theorem next_calling {d : Device R} {a : DevAction T R} (hs : s.next d a = .next s')
    (ha : ∀ u r, a ≠ .call u r) {r : R} (ht : s'.pc t = .calling r) : s.pc t = .calling r := by
  -- The other actions move a thread to another place of its call, if any.
  have hmoved {u : T} {c : DevPc R} (ht : update s.pc u c t = .calling r)
      (hc : c ≠ .calling r) : s.pc t = .calling r := by
    obtain ⟨-, ht⟩ | ⟨-, ht⟩ := update_eq_cases ht
    · exact (hc ht).elim
    · exact ht
  have hpass {u : T} (hs : s.passTest u = .next s') : s.pc t = .calling r := by
    unfold DevState.passTest at hs
    split at hs <;> cases hs
    · exact hmoved ht nofun
    · exact hmoved ht nofun
  cases a with
  | call u r => exact (ha u r rfl).elim
  | lock a =>
    obtain ⟨-, hs⟩ := Outcome.guard_eq_next.mp hs
    obtain ⟨l, -, rfl⟩ := Outcome.map_eq_next_iff.mp hs
    exact ht
  | request u =>
    obtain ⟨r', -, -, rfl⟩ := request_eq_next hs
    exact hmoved ht nofun
  | test u =>
    simp only [DevState.next] at hs
    split at hs
    · exact hpass hs
    · exact hpass hs
    · cases hs
  | leave u =>
    simp only [DevState.next] at hs
    split at hs
    · obtain ⟨-, hs⟩ := Outcome.guard_eq_next.mp hs
      cases hs
      exact hmoved ht nofun
    · cases hs
  | interrupt k =>
    obtain ⟨-, hs⟩ := Outcome.guard_eq_next.mp hs
    split at hs <;> cases hs
    · exact ht
    · exact hmoved ht nofun

theorem Inv.one_request (h : s.Inv) {d : Device R} (hs : s.next d (.request t) = .next s') :
    s.pending = [] ∧ s'.pending = [s'.ticket t] := by
  obtain ⟨r, hpc, hhold, rfl⟩ := request_eq_next hs
  obtain ⟨hq, -⟩ := h.quiet hhold (by rw [hpc]; exact id)
  exact ⟨hq.pending, by simp [hq.pending]⟩

theorem Inv.own_completion (h : s.Inv) {d : Device R} (hs : s.next d (.test t) = .next s')
    (ht : s'.pc t = .served) : s.done.value = 1 ∧ s.completed.getLast? = some (s.ticket t) := by
  have hstep : (s.pc t).inProgress ∧ s.passTest t = .next s' := by
    simp only [DevState.next] at hs
    split at hs
    · rename_i hpc
      exact ⟨by rw [hpc]; trivial, hs⟩
    · rename_i hpc
      exact ⟨by rw [hpc]; trivial, hs⟩
    · cases hs
  rcases h.device_of_inProgress hstep.1 with ho | hc
  · -- With the interrupt outstanding the caller falls asleep.
    have hs := hstep.2
    unfold DevState.passTest Semaphore.pTest at hs
    rw [if_pos ho.value] at hs
    cases ha : append s.done.queue t <;> rw [ha] at hs <;> cases hs
    simp at ht
  · exact ⟨hc.value, hc.last⟩

theorem Inv.correct (h : s.Inv) (d : Device R) : s.Correct d where
  no_fault := fun a => (h.next d a).ne_fault
  one_request := fun _ _ hs => h.one_request hs
  own_completion := fun _ _ hs ht => h.own_completion hs ht
  returns_after := by
    intro t s' hs
    simp only [DevState.next] at hs
    split at hs
    · rename_i hpc
      exact h.served t hpc
    · cases hs
  value_zero := by
    intro hnone
    rcases h.device with ⟨-, hq⟩ | ⟨t, ht⟩
    · exact hq.value
    · exact absurd (ht.elim Outstanding.inProgress Completed.inProgress) (hnone t)

end DevState

theorem device_inv {T R : Type*} [DecidableEq T] {d : Device R} {s : DevState T R}
    (h : (deviceSystem T d).Reachable s) : s.Inv :=
  (h.safe (I := DevState.Inv) (by rintro s rfl; exact .new) (fun _ a hi => hi.next d a)).1

/-! ### The three devices -/

/-- A call of `Disk::ReadRequest` or `Disk::WriteRequest`. -/
structure DiskRequest where
  writing : Bool
  sectorNumber : Int
  deriving DecidableEq

/-- `Disk`, with the flag `active`. -/
def disk : Device DiskRequest where
  setsBusy := true
  accepts r := 0 ≤ r.sectorNumber ∧ r.sectorNumber < FileSys.numDiskSectors

/-- `ConsoleOutput`, with the flag `putBusy`; a request is a character. -/
def consoleOutput : Device UInt8 where
  setsBusy := true
  accepts _ := true

/-- `PacketHeader`. -/
structure PacketHeader where
  /-- `to`. -/
  receiver : Int
  /-- `from`. -/
  sender : Int
  length : ℕ
  deriving DecidableEq

/-- `sizeof(PacketHeader)`. -/
def packetHeaderSize : ℕ := 12

/-- `MaxWireSize`. -/
def maxWireSize : ℕ := 64

/-- `MaxPacketSize`. -/
def maxPacketSize : ℕ := maxWireSize - packetHeaderSize

/-- What `NetworkOutput::Send` is given: the header and the buffer. -/
structure Packet where
  hdr : PacketHeader
  data : List UInt8
  deriving DecidableEq

/-- `NetworkOutput` on the machine `hostName`. `Send` asserts that `sendBusy` is false, but
nothing ever sets it; the interrupt is scheduled for lost packets, too. -/
def networkOutput (hostName : Int) : Device Packet where
  setsBusy := false
  accepts p := 0 < p.hdr.length ∧ p.hdr.length ≤ maxPacketSize ∧ p.hdr.sender = hostName

/-- **One outstanding request per device.** However many threads call `SynchDisk`,
`SynchConsoleOutput` or `PostOfficeOutput`, and whenever the interrupts come: the device is
never given a request while one is outstanding, a call returns after the interrupt of its
own request, and the semaphore is zero when no request is in progress. -/
theorem one_outstanding_request (T : Type*) [DecidableEq T] (hostName : Int) :
    (∀ s, (deviceSystem T disk).Reachable s → s.Correct disk) ∧
    (∀ s, (deviceSystem T consoleOutput).Reachable s → s.Correct consoleOutput) ∧
    (∀ s, (deviceSystem T (networkOutput hostName)).Reachable s →
      s.Correct (networkOutput hostName)) :=
  ⟨fun _ h => (device_inv h).correct _, fun _ h => (device_inv h).correct _,
    fun _ h => (device_inv h).correct _⟩

/-- The first caller waits for the disk while the second one waits for the lock. -/
theorem one_outstanding_request_contended :
    ∃ s : DevState (Fin 2) DiskRequest, s.pending = [0] ∧ s.busy = true ∧
      s.lock.pc 1 = .asleep ∧ s.Correct disk := by
  obtain ⟨s, hs, hpending, hbusy, hpc⟩ := (deviceSystem (Fin 2) disk).reaches rfl
    [.call 0 ⟨false, 7⟩, .lock (.acquire 0), .lock (.setHolder 0), .request 0, .test 0,
      .call 1 ⟨true, 7⟩, .lock (.acquire 1)]
    (fun s => s.pending = [0] ∧ s.busy = true ∧ s.lock.pc 1 = .asleep) rfl
  exact ⟨s, hpending, hbusy, hpc, (one_outstanding_request (Fin 2) 0).1 s hs⟩

end Nachos.Machine
