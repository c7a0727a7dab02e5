import Nachos.Base.Transition
import Nachos.Base.CInt
import Nachos.Lib.List

namespace Nachos.Threads

open Base Lib Function

/-!
# Threads — `Semaphore`

`Semaphore::P` and `Semaphore::V` of `threads/synch.cc` run with interrupts off, so each is
one atomic action, with one exception: a `P` that finds `value == 0` appends the thread to
`queue`, puts it to sleep and tests again when a `V` has made the thread ready and the
scheduler has picked it. `P` is therefore cut at the test of its loop:

* `Semaphore.pTest` — one pass through `while (value == 0)`, ending with the thread asleep
  or with `P` returning;
* `Semaphore.v` — the whole of `V`, with the thread it hands to `Scheduler::ReadyToRun`.

`value` is an `int`: both operations wrap. `semSystem` lets any number of threads interleave
`P`s and `V`s on one semaphore; `SemState.Inv` is what every action keeps as long as no `V`
runs into the largest `int`.
-/

variable {T : Type*} [DecidableEq T]

/-! ### The operations -/

/-- A semaphore: its `value` and the threads waiting in `P`. -/
structure Semaphore (T : Type*) where
  value : Int
  queue : List T
  deriving DecidableEq

namespace Semaphore

/-- `Semaphore::Semaphore(debugName, initialValue)`. -/
def new (initialValue : Int) : Semaphore T := ⟨initialValue, []⟩

/-- One pass of thread `t` through the loop of `Semaphore::P`. The flag says whether `P`
returns; if not, `t` has been put to sleep. `none` is the `ASSERT` of `List::Append`. -/
def pTest (s : Semaphore T) (t : T) : Option (Semaphore T × Bool) :=
  if s.value = 0 then (append s.queue t).map fun q => ({ s with queue := q }, false)
  else some ({ s with value := wrap32 (s.value - 1) }, true)

/-- `Semaphore::V`, together with the thread it makes ready. -/
def v (s : Semaphore T) : Semaphore T × Option T :=
  match removeFront s.queue with
  | none => ({ s with value := wrap32 (s.value + 1) }, none)
  | some (t, rest) => ({ value := wrap32 (s.value + 1), queue := rest }, some t)

theorem pTest_zero {s : Semaphore T} {t : T} (h : s.value = 0) (ht : t ∉ s.queue) :
    s.pTest t = some ({ s with queue := s.queue ++ [t] }, false) := by
  rw [pTest, if_pos h, append_of_notMem ht]; rfl

theorem pTest_ne_zero {s : Semaphore T} {t : T} (h : s.value ≠ 0) :
    s.pTest t = some ({ s with value := wrap32 (s.value - 1) }, true) := if_neg h

/-- Everything a pass can do to a thread that is not queued. -/
theorem pTest_cases {s : Semaphore T} {t : T} (ht : t ∉ s.queue) :
    (s.value = 0 ∧ s.pTest t = some ({ s with queue := s.queue ++ [t] }, false)) ∨
    (s.value ≠ 0 ∧ s.pTest t = some ({ s with value := wrap32 (s.value - 1) }, true)) := by
  by_cases h : s.value = 0
  · exact .inl ⟨h, pTest_zero h ht⟩
  · exact .inr ⟨h, pTest_ne_zero h⟩

/-- A pass that returns has found a unit and taken it. -/
theorem pTest_eq_true {s s' : Semaphore T} {t : T} (h : s.pTest t = some (s', true)) :
    s.value ≠ 0 ∧ s' = { s with value := wrap32 (s.value - 1) } := by
  unfold pTest at h
  split at h
  · simp at h
  · rename_i hne
    simp only [Option.some.injEq, Prod.mk.injEq, and_true] at h
    exact ⟨hne, h.symm⟩

/-- A pass that does not return only changes the queue. -/
theorem pTest_eq_false {s s' : Semaphore T} {t : T} (h : s.pTest t = some (s', false)) :
    s'.value = s.value := by
  unfold pTest at h
  split at h
  · obtain ⟨q, -, hq⟩ := Option.map_eq_some_iff.mp h
    simp only [Prod.mk.injEq, and_true] at hq
    rw [← hq]
  · simp at h

omit [DecidableEq T] in
theorem v_value (s : Semaphore T) : s.v.1.value = wrap32 (s.value + 1) := by
  unfold v
  split <;> rfl

omit [DecidableEq T] in
theorem v_nil {s : Semaphore T} (h : s.queue = []) :
    s.v = ({ s with value := wrap32 (s.value + 1) }, none) := by
  rw [v, h]; rfl

omit [DecidableEq T] in
theorem v_cons {s : Semaphore T} {t : T} {rest : List T} (h : s.queue = t :: rest) :
    s.v = ({ value := wrap32 (s.value + 1), queue := rest }, some t) := by
  rw [v, h]; rfl

end Semaphore

/-! ### Threads sharing one semaphore -/

/-- Where a thread is with respect to `P`. -/
inductive PPhase where
  /-- Not inside `P`. -/
  | outside
  /-- Asleep on the queue. -/
  | asleep
  /-- Taken off the queue by a `V`, and not yet back at the test of the loop. -/
  | woken
  deriving DecidableEq

/-- One semaphore and the threads using it, with the number of completed operations. -/
structure SemState (T : Type*) where
  sem : Semaphore T
  phase : T → PPhase
  completedP : ℕ
  completedV : ℕ

/-- What can happen next. -/
inductive SemAction (T : Type*) where
  /-- A thread calls `P` and reaches the test. -/
  | callP (t : T)
  /-- A woken thread is scheduled and tests again. -/
  | resume (t : T)
  /-- Somebody, a thread or an interrupt handler, calls `V`. -/
  | callV
  deriving DecidableEq

namespace SemState

/-- Thread `t` passes the test of `P`. -/
def pass (s : SemState T) (t : T) : Outcome (SemState T) :=
  match s.sem.pTest t with
  | none => .fault
  | some (sem, true) =>
    .next { s with
      sem, phase := update s.phase t .outside, completedP := s.completedP + 1 }
  | some (sem, false) => .next { s with sem, phase := update s.phase t .asleep }

/-- One atomic action. -/
def next (s : SemState T) : SemAction T → Outcome (SemState T)
  | .callP t => if s.phase t = .outside then s.pass t else .disabled
  | .resume t => if s.phase t = .woken then s.pass t else .disabled
  | .callV =>
    match s.sem.v with
    | (sem, none) => .next { s with sem, completedV := s.completedV + 1 }
    | (sem, some u) =>
      .next { s with
        sem, phase := update s.phase u .woken, completedV := s.completedV + 1 }

end SemState

/-- Any number of threads interleaving `P` and `V` on a semaphore created with value `v`. -/
def semSystem (T : Type*) [DecidableEq T] (v : Int) : LTS (SemState T) (SemAction T) where
  init s :=
    s = { sem := .new v, phase := fun _ => .outside, completedP := 0, completedV := 0 }
  next := SemState.next

/-- The step does not increment the largest `int`. -/
def SemState.NoOverflow (s : SemState T) (a : SemAction T) : Prop :=
  a = .callV → s.sem.value < maxInt

instance (s : SemState T) (a : SemAction T) : Decidable (s.NoOverflow a) :=
  inferInstanceAs (Decidable (a = .callV → s.sem.value < maxInt))

/-! ### Correctness -/

variable [Fintype T]

/-- What a semaphore created with value `v` owes its users: the value counts, nobody is
queued twice, no check fails, and no wakeup is lost. -/
structure SemState.Correct (v : Int) (s : SemState T) : Prop where
  value_nonneg : 0 ≤ s.sem.value
  value_eq : s.sem.value = v + s.completedV - s.completedP
  queue_nodup : s.sem.queue.Nodup
  no_fault : ∀ a, s.next a ≠ .fault
  no_lost_wakeup : s.sem.queue ≠ [] → s.sem.value ≤ count s.phase (· = .woken)

/-- The inductive invariant: the value fits an `int`, the queue is the set of sleepers, and
as long as somebody sleeps there are at least `value` woken threads on their way. -/
structure SemState.Inv (v : Int) (s : SemState T) : Prop where
  value_nonneg : 0 ≤ s.sem.value
  value_le : s.sem.value ≤ maxInt
  value_eq : s.sem.value = v + s.completedV - s.completedP
  queue_nodup : s.sem.queue.Nodup
  mem_queue : ∀ t, t ∈ s.sem.queue ↔ s.phase t = .asleep
  no_lost_wakeup : s.sem.queue ≠ [] → s.sem.value ≤ count s.phase (· = .woken)

namespace SemState

variable {v : Int} {s s' : SemState T}

/-- The invariant survives a pass through the test by a thread that is not asleep. -/
theorem Inv.pass (h : s.Inv v) {t : T} (ht : s.phase t ≠ .asleep) :
    (s.pass t).Meets (SemState.Inv v) := by
  have htq : t ∉ s.sem.queue := fun hm => ht ((h.mem_queue t).mp hm)
  rcases Semaphore.pTest_cases htq with ⟨h0, hp⟩ | ⟨h0, hp⟩ <;> simp only [SemState.pass, hp]
  · -- Value zero: `t` joins the queue.
    refine ⟨h.value_nonneg, h.value_le, h.value_eq, ?_, ?_, ?_⟩
    · exact nodup_append_singleton h.queue_nodup htq
    · intro u
      by_cases hu : u = t
      · simp [hu]
      · simp [hu, h.mem_queue u]
    · -- There is no unit that a wakeup could be owed for.
      intro _
      show s.sem.value ≤ _
      rw [h0]; exact Int.natCast_nonneg _
  · -- Positive value: one unit is consumed, and at most one woken thread is used up.
    have hpos : 0 < s.sem.value := lt_of_le_of_ne h.value_nonneg (Ne.symm h0)
    have hwrap : wrap32 (s.sem.value - 1) = s.sem.value - 1 := by
      have := h.value_le
      exact wrap32_of_nonneg (by omega) (by omega)
    have hcount := count_update s.phase (· = .woken) t .outside
    refine ⟨?_, ?_, ?_, h.queue_nodup, ?_, ?_⟩
    · show 0 ≤ wrap32 _; rw [hwrap]; omega
    · show wrap32 _ ≤ _; rw [hwrap]; have := h.value_le; omega
    · show wrap32 _ = _; rw [hwrap, h.value_eq]; push_cast; ring
    · intro u
      by_cases hu : u = t
      · subst hu; simp [htq]
      · simp [hu, h.mem_queue u]
    · -- `t` may not have been woken at all: a caller of `P` can overtake a woken thread.
      intro hq
      show wrap32 _ ≤ _
      have hlost := h.no_lost_wakeup hq
      rw [hwrap]
      simp only [reduceCtorEq, if_false] at hcount
      split at hcount <;> push_cast <;> omega

/-- The invariant survives a `V` that does not overflow. -/
theorem Inv.callV (h : s.Inv v) (hov : s.sem.value < maxInt)
    (hs : s.next .callV = .next s') : s'.Inv v := by
  have hpos := h.value_nonneg
  have hwrap : wrap32 (s.sem.value + 1) = s.sem.value + 1 := wrap32_of_nonneg (by omega) (by omega)
  have hvalue : wrap32 (s.sem.value + 1) = v + (s.completedV + 1 : ℕ) - s.completedP := by
    rw [hwrap, h.value_eq]
    push_cast
    ring
  cases hq : s.sem.queue with
  | nil =>
    -- Nobody waits: only the value changes.
    simp only [SemState.next, Semaphore.v_nil hq, Outcome.next.injEq] at hs
    subst hs
    refine ⟨?_, ?_, hvalue, h.queue_nodup, h.mem_queue, fun hne => absurd hq hne⟩
    · show 0 ≤ wrap32 _; rw [hwrap]; omega
    · show wrap32 _ ≤ _; rw [hwrap]; omega
  | cons u rest =>
    -- The longest waiter moves from the queue to the woken threads.
    simp only [SemState.next, Semaphore.v_cons hq, Outcome.next.injEq] at hs
    subst hs
    have hnd : (u :: rest).Nodup := hq ▸ h.queue_nodup
    have hu : s.phase u = .asleep := (h.mem_queue u).mp (by simp [hq])
    have hcount := count_update s.phase (· = .woken) u .woken
    refine ⟨?_, ?_, hvalue, (List.nodup_cons.mp hnd).2, ?_, ?_⟩
    · show 0 ≤ wrap32 _; rw [hwrap]; omega
    · show wrap32 _ ≤ _; rw [hwrap]; omega
    · intro w
      have hw := h.mem_queue w
      rw [hq, List.mem_cons] at hw
      by_cases hwu : w = u
      · subst hwu; simp [(List.nodup_cons.mp hnd).1]
      · simpa [hwu] using hw
    · intro _
      show wrap32 _ ≤ _
      have hlost := h.no_lost_wakeup (by simp [hq])
      rw [hwrap]
      simp only [hu, reduceCtorEq, if_false, if_true] at hcount
      push_cast; omega

theorem Inv.callP (h : s.Inv v) (t : T) : (s.next (.callP t)).Meets (SemState.Inv v) :=
  .ite fun ht => h.pass (by rw [ht]; nofun)

theorem Inv.resume (h : s.Inv v) (t : T) : (s.next (.resume t)).Meets (SemState.Inv v) :=
  .ite fun ht => h.pass (by rw [ht]; nofun)

/-- The invariant survives every action that does not overflow. -/
theorem Inv.next (h : s.Inv v) {a : SemAction T} (hov : s.NoOverflow a)
    (hs : s.next a = .next s') : s'.Inv v := by
  cases a with
  | callP t => exact (h.callP t).next hs
  | resume t => exact (h.resume t).next hs
  | callV => exact h.callV (hov rfl) hs

/-- In a state of the invariant no runtime check fails: a thread that reaches the test is
not on the queue. -/
theorem Inv.no_fault (h : s.Inv v) (a : SemAction T) : s.next a ≠ .fault := by
  cases a with
  | callP t => exact (h.callP t).ne_fault
  | resume t => exact (h.resume t).ne_fault
  | callV =>
    simp only [SemState.next]
    split <;> nofun

theorem Inv.correct (h : s.Inv v) : s.Correct v :=
  ⟨h.value_nonneg, h.value_eq, h.queue_nodup, h.no_fault, h.no_lost_wakeup⟩

end SemState

/-- A `V` at the largest `int` makes the value negative. -/
theorem SemState.not_correct_of_overflow {v : Int} {s s' : SemState T}
    (hmax : s.sem.value = maxInt) (hs : s.next .callV = .next s') : ¬ s'.Correct v := by
  have hval : s'.sem.value = minInt := by
    cases hq : s.sem.queue with
    | nil =>
      simp only [SemState.next, Semaphore.v_nil hq, Outcome.next.injEq] at hs
      subst hs; show wrap32 _ = _; rw [hmax]; rfl
    | cons u rest =>
      simp only [SemState.next, Semaphore.v_cons hq, Outcome.next.injEq] at hs
      subst hs; show wrap32 _ = _; rw [hmax]; rfl
  intro hc
  have hneg := hc.value_nonneg
  rw [hval] at hneg
  exact absurd hneg (by decide)

/-- **Semaphore correctness.** Whatever its initial value and however many threads interleave
`P` and `V`, a semaphore is correct in every state of every run in which no `V` increments
the largest `int`; and in each of these states the next `V` keeps it correct exactly when
the value is below the largest `int`. -/
theorem semaphore_correct_of_noOverflow (v : Int) (hv : 0 ≤ v) (hmax : v ≤ maxInt)
    (s : SemState T)
    (h : ((semSystem T v).restrict SemState.NoOverflow).Reachable s) :
    s.Correct v ∧
      ∀ s', s.next .callV = .next s' → (s'.Correct v ↔ s.sem.value < maxInt) := by
  have hinv : s.Inv v := by
    refine h.invariant (I := SemState.Inv v) ?_ ?_
    · rintro s rfl
      exact ⟨hv, hmax, by simp [Semaphore.new], by simp [Semaphore.new],
        by simp [Semaphore.new], by simp [Semaphore.new]⟩
    · intro s a s' hi hs
      obtain ⟨hov, hs⟩ := LTS.restrict_next hs
      exact hi.next hov hs
  refine ⟨hinv.correct, fun s' hs => ⟨fun hc => ?_, fun hlt => (hinv.callV hlt hs).correct⟩⟩
  by_contra hge
  have hle := hinv.value_le
  exact SemState.not_correct_of_overflow (by omega) hs hc

/-- A thread sleeps in `P`, and a `V` wakes it: the woken thread accounts for the unit. -/
theorem semaphore_correct_of_noOverflow_handoff :
    ∃ s : SemState (Fin 1), s.phase 0 = .woken ∧ s.sem.value = 1 ∧ s.Correct 0 := by
  have h0 : ((semSystem (Fin 1) 0).restrict SemState.NoOverflow).Reachable
      ⟨.new 0, fun _ => .outside, 0, 0⟩ := .init rfl
  have h1 := h0.step (l := .callP 0) rfl
  have h2 := h1.step (l := .callV) rfl
  exact ⟨_, rfl, rfl, (semaphore_correct_of_noOverflow 0 (by decide) (by decide) _ h2).1⟩

/-- A semaphore created with the largest `int` is not correct after a single `V`: the value
wraps to the smallest one. -/
theorem semaphore_value_wraps :
    ¬ ∀ (v : Int) (s : SemState (Fin 1)), 0 ≤ v → v ≤ maxInt →
      (semSystem (Fin 1) v).Reachable s → s.Correct v := by
  intro hall
  have h0 : (semSystem (Fin 1) maxInt).Reachable ⟨.new maxInt, fun _ => .outside, 0, 0⟩ :=
    .init rfl
  have h1 := h0.step (l := .callV) rfl
  exact absurd (hall maxInt _ (by decide) (by decide) h1).value_nonneg (by decide)

end Nachos.Threads
