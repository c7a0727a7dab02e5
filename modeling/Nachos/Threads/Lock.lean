import Nachos.Threads.Semaphore

namespace Nachos.Threads

open Base Function

/-!
# Threads — `Lock`

`Lock::Acquire` is `semaphore->P()` followed by an assignment to `lockHolder`, and
`Lock::Release` is an assertion, an assignment and `semaphore->V()`. Neither is atomic as a
whole, so each thread carries a program counter (`LockPc`) that separates the pieces: a
context switch may fall between any two of them.

* `lockSystem` — any number of threads acquiring and releasing one lock, each calling
  `Release` only after its own `Acquire` has returned;
* `LockState.Inv` — the token argument: the semaphore's unit is either in `value` or with
  the one thread between the end of `P` and the beginning of `V`;
* `Stage` — a call that acquires the lock, works and releases it, for the components whose calls
  have that shape;
* `lock_mutual_exclusion` — what follows for the clients.
-/

variable {T : Type*} [DecidableEq T]

/-- Where a thread is in `Acquire` and `Release`. -/
inductive LockPc where
  /-- Outside the lock's code, not holding it. -/
  | outside
  /-- In `Acquire`, asleep in `semaphore->P()`. -/
  | asleep
  /-- In `Acquire`, woken by a `V` and about to test the value again. -/
  | woken
  /-- In `Acquire`, after `semaphore->P()` and before the assignment of `lockHolder`. -/
  | passed
  /-- Between the return of `Acquire` and the call of `Release`. -/
  | holding
  /-- In `Release`, after `lockHolder = NULL` and before `semaphore->V()`. -/
  | releasing
  deriving DecidableEq

/-- The thread owns the semaphore's unit. -/
def LockPc.inside : LockPc → Prop
  | .passed | .holding | .releasing => True
  | _ => False

instance : DecidablePred LockPc.inside := fun p => by
  cases p <;> unfold LockPc.inside <;> infer_instance

/-- A lock and the program counters of the threads using it. -/
structure LockState (T : Type*) where
  semaphore : Semaphore T
  lockHolder : Option T
  pc : T → LockPc

/-- The pieces of `Acquire` and `Release` between two possible context switches. -/
inductive LockAction (T : Type*) where
  /-- `Acquire` is called and its `P` reaches the test. -/
  | acquire (t : T)
  /-- A woken thread tests the value again. -/
  | resume (t : T)
  /-- `lockHolder = kernel->currentThread`, and `Acquire` returns. -/
  | setHolder (t : T)
  /-- `Release` is called: the assertion and `lockHolder = NULL`. -/
  | release (t : T)
  /-- `semaphore->V()`, and `Release` returns. -/
  | releaseV (t : T)
  deriving DecidableEq

/-- The thread that takes the action. -/
def LockAction.thread : LockAction T → T
  | .acquire t | .resume t | .setHolder t | .release t | .releaseV t => t

namespace LockState

/-- `Lock::Lock`: free, held by nobody. -/
def new : LockState T := ⟨.new 1, none, fun _ => .outside⟩

/-- `Lock::IsHeldByCurrentThread`, for thread `t`. -/
def isHeldBy (s : LockState T) (t : T) : Prop := s.lockHolder = some t

instance (s : LockState T) (t : T) : Decidable (s.isHeldBy t) :=
  inferInstanceAs (Decidable (s.lockHolder = some t))

/-- Thread `t` reaches the test in the `P` of `Acquire`. -/
def enter (s : LockState T) (t : T) : Outcome (LockState T) :=
  match s.semaphore.pTest t with
  | none => .fault
  | some (sem, true) => .next { s with semaphore := sem, pc := update s.pc t .passed }
  | some (sem, false) => .next { s with semaphore := sem, pc := update s.pc t .asleep }

/-- One piece of `Acquire` or `Release`. -/
def next (s : LockState T) : LockAction T → Outcome (LockState T)
  | .acquire t => if s.pc t = .outside then s.enter t else .disabled
  | .resume t => if s.pc t = .woken then s.enter t else .disabled
  | .setHolder t =>
    if s.pc t = .passed then
      .next { s with lockHolder := some t, pc := update s.pc t .holding }
    else .disabled
  | .release t =>
    if s.pc t = .holding then
      -- `ASSERT(IsHeldByCurrentThread())`
      if s.isHeldBy t then
        .next { s with lockHolder := none, pc := update s.pc t .releasing }
      else .fault
    else .disabled
  | .releaseV t =>
    if s.pc t = .releasing then
      match s.semaphore.v with
      | (sem, none) => .next { s with semaphore := sem, pc := update s.pc t .outside }
      | (sem, some u) =>
        .next { s with
          semaphore := sem
          pc := update (update s.pc t .outside) u .woken }
    else .disabled

end LockState

/-- Any number of threads acquiring and releasing one lock. -/
def lockSystem (T : Type*) [DecidableEq T] : LTS (LockState T) (LockAction T) where
  init := fun s => s = .new
  next := LockState.next

/-! ### The token invariant -/

/-- The semaphore's single unit: it is in `value`, or exactly one thread has it. -/
def LockState.Token (s : LockState T) : Prop :=
  (s.semaphore.value = 1 ∧ ∀ t, ¬ (s.pc t).inside) ∨
  (s.semaphore.value = 0 ∧ ∃ t, (s.pc t).inside ∧ ∀ u, (s.pc u).inside → u = t)

/-- The inductive invariant of the lock. -/
structure LockState.Inv (s : LockState T) : Prop where
  queue_nodup : s.semaphore.queue.Nodup
  mem_queue : ∀ t, t ∈ s.semaphore.queue ↔ s.pc t = .asleep
  token : s.Token
  holder : ∀ t, s.pc t = .holding → s.lockHolder = some t

namespace LockState

variable {s s' : LockState T} {t : T}

omit [DecidableEq T] in
/-- At most one thread owns the unit. -/
theorem Token.unique (h : s.Token) {u : T} (ht : (s.pc t).inside) (hu : (s.pc u).inside) :
    t = u := by
  rcases h with ⟨_, hnone⟩ | ⟨_, w, _, hw⟩
  · exact absurd ht (hnone t)
  · rw [hw t ht, hw u hu]

omit [DecidableEq T] in
/-- While a thread owns the unit, the value is zero. -/
theorem Token.value_eq_zero (h : s.Token) (ht : (s.pc t).inside) :
    s.semaphore.value = 0 := by
  rcases h with ⟨_, hnone⟩ | ⟨h0, _⟩
  · exact absurd ht (hnone t)
  · exact h0

omit [DecidableEq T] in
/-- A non-zero value is one, and then nobody owns the unit. -/
theorem Token.of_value_ne_zero (h : s.Token) (h0 : s.semaphore.value ≠ 0) :
    s.semaphore.value = 1 ∧ ∀ t, ¬ (s.pc t).inside := by
  rcases h with h1 | ⟨h0', _⟩
  · exact h1
  · exact absurd h0' h0

/-- Moving a thread between two counters on the same side of the token keeps the token. -/
theorem Token.move (h : s.Token) {p : LockPc} {sem : Semaphore T} {o : Option T}
    (hv : sem.value = s.semaphore.value) (hp : p.inside ↔ (s.pc t).inside) :
    Token { semaphore := sem, lockHolder := o, pc := update s.pc t p } := by
  have hin : ∀ u, ((update s.pc t p) u).inside ↔ (s.pc u).inside := by
    intro u
    by_cases hu : u = t
    · subst hu; simpa using hp
    · simp [hu]
  unfold Token
  simp only [hin, hv]
  exact h

omit [DecidableEq T] in
theorem Inv.new : (LockState.new : LockState T).Inv := by
  refine ⟨by simp [LockState.new, Semaphore.new], ?_, ?_, ?_⟩
  · intro t; simp [LockState.new, Semaphore.new]
  · exact .inl ⟨rfl, fun t h => h⟩
  · intro t ht; cases ht

/-! ### What an action does -/

/-- Everything one piece of `Acquire` or `Release` can do. -/
inductive Step (s : LockState T) : LockAction T → LockState T → Prop where
  | sleep {a} {t : T} (ha : a = .acquire t ∧ s.pc t = .outside ∨ a = .resume t ∧ s.pc t = .woken)
      (htq : t ∉ s.semaphore.queue) : Step s a { s with
        semaphore := { s.semaphore with queue := s.semaphore.queue ++ [t] }
        pc := update s.pc t .asleep }
  | pass {a} {t : T} (ha : a = .acquire t ∧ s.pc t = .outside ∨ a = .resume t ∧ s.pc t = .woken)
      (h0 : s.semaphore.value ≠ 0) : Step s a { s with
        semaphore := { s.semaphore with value := wrap32 (s.semaphore.value - 1) }
        pc := update s.pc t .passed }
  | setHolder {t : T} (ht : s.pc t = .passed) :
      Step s (.setHolder t) { s with lockHolder := some t, pc := update s.pc t .holding }
  | release {t : T} (ht : s.pc t = .holding) :
      Step s (.release t) { s with lockHolder := none, pc := update s.pc t .releasing }
  | give {t : T} (ht : s.pc t = .releasing) : Step s (.releaseV t) { s with
        semaphore := { s.semaphore with value := wrap32 (s.semaphore.value + 1) }
        pc := update s.pc t .outside }
  | wake {t u : T} {rest} (ht : s.pc t = .releasing) (hq : s.semaphore.queue = u :: rest)
      (hu : s.pc u = .asleep) : Step s (.releaseV t) { s with
        semaphore := { value := wrap32 (s.semaphore.value + 1), queue := rest }
        pc := update (update s.pc t .outside) u .woken }

/-- What the test of the semaphore does to a thread that is awake. -/
theorem Inv.enter_meets (h : s.Inv) {a : LockAction T}
    (ha : a = .acquire t ∧ s.pc t = .outside ∨ a = .resume t ∧ s.pc t = .woken) :
    (s.enter t).Meets (s.Step a) := by
  have htq : t ∉ s.semaphore.queue := by
    rw [h.mem_queue]
    rcases ha with ⟨-, ht⟩ | ⟨-, ht⟩ <;> rw [ht] <;> nofun
  rcases Semaphore.pTest_cases htq with ⟨-, hp⟩ | ⟨h0, hp⟩ <;> simp only [enter, hp]
  · exact .sleep ha htq
  · exact .pass ha h0

/-- Neither the assertion of `Release` nor the one of `List::Append` fails. -/
theorem Inv.next_meets (h : s.Inv) (a : LockAction T) : (s.next a).Meets (s.Step a) := by
  cases a with
  | acquire t => exact .ite fun ht => h.enter_meets (.inl ⟨rfl, ht⟩)
  | resume t => exact .ite fun ht => h.enter_meets (.inr ⟨rfl, ht⟩)
  | setHolder t => exact .ite fun ht => .setHolder ht
  | release t =>
    refine .ite fun ht => ?_
    -- `ASSERT(IsHeldByCurrentThread())` is the field `holder`.
    rw [if_pos (show s.isHeldBy t from h.holder t ht)]
    exact .release ht
  | releaseV t =>
    refine .ite fun ht => ?_
    cases hq : s.semaphore.queue with
    | nil =>
      rw [Semaphore.v_nil hq]
      exact .give ht
    | cons u rest =>
      rw [Semaphore.v_cons hq]
      exact .wake ht hq ((h.mem_queue u).mp (by simp [hq]))

theorem Inv.no_fault (h : s.Inv) (a : LockAction T) : s.next a ≠ .fault := (h.next_meets a).ne_fault

/-! ### Every action keeps the invariant -/

/-- A thread that is awake before and after moves without touching the queue. -/
theorem Inv.mem_queue_move (h : s.Inv) {p : LockPc} (ht : s.pc t ≠ .asleep)
    (hp : p ≠ .asleep) (u : T) :
    u ∈ s.semaphore.queue ↔ update s.pc t p u = .asleep := by
  by_cases hu : u = t
  · subst hu; simp [h.mem_queue, ht, hp]
  · simp [hu, h.mem_queue u]

/-- A thread that does not become a holder leaves `lockHolder` right. -/
theorem Inv.holder_move (h : s.Inv) {p : LockPc} (hp : p ≠ .holding) (u : T)
    (hu : update s.pc t p u = .holding) : s.lockHolder = some u := by
  by_cases hut : u = t
  · subst hut; simp [hp] at hu
  · exact h.holder u (by simpa [hut] using hu)

/-- The value is zero: `t` goes to sleep on the queue. -/
theorem Inv.sleep (h : s.Inv) (hout : ¬ (s.pc t).inside) (htq : t ∉ s.semaphore.queue) :
    Inv { s with
      semaphore := { s.semaphore with queue := s.semaphore.queue ++ [t] }
      pc := update s.pc t .asleep } := by
  refine ⟨?_, ?_, h.token.move rfl (by simpa [LockPc.inside] using hout), h.holder_move nofun⟩
  · exact Lib.nodup_append_singleton h.queue_nodup htq
  · intro u
    by_cases hu : u = t
    · simp [hu]
    · simp [hu, h.mem_queue u]

/-- The value is one: `t` takes the unit. -/
theorem Inv.take (h : s.Inv) (hasleep : s.pc t ≠ .asleep) (h0 : s.semaphore.value ≠ 0) :
    Inv { s with
      semaphore := { s.semaphore with value := wrap32 (s.semaphore.value - 1) }
      pc := update s.pc t .passed } := by
  obtain ⟨h1, hnone⟩ := h.token.of_value_ne_zero h0
  refine ⟨h.queue_nodup, h.mem_queue_move hasleep nofun, .inr ⟨?_, t, ?_, ?_⟩, h.holder_move nofun⟩
  · show wrap32 (s.semaphore.value - 1) = 0
    rw [h1]
    rfl
  · simp [LockPc.inside]
  · intro u hu
    by_contra hut
    exact hnone u (by simpa [hut] using hu)

/-- `t` keeps the unit, and becomes the holder or is it no longer. -/
theorem Inv.moveInside (h : s.Inv) {p : LockPc} {o : Option T} (hin : (s.pc t).inside)
    (hp : p.inside) (ho : p = .holding → o = some t) :
    Inv { s with lockHolder := o, pc := update s.pc t p } := by
  refine ⟨h.queue_nodup, h.mem_queue_move ?_ ?_, h.token.move rfl (iff_of_true hp hin),
    fun u hu => ?_⟩
  · intro hasleep
    rwa [hasleep] at hin
  · rintro rfl
    exact hp
  · obtain ⟨rfl, hp⟩ | ⟨hut, hu⟩ := update_eq_cases hu
    · exact ho hp
    · exact absurd (h.token.unique (by rw [hu]; trivial) hin) hut

omit [DecidableEq T] in
/-- After `t` has given the unit back it is in the value. -/
theorem Inv.value_give (h : s.Inv) (hin : (s.pc t).inside) :
    wrap32 (s.semaphore.value + 1) = 1 := by
  rw [h.token.value_eq_zero hin]
  rfl

/-- `t` gives the unit back and nobody is waiting. -/
theorem Inv.give (h : s.Inv) (ht : s.pc t = .releasing) :
    Inv { s with
      semaphore := { s.semaphore with value := wrap32 (s.semaphore.value + 1) }
      pc := update s.pc t .outside } := by
  have hin : (s.pc t).inside := by rw [ht]; trivial
  refine ⟨h.queue_nodup, h.mem_queue_move (by simp [ht]) nofun, .inl ⟨h.value_give hin, ?_⟩,
    h.holder_move nofun⟩
  intro w
  by_cases hw : w = t
  · subst hw; simp [LockPc.inside]
  · simpa [hw] using fun hwi => hw (h.token.unique hwi hin)

/-- `t` gives the unit back and the first waiter becomes ready. It does not get the unit. -/
theorem Inv.giveWake (h : s.Inv) {u : T} {rest : List T} (ht : s.pc t = .releasing)
    (hcons : s.semaphore.queue = u :: rest) :
    Inv { s with
      semaphore := { value := wrap32 (s.semaphore.value + 1), queue := rest }
      pc := update (update s.pc t .outside) u .woken } := by
  have hin : (s.pc t).inside := by rw [ht]; trivial
  have hnd := h.queue_nodup
  rw [hcons, List.nodup_cons] at hnd
  -- Two counters change at once, so each field is split into `u`, `t` and the others.
  refine ⟨hnd.2, fun w => ?_, .inl ⟨h.value_give hin, fun w => ?_⟩, fun w hw => ?_⟩
  · have hw' := h.mem_queue w
    rw [hcons, List.mem_cons] at hw'
    by_cases hwu : w = u
    · subst hwu; simp [hnd.1]
    · by_cases hwt : w = t
      · subst hwt; simp_all
      · simpa [hwu, hwt] using hw'
  · by_cases hwu : w = u
    · subst hwu; simp [LockPc.inside]
    · by_cases hwt : w = t
      · subst hwt; simp [hwu, LockPc.inside]
      · simpa [hwu, hwt] using fun hwi => hwt (h.token.unique hwi hin)
  · by_cases hwu : w = u
    · subst hwu; simp at hw
    · exact h.holder_move (t := t) (p := .outside) nofun w (by simpa [hwu] using hw)

/-- The lock invariant survives every piece of `Acquire` and `Release`. -/
theorem Inv.next (h : s.Inv) {a : LockAction T} (hs : s.next a = .next s') : s'.Inv := by
  cases (h.next_meets a).next hs with
  | sleep ha htq =>
    refine h.sleep ?_ htq
    rcases ha with ⟨-, ht⟩ | ⟨-, ht⟩ <;> rw [ht] <;> exact fun h => h
  | pass ha h0 =>
    refine h.take ?_ h0
    rcases ha with ⟨-, ht⟩ | ⟨-, ht⟩ <;> rw [ht] <;> nofun
  | setHolder ht => exact h.moveInside (by rw [ht]; trivial) trivial fun _ => rfl
  | release ht => exact h.moveInside (by rw [ht]; trivial) trivial nofun
  | give ht => exact h.give ht
  | wake ht hq _ => exact h.giveWake ht hq

end LockState

namespace LockState

variable {s s' : LockState T}

/-- How an action moves the program counter of the thread taking it. -/
def moves : LockAction T → LockPc → LockPc → Prop
  | .acquire _, p, p' => p = .outside ∧ (p' = .asleep ∨ p' = .passed)
  | .resume _, p, p' => p = .woken ∧ (p' = .asleep ∨ p' = .passed)
  | .setHolder _, p, p' => p = .passed ∧ p' = .holding
  | .release _, p, p' => p = .holding ∧ p' = .releasing
  | .releaseV _, p, p' => p = .releasing ∧ p' = .outside

/-- The acting thread moves as its action says. -/
theorem Inv.next_moves (h : s.Inv) {a : LockAction T} (hs : s.next a = .next s') :
    moves a (s.pc a.thread) (s'.pc a.thread) := by
  cases (h.next_meets a).next hs with
  | sleep ha _ => rcases ha with ⟨rfl, ht⟩ | ⟨rfl, ht⟩ <;> exact ⟨ht, .inl (update_self ..)⟩
  | pass ha _ => rcases ha with ⟨rfl, ht⟩ | ⟨rfl, ht⟩ <;> exact ⟨ht, .inr (update_self ..)⟩
  | setHolder ht | release ht | give ht => exact ⟨ht, update_self ..⟩
  | @wake t u rest ht _ hu =>
    -- The thread made ready was asleep, so it is not the one in `Release`.
    have htu : t ≠ u := by rintro rfl; rw [ht] at hu; cases hu
    exact ⟨ht, (update_of_ne htu ..).trans (update_self ..)⟩

/-- Every other thread stays where it is, unless it is a sleeper the action wakes. -/
theorem Inv.next_others (h : s.Inv) {a : LockAction T} (hs : s.next a = .next s') {w : T}
    (hw : w ≠ a.thread) : s'.pc w = s.pc w ∨ (s.pc w = .asleep ∧ s'.pc w = .woken) := by
  cases (h.next_meets a).next hs with
  | sleep ha _ | pass ha _ =>
    rcases ha with ⟨rfl, -⟩ | ⟨rfl, -⟩ <;> exact .inl (update_of_ne hw ..)
  | setHolder | release | give => exact .inl (update_of_ne hw ..)
  | @wake t u rest _ _ hu =>
    by_cases hwu : w = u
    · subst hwu
      exact .inr ⟨hu, update_self ..⟩
    · exact .inl ((update_of_ne hwu ..).trans (update_of_ne hw ..))

end LockState

/-! ### Calls that hold the lock -/

/-- Where a thread is in a call that acquires the lock, works and releases it. -/
inductive Stage where
  /-- Not in the call. -/
  | idle
  /-- In the call, with the work still to begin. -/
  | before
  /-- At work. -/
  | inside
  /-- The work is done. -/
  | behind
  deriving DecidableEq

/-- The pieces of the lock's code that belong to a stage of the call. -/
def Stage.allows : Stage → LockAction T → Bool
  | .before, .acquire _ | .before, .resume _ | .before, .setHolder _ => true
  | .behind, .release _ | .behind, .releaseV _ => true
  | _, _ => false

/-- The places in the lock's code where a thread in a stage of the call can be. -/
def Stage.Agrees : Stage → LockPc → Prop
  | .idle, p => p = .outside
  | .before, p => p ≠ .releasing
  | .inside, p => p = .holding
  | .behind, p => p = .holding ∨ p = .releasing ∨ p = .outside

omit [DecidableEq T] in
/-- An action of the lock's code leaves its thread in the stage that allows it. -/
theorem Stage.agrees_of_moves {c : Stage} {a : LockAction T} {p p' : LockPc}
    (hc : c.allows a = true) (h : LockState.moves a p p') : c.Agrees p' := by
  cases c <;> cases a <;> simp only [Stage.allows, Bool.false_eq_true] at hc <;>
    simp only [LockState.moves] at h
  · show p' ≠ .releasing
    rcases h.2 with rfl | rfl <;> decide
  · show p' ≠ .releasing
    rcases h.2 with rfl | rfl <;> decide
  · show p' ≠ .releasing
    rw [h.2]; decide
  · exact .inr (.inl h.2)
  · exact .inr (.inr h.2)

/-- Only before its work can a thread be asleep in the lock, and there it can be woken. -/
theorem Stage.Agrees.wake {c : Stage} (h : c.Agrees .asleep) : c.Agrees .woken := by
  cases c <;> simp_all [Stage.Agrees]

/-- The lock's code keeps each thread in its stage. -/
theorem LockState.Inv.agrees_next {s s' : LockState T} (h : s.Inv) {stage : T → Stage}
    (hag : ∀ t, (stage t).Agrees (s.pc t)) {a : LockAction T}
    (ha : (stage a.thread).allows a = true) (hs : s.next a = .next s') (t : T) :
    (stage t).Agrees (s'.pc t) := by
  by_cases ht : t = a.thread
  · subst ht
    exact Stage.agrees_of_moves ha (h.next_moves hs)
  · have hagt := hag t
    rcases h.next_others hs ht with heq | ⟨hasleep, hwoken⟩
    · rw [heq]; exact hagt
    · rw [hasleep] at hagt
      rw [hwoken]; exact hagt.wake

omit [DecidableEq T] in
/-- The lock lets one thread at a time to its work. -/
theorem LockState.Inv.unique_holding {s : LockState T} (h : s.Inv) {t u : T}
    (ht : s.pc t = .holding) (hu : s.pc u = .holding) : t = u :=
  h.token.unique (by rw [ht]; trivial) (by rw [hu]; trivial)

theorem lock_inv {s : LockState T} (h : (lockSystem T).Reachable s) : s.Inv :=
  h.invariant (I := LockState.Inv) (by rintro s rfl; exact .new) (fun _ _ _ hi hs => hi.next hs)

/-- **Mutual exclusion.** In every reachable state at most one thread is between the return of
its `Acquire` and its call of `Release`; `lockHolder` is that thread; and no assertion
fails, in particular not `ASSERT(IsHeldByCurrentThread())` in `Release`. -/
theorem lock_mutual_exclusion (s : LockState T) (h : (lockSystem T).Reachable s) :
    (∀ t u, s.pc t = .holding → s.pc u = .holding → t = u) ∧
    (∀ t, s.pc t = .holding → s.lockHolder = some t) ∧
    (∀ a, (lockSystem T).next s a ≠ .fault) := by
  have hi := lock_inv h
  refine ⟨fun t u ht hu => ?_, hi.holder, hi.no_fault⟩
  exact hi.token.unique (by rw [ht]; trivial) (by rw [hu]; trivial)

/-- One thread holds the lock while another one sleeps in `Acquire`. -/
theorem lock_mutual_exclusion_contended :
    ∃ s : LockState (Fin 2), s.pc 0 = .holding ∧ s.pc 1 = .asleep ∧ s.lockHolder = some 0 := by
  have h0 : (lockSystem (Fin 2)).Reachable .new := .init rfl
  have h1 := h0.step (l := .acquire 0) rfl
  have h2 := h1.step (l := .acquire 1) rfl
  have h3 := h2.step (l := .setHolder 0) rfl
  exact ⟨_, rfl, rfl, (lock_mutual_exclusion _ h3).2.1 0 rfl⟩

end Nachos.Threads
