import Nachos.Base.CInt
import Nachos.Base.Transition
import Nachos.Lib.List
import Nachos.Lib.SortedList

namespace Nachos.Machine

open Base Lib

/-!
# Machine — simulated time and interrupts

`Interrupt::Schedule`, `SetLevel`, `OneTick`, `Idle` and `CheckIfDue` of `machine/interrupt.cc`. The
devices schedule interrupts, and time advances when interrupts are enabled, when the user program
executes an instruction and when the machine is idle. A handler may schedule any number of
interrupts; what the handlers do that one `CheckIfDue` calls is a list with an entry for each call,
so a statement about all such lists is about all handlers.

The times are `int`s and wrap; `InTime` says of an action that they do not.

* `IntState.fireLoop` — the do-while loop of `CheckIfDue`, with a bound on the rounds;
* `IntState.fireLoop_eq` — the loop ends by itself, after the interrupts that were due;
* `interrupt_simulation` — what holds in every run.
-/

/-! ### The model -/

/-- `PendingInterrupt`. The object is known by its number among those ever scheduled; the type of
the interrupt is only printed. -/
structure PendingInterrupt (C : Type*) where
  callOnInterrupt : C
  when : Int
  number : ℕ
  deriving DecidableEq

/-- `PendingCompare`. -/
def pendingCompare {C : Type*} (x y : PendingInterrupt C) : Int :=
  if x.when < y.when then -1
  else if x.when > y.when then 1
  else 0

/-- The arguments of a call of `Schedule`. -/
structure Request (C : Type*) where
  toCall : C
  fromNow : Int

/-- `IntStatus`. -/
inductive IntStatus where
  | intOff
  | intOn
  deriving DecidableEq

/-- `MachineStatus`. -/
inductive MachineStatus where
  | idleMode
  | systemMode
  | userMode
  deriving DecidableEq

/-- `UserTick`. -/
def userTick : Int := 1

/-- `SystemTick`. -/
def systemTick : Int := 10

/-- The statistics of time and the interrupt simulation. -/
structure IntState (C : Type*) where
  totalTicks : Int
  idleTicks : Int
  systemTicks : Int
  userTicks : Int
  level : IntStatus
  status : MachineStatus
  pending : List (PendingInterrupt C)
  /-- How many interrupts have been scheduled. -/
  scheduled : ℕ
  /-- The interrupts whose handlers have been called, with the time of the call. -/
  fired : List (PendingInterrupt C × Int)

/-- What can happen next. `handlers` is what the handlers schedule that are called. -/
inductive IntAction (C : Type*) where
  /-- A device calls `Schedule`. -/
  | schedule (r : Request C)
  /-- `SetLevel`. -/
  | setLevel (now : IntStatus) (handlers : List (List (Request C)))
  /-- A user instruction is executed. -/
  | oneTick (handlers : List (List (Request C)))
  /-- There is nothing to run. -/
  | idle (handlers : List (List (Request C)))
  /-- `setStatus`. -/
  | setStatus (st : MachineStatus)

namespace IntState

variable {C : Type*}

/-- The state of a machine that has been switched on. -/
def new : IntState C where
  totalTicks := 0
  idleTicks := 0
  systemTicks := 0
  userTicks := 0
  level := .intOff
  status := .systemMode
  pending := []
  scheduled := 0
  fired := []

variable [DecidableEq C]

/-- `Interrupt::Schedule`. -/
def schedule (s : IntState C) (r : Request C) : Option (IntState C) :=
  let toOccur := ⟨r.toCall, wrap32 (s.totalTicks + r.fromNow), s.scheduled⟩
  -- `ASSERT(fromNow > 0)`
  if r.fromNow > 0 then
    (SortedList.insert pendingCompare s.pending toOccur).map fun l =>
      { s with pending := l, scheduled := s.scheduled + 1 }
  else none

/-- The do-while loop of `CheckIfDue`, for at most `fuel` rounds. -/
def fireLoop (fuel : ℕ) (handlers : List (List (Request C))) (s : IntState C) :
    Option (IntState C) :=
  match fuel with
  | 0 => none
  | fuel + 1 =>
    (removeFront s.pending).bind fun (next, l) =>
      ((handlers.headD []).foldlM schedule
        { s with pending := l, fired := s.fired ++ [(next, s.totalTicks)] }).bind fun s' =>
          match s'.pending with
          | [] => some s'
          | front :: _ =>
            if front.when ≤ s'.totalTicks then fireLoop fuel handlers.tail s' else some s'

/-- The clock of `CheckIfDue(TRUE)`: it jumps to the next interrupt. -/
def advance (s : IntState C) (next : PendingInterrupt C) : IntState C :=
  { s with
    idleTicks := wrap32 (s.idleTicks + wrap32 (next.when - s.totalTicks))
    totalTicks := next.when }

/-- `Interrupt::CheckIfDue`, with a bound on the rounds of its loop. -/
def checkIfDue (fuel : ℕ) (advanceClock : Bool) (handlers : List (List (Request C)))
    (s : IntState C) : Option (Bool × IntState C) :=
  -- `ASSERT(level == IntOff)`
  if s.level = .intOff then
    match s.pending with
    | [] => some (false, s)
    | next :: _ =>
      if next.when > s.totalTicks then
        if advanceClock then ((s.advance next).fireLoop fuel handlers).map (true, ·)
        else some (false, s)
      else (s.fireLoop fuel handlers).map (true, ·)
  else none

/-- By how much `OneTick` advances the clock. -/
def tickSize (s : IntState C) : Int := if s.status = .systemMode then systemTick else userTick

/-- The clock of `OneTick`. -/
def tick (s : IntState C) : IntState C :=
  if s.status = .systemMode then
    { s with
      totalTicks := wrap32 (s.totalTicks + systemTick)
      systemTicks := wrap32 (s.systemTicks + systemTick) }
  else
    { s with
      totalTicks := wrap32 (s.totalTicks + userTick)
      userTicks := wrap32 (s.userTicks + userTick) }

/-- `Interrupt::OneTick`, without the `Yield` it may end with. The loop has as many rounds as
there are interrupts pending, which is enough. -/
def oneTick (s : IntState C) (handlers : List (List (Request C))) : Option (IntState C) :=
  (checkIfDue s.pending.length false handlers { s.tick with level := .intOff }).map
    fun (_, s') => { s' with level := .intOn }

/-- `Interrupt::Idle`; `none` in the second place is `Halt`. -/
def idle (s : IntState C) (handlers : List (List (Request C))) : Option (Option (IntState C)) :=
  (checkIfDue s.pending.length true handlers { s with status := .idleMode }).map fun (due, s') =>
    if due then some { s' with status := .systemMode } else none

/-- One action. -/
def next (s : IntState C) : IntAction C → Outcome (IntState C)
  | .schedule r =>
    match s.schedule r with
    | none => .fault
    | some s' => .next s'
  | .setLevel now handlers =>
    if now = .intOn ∧ s.level = .intOff then
      match ({ s with level := now } : IntState C).oneTick handlers with
      | none => .fault
      | some s' => .next s'
    else .next { s with level := now }
  | .oneTick handlers =>
    if s.level = .intOn then
      match s.oneTick handlers with
      | none => .fault
      | some s' => .next s'
    else .disabled
  | .idle handlers =>
    -- `Thread::Sleep` asserts that interrupts are off.
    if s.level = .intOff then
      match s.idle handlers with
      | none => .fault
      | some none => .disabled
      | some (some s') => .next s'
    else .disabled
  | .setStatus st => .next { s with status := st }

/-- A call of `Schedule` at the given time asks for a later time, and an `int` holds it. -/
def GoodRequest (now : Int) (r : Request C) : Prop :=
  0 < r.fromNow ∧ now + r.fromNow ≤ maxInt

instance (now : Int) (r : Request C) : Decidable (GoodRequest now r) :=
  inferInstanceAs (Decidable (_ ∧ _))

/-- The state in which the loop of `CheckIfDue` starts, if it does. -/
def started (s : IntState C) (advanceClock : Bool) : IntState C :=
  match s.pending with
  | [] => s
  | next :: _ => if next.when > s.totalTicks ∧ advanceClock = true then s.advance next else s

/-- `OneTick` keeps simulated time below `2 ^ 31`. -/
def InTimeTick (s : IntState C) (handlers : List (List (Request C))) : Prop :=
  s.totalTicks + s.tickSize ≤ maxInt ∧
    ∀ rs ∈ handlers, ∀ r ∈ rs, GoodRequest (s.totalTicks + s.tickSize) r

instance (s : IntState C) (handlers : List (List (Request C))) :
    Decidable (s.InTimeTick handlers) :=
  inferInstanceAs (Decidable (_ ∧ _))

/-- The action keeps simulated time below `2 ^ 31` and asks for later interrupts only. -/
def InTime (s : IntState C) : IntAction C → Prop
  | .schedule r => GoodRequest s.totalTicks r
  | .setLevel now handlers => now = .intOn ∧ s.level = .intOff → s.InTimeTick handlers
  | .oneTick handlers => s.InTimeTick handlers
  | .idle handlers => ∀ rs ∈ handlers, ∀ r ∈ rs, GoodRequest (s.started true).totalTicks r
  | .setStatus _ => True

instance (s : IntState C) (a : IntAction C) : Decidable (s.InTime a) := by
  cases a <;> unfold InTime <;> infer_instance

end IntState

/-- Runs below time `2 ^ 31`. -/
def interruptSystem (C : Type*) [DecidableEq C] : LTS (IntState C) (IntAction C) :=
  LTS.restrict ⟨fun s => s = .new, IntState.next⟩ IntState.InTime

/-! ### The order of interrupts -/

namespace IntState

variable {C : Type*}

/-- `x` is another interrupt than `y` and to occur before it: at an earlier time, or at the same
time and scheduled earlier. -/
structure Before (x y : PendingInterrupt C) : Prop where
  ne : x.number ≠ y.number
  le : x.when ≤ y.when
  lt : x.when = y.when → x.number < y.number

/-- The interrupts that have occurred and those that are pending, in this order, are in order. -/
structure Queue (s : IntState C) : Prop where
  order : (s.fired.map Prod.fst ++ s.pending).Pairwise Before
  number : ∀ x ∈ s.fired.map Prod.fst ++ s.pending, x.number < s.scheduled
  /-- A handler is called when it is time, or later. -/
  past : ∀ p ∈ s.fired, p.1.when ≤ p.2 ∧ p.2 ≤ s.totalTicks
  bound : ∀ x ∈ s.pending, x.when ≤ maxInt

/-- The interrupts whose time has come. -/
def due (s : IntState C) : List (PendingInterrupt C) :=
  s.pending.filter fun x => x.when ≤ s.totalTicks

/-- Two states with the same times. -/
structure SameClock (s s' : IntState C) : Prop where
  totalTicks : s'.totalTicks = s.totalTicks
  idleTicks : s'.idleTicks = s.idleTicks
  systemTicks : s'.systemTicks = s.systemTicks
  userTicks : s'.userTicks = s.userTicks

theorem SameClock.trans {s₁ s₂ s₃ : IntState C} (h : SameClock s₁ s₂) (h' : SameClock s₂ s₃) :
    SameClock s₁ s₃ :=
  ⟨h'.1.trans h.1, h'.2.trans h.2, h'.3.trans h.3, h'.4.trans h.4⟩

variable {s s' : IntState C}

/-- The first pending interrupt is the first to be due. -/
theorem Queue.due_eq_nil_iff (h : s.Queue) {front : PendingInterrupt C}
    {l : List (PendingInterrupt C)} (hp : s.pending = front :: l) :
    s.due = [] ↔ s.totalTicks < front.when := by
  have hord := (List.pairwise_append.mp h.order).2.1
  rw [hp, List.pairwise_cons] at hord
  simp only [due, hp, List.filter_eq_nil_iff, decide_eq_true_eq, not_le]
  refine ⟨fun hall => hall front (by simp), fun hlt x hx => ?_⟩
  rcases List.mem_cons.mp hx with rfl | hx
  · exact hlt
  · exact hlt.trans_le (hord.1 x hx).le

/-- With an interrupt due there is one at the front. -/
theorem Queue.pending_of_due (h : s.Queue) (hd : s.due ≠ []) :
    ∃ front l, s.pending = front :: l ∧ front.when ≤ s.totalTicks ∧
      s.due = front :: l.filter (fun x => x.when ≤ s.totalTicks) := by
  cases hp : s.pending with
  | nil => exact absurd (by simp [due, hp]) hd
  | cons front l =>
    have hle : front.when ≤ s.totalTicks := by
      by_contra hlt
      exact hd ((h.due_eq_nil_iff hp).mpr (by omega))
    exact ⟨front, l, rfl, hle, by simp [due, hp, hle]⟩

theorem pendingCompare_neg_iff {x y : PendingInterrupt C} :
    pendingCompare x y < 0 ↔ x.when < y.when := by
  unfold pendingCompare
  split
  · simp [*]
  · split <;> simp [*]

variable [DecidableEq C]

/-! ### Scheduling -/

/-- A new interrupt goes behind those it is not earlier than, and none of them is due by it. -/
theorem Queue.schedule (h : s.Queue) {r : Request C} (hr : GoodRequest s.totalTicks r)
    (h0 : 0 ≤ s.totalTicks) :
    ∃ s', s.schedule r = some s' ∧ s'.Queue ∧ s.SameClock s' ∧ s'.fired = s.fired ∧
      s'.due = s.due := by
  obtain ⟨hpos, hmax⟩ := hr
  have hwrap : wrap32 (s.totalTicks + r.fromNow) = s.totalTicks + r.fromNow :=
    wrap32_of_nonneg (by omega) hmax
  have hnot : (⟨r.toCall, s.totalTicks + r.fromNow, s.scheduled⟩ : PendingInterrupt C) ∉
    s.pending := by
    intro hm
    exact absurd (h.number _ (List.mem_append_right _ hm)) (lt_irrefl _)
  refine ⟨{ s with
      pending := SortedList.insertAfter pendingCompare
        ⟨r.toCall, s.totalTicks + r.fromNow, s.scheduled⟩ s.pending
      scheduled := s.scheduled + 1 }, ?_, ⟨?_, ?_, h.past, ?_⟩, ⟨rfl, rfl, rfl, rfl⟩, rfl, ?_⟩
  · simp only [IntState.schedule, hwrap, SortedList.insert_of_notMem hnot, Option.map_some]
    rw [if_pos hpos]
  · obtain ⟨hfired, hpending, hcross⟩ := List.pairwise_append.mp h.order
    refine List.pairwise_append.mpr ⟨hfired, ?_, fun x hx y hy => ?_⟩
    · apply SortedList.pairwise_insertAfter hpending
      · intro x hx hc
        have hlt : s.totalTicks + r.fromNow < x.when := pendingCompare_neg_iff.mp hc
        have hnum := h.number x (List.mem_append_right _ hx)
        exact ⟨hnum.ne', hlt.le, fun heq => absurd heq hlt.ne⟩
      · intro x hx hc
        have hle : x.when ≤ s.totalTicks + r.fromNow := not_lt.mp (pendingCompare_neg_iff.not.mp hc)
        have hnum := h.number x (List.mem_append_right _ hx)
        exact ⟨hnum.ne, hle, fun _ => hnum⟩
      · intro x _ y _ hxy hc
        rw [pendingCompare_neg_iff] at hc ⊢
        exact hc.trans_le hxy.le
    · rcases SortedList.mem_insertAfter.mp hy with rfl | hy
      · -- What has occurred is not later than now.
        have hnum := h.number x (List.mem_append_left _ hx)
        obtain ⟨p, hp, rfl⟩ := List.mem_map.mp hx
        have hlt : p.1.when < s.totalTicks + r.fromNow := by
          have := h.past p hp
          omega
        exact ⟨hnum.ne, hlt.le, fun _ => hnum⟩
      · exact hcross x hx y hy
  · intro x hx
    show x.number < s.scheduled + 1
    rcases List.mem_append.mp hx with hx | hx
    · exact Nat.lt_succ_of_lt (h.number x (List.mem_append_left _ hx))
    · rcases SortedList.mem_insertAfter.mp hx with rfl | hx
      · exact Nat.lt_succ_self _
      · exact Nat.lt_succ_of_lt (h.number x (List.mem_append_right _ hx))
  · intro x hx
    rcases SortedList.mem_insertAfter.mp hx with rfl | hx
    · exact hmax
    · exact h.bound x hx
  · exact SortedList.filter_insertAfter (by simpa using hpos)

/-- The same for everything a handler schedules. -/
theorem Queue.schedules {rs : List (Request C)} (h : s.Queue)
    (hrs : ∀ r ∈ rs, GoodRequest s.totalTicks r) (h0 : 0 ≤ s.totalTicks) :
    ∃ s', rs.foldlM IntState.schedule s = some s' ∧ s'.Queue ∧ s.SameClock s' ∧
      s'.fired = s.fired ∧ s'.due = s.due := by
  induction rs generalizing s with
  | nil => exact ⟨s, rfl, h, ⟨rfl, rfl, rfl, rfl⟩, rfl, rfl⟩
  | cons r rs ih =>
    obtain ⟨s₁, hs₁, h₁, hc₁, hf₁, hd₁⟩ := h.schedule (hrs r (by simp)) h0
    have hrs₁ : ∀ r ∈ rs, GoodRequest s₁.totalTicks r := by
      intro r' hr'
      rw [hc₁.totalTicks]
      exact hrs r' (by simp [hr'])
    obtain ⟨s₂, hs₂, h₂, hc₂, hf₂, hd₂⟩ := ih h₁ hrs₁ (hc₁.totalTicks ▸ h0)
    refine ⟨s₂, ?_, h₂, hc₁.trans hc₂, hf₂.trans hf₁, hd₂.trans hd₁⟩
    rw [List.foldlM_cons, hs₁]
    exact hs₂

/-! ### The loop -/

omit [DecidableEq C] in
/-- Calling the handler of the first interrupt moves it to those that have occurred. -/
theorem Queue.fire (h : s.Queue) {front : PendingInterrupt C} {l : List (PendingInterrupt C)}
    (hp : s.pending = front :: l) (hle : front.when ≤ s.totalTicks) :
    ({ s with pending := l, fired := s.fired ++ [(front, s.totalTicks)] } : IntState C).Queue := by
  have hlist : (s.fired ++ [(front, s.totalTicks)]).map Prod.fst ++ l
      = s.fired.map Prod.fst ++ s.pending := by simp [hp]
  refine ⟨?_, ?_, ?_, fun x hx => h.bound x (by simp [hp, hx])⟩
  · show (_ ++ l).Pairwise Before
    rw [hlist]
    exact h.order
  · show ∀ x ∈ _ ++ l, _
    rw [hlist]
    exact h.number
  · intro p hm
    rcases List.mem_append.mp hm with hm | hm
    · exact h.past p hm
    · rw [List.mem_singleton.mp hm]
      exact ⟨hle, le_rfl⟩

/-- One round: the first interrupt that is due occurs, and the loop goes on if there are others. -/
theorem Queue.round {handlers : List (List (Request C))} (h : s.Queue) (h0 : 0 ≤ s.totalTicks)
    (hgood : ∀ rs ∈ handlers, ∀ r ∈ rs, GoodRequest s.totalTicks r) (hd : s.due ≠ []) :
    ∃ front s₁, s₁.Queue ∧ s.SameClock s₁ ∧ s.due = front :: s₁.due ∧
      s₁.fired = s.fired ++ [(front, s.totalTicks)] ∧
      (s₁.due = [] → ∀ fuel, s.fireLoop (fuel + 1) handlers = some s₁) ∧
      (s₁.due ≠ [] → ∀ fuel, s.fireLoop (fuel + 1) handlers = s₁.fireLoop fuel handlers.tail) := by
  obtain ⟨front, l, hp, hle, hdue⟩ := h.pending_of_due hd
  have hhead : ∀ r ∈ handlers.headD [], GoodRequest s.totalTicks r := by
    intro r hr
    cases handlers with
    | nil => cases hr
    | cons rs rest => exact hgood rs (by simp) r hr
  obtain ⟨s₁, hs₁, h₁, hc₁, hf₁, hd₁⟩ := (h.fire hp hle).schedules hhead h0
  have hround : ∀ fuel, s.fireLoop (fuel + 1) handlers =
      match s₁.pending with
      | [] => some s₁
      | front :: _ =>
        if front.when ≤ s₁.totalTicks then s₁.fireLoop fuel handlers.tail else some s₁ := by
    intro fuel
    rw [IntState.fireLoop, hp, removeFront_cons, Option.bind_some]
    simp only [hs₁, Option.bind_some]
  refine ⟨front, s₁, h₁, ⟨hc₁.1, hc₁.2, hc₁.3, hc₁.4⟩, hdue.trans (congrArg _ hd₁.symm), hf₁,
    ?_, ?_⟩
  · intro hnil fuel
    rw [hround]
    cases hp₁ : s₁.pending with
    | nil => rfl
    | cons front' l' =>
      have hlt := (h₁.due_eq_nil_iff hp₁).mp hnil
      simp only
      rw [if_neg (not_le.mpr hlt)]
  · intro hne fuel
    obtain ⟨front', l', hp₁, hle₁, -⟩ := h₁.pending_of_due hne
    rw [hround, hp₁]
    simp only
    rw [if_pos hle₁]

/-- **The loop ends by itself**: with as many rounds as interrupts are due, or more, it calls
exactly their handlers, in order, however much these schedule. -/
theorem Queue.fireLoop {handlers : List (List (Request C))} (h : s.Queue) (h0 : 0 ≤ s.totalTicks)
    (hgood : ∀ rs ∈ handlers, ∀ r ∈ rs, GoodRequest s.totalTicks r) (hd : s.due ≠ []) :
    ∃ s', (∀ fuel, s.due.length ≤ fuel → s.fireLoop fuel handlers = some s') ∧ s'.Queue ∧
      s.SameClock s' ∧ s'.due = [] ∧ s'.fired = s.fired ++ s.due.map (·, s.totalTicks) := by
  -- On the number of interrupts due: what the handlers schedule is not among them.
  induction hn : s.due.length generalizing s handlers with
  | zero => exact absurd (List.length_eq_zero_iff.mp hn) hd
  | succ n ih =>
    obtain ⟨front, s₁, h₁, hc₁, hdue, hf₁, hstop, hgo⟩ := h.round h0 hgood hd
    by_cases hnil : s₁.due = []
    · refine ⟨s₁, fun fuel hfuel => ?_, h₁, hc₁, hnil, ?_⟩
      · obtain _ | fuel := fuel
        · omega
        exact hstop hnil fuel
      · rw [hf₁, hdue, hnil]
        rfl
    · have hgood₁ : ∀ rs ∈ handlers.tail, ∀ r ∈ rs, GoodRequest s₁.totalTicks r := by
        intro rs hrs r hr
        rw [hc₁.totalTicks]
        exact hgood rs (List.mem_of_mem_tail hrs) r hr
      obtain ⟨s₂, hs₂, h₂, hc₂, hd₂, hf₂⟩ := ih h₁ (hc₁.totalTicks ▸ h0) hgood₁ hnil
        (by simpa [hdue] using hn)
      refine ⟨s₂, fun fuel hfuel => ?_, h₂, hc₁.trans hc₂, hd₂, ?_⟩
      · obtain _ | fuel := fuel
        · omega
        rw [hgo hnil]
        exact hs₂ fuel (by omega)
      · rw [hf₂, hf₁, hdue, hc₁.totalTicks]
        simp

omit [DecidableEq C] in
/-- Interrupts stay in order while the clock advances. -/
theorem Queue.of_le (h : s.Queue) (hp : s'.pending = s.pending) (hf : s'.fired = s.fired)
    (hn : s'.scheduled = s.scheduled) (hle : s.totalTicks ≤ s'.totalTicks) : s'.Queue := by
  refine ⟨?_, ?_, fun p hm => ?_, ?_⟩
  · rw [hf, hp]; exact h.order
  · rw [hf, hp, hn]; exact h.number
  · rw [hf] at hm
    have := h.past p hm
    omega
  · rw [hp]; exact h.bound

omit [DecidableEq C] in
theorem started_pending (s : IntState C) (b : Bool) :
    (s.started b).pending = s.pending ∧ (s.started b).fired = s.fired ∧
      (s.started b).scheduled = s.scheduled ∧ (s.started b).level = s.level ∧
      (s.started b).status = s.status ∧ s.totalTicks ≤ (s.started b).totalTicks := by
  unfold started
  split
  · simp
  · split
    · rename_i hc
      refine ⟨rfl, rfl, rfl, rfl, rfl, ?_⟩
      simpa [advance] using hc.1.le
    · simp

/-- `CheckIfDue` runs its loop if something is due in the state the loop would start in, and
does nothing otherwise. -/
theorem Queue.checkIfDue_eq (h : s.Queue) (b : Bool) (hl : s.level = .intOff) (fuel : ℕ)
    (handlers : List (List (Request C))) :
    (s.due = [] ∧ s.started b = s ∧ s.checkIfDue fuel b handlers = some (false, s)) ∨
    ((s.started b).due ≠ [] ∧
      s.checkIfDue fuel b handlers = ((s.started b).fireLoop fuel handlers).map (true, ·)) := by
  simp only [IntState.checkIfDue, started, hl, if_true]
  cases hp : s.pending with
  | nil => exact .inl ⟨by simp [due, hp], rfl, rfl⟩
  | cons next l =>
    by_cases hgt : next.when > s.totalTicks
    · cases b with
      | false => exact .inl ⟨(h.due_eq_nil_iff hp).mpr hgt, by simp, by simp [hgt]⟩
      | true =>
        refine .inr ⟨?_, by simp [hgt]⟩
        simp [hgt, due, advance, hp]
    · have hdue : s.due ≠ [] := fun hnil => hgt ((h.due_eq_nil_iff hp).mp hnil)
      exact .inr ⟨by simpa [hgt] using hdue, by simp [hgt]⟩

/-- `CheckIfDue` advances the clock if it may, calls the handlers of the interrupts that are due
then, and leaves none due. -/
theorem Queue.checkIfDue (h : s.Queue) (b : Bool) (h0 : 0 ≤ s.totalTicks) (hl : s.level = .intOff)
    (handlers : List (List (Request C)))
    (hgood : ∀ rs ∈ handlers, ∀ r ∈ rs, GoodRequest (s.started b).totalTicks r) :
    ∃ c s', (∀ fuel, s.pending.length ≤ fuel → s.checkIfDue fuel b handlers = some (c, s')) ∧
      s'.Queue ∧ (s.started b).SameClock s' ∧ s'.due = [] ∧
      s'.fired = s.fired ++ (s.started b).due.map (·, (s.started b).totalTicks) := by
  obtain ⟨hp, hf, hn, -, -, hle⟩ := s.started_pending b
  have hq : (s.started b).Queue := h.of_le hp hf hn hle
  rcases h.checkIfDue_eq b hl s.pending.length handlers with ⟨hd, hst, -⟩ | ⟨hd, -⟩
  · refine ⟨false, s, fun fuel _ => ?_, h, ?_, hd, ?_⟩
    · rcases h.checkIfDue_eq b hl fuel handlers with ⟨-, -, heq⟩ | ⟨hne, -⟩
      · exact heq
      · exact absurd (hst.symm ▸ hd) hne
    · rw [hst]; exact ⟨rfl, rfl, rfl, rfl⟩
    · rw [hst, hd]; simp
  · obtain ⟨s', hs', hq', hc', hd', hf'⟩ := hq.fireLoop (h0.trans hle) hgood hd
    refine ⟨true, s', fun fuel hfuel => ?_, hq', hc', hd', by rw [hf', hf]⟩
    rcases h.checkIfDue_eq b hl fuel handlers with ⟨hnil, hst, -⟩ | ⟨-, heq⟩
    · exact absurd (hst.symm ▸ hnil) hd
    · rw [heq, hs' fuel ?_]
      · rfl
      · calc (s.started b).due.length ≤ (s.started b).pending.length := List.length_filter_le _ _
          _ = s.pending.length := by rw [hp]
          _ ≤ fuel := hfuel

/-! ### The clock -/

/-- The three kinds of time add up. -/
structure Clock (s : IntState C) : Prop where
  sum : s.totalTicks = s.systemTicks + s.userTicks + s.idleTicks
  system_nonneg : 0 ≤ s.systemTicks
  user_nonneg : 0 ≤ s.userTicks
  idle_nonneg : 0 ≤ s.idleTicks
  le_max : s.totalTicks ≤ maxInt

omit [DecidableEq C] in
theorem Clock.nonneg (h : s.Clock) : 0 ≤ s.totalTicks := by
  obtain ⟨hsum, hs, hu, hi, -⟩ := h
  omega

omit [DecidableEq C] in
theorem Clock.same (h : s.Clock) (hc : s.SameClock s') : s'.Clock := by
  obtain ⟨hsum, hs, hu, hi, hle⟩ := h
  obtain ⟨h1, h2, h3, h4⟩ := hc
  constructor <;> omega

omit [DecidableEq C] in
/-- A time between zero and the largest `int` does not wrap. -/
theorem wrap32_time {t : Int} (h0 : 0 ≤ t) (hmax : t ≤ maxInt) : wrap32 t = t :=
  wrap32_of_nonneg (by omega) hmax

omit [DecidableEq C] in
theorem Clock.advance (h : s.Clock) {x : PendingInterrupt C} (hlt : s.totalTicks < x.when)
    (hmax : x.when ≤ maxInt) : (s.advance x).Clock := by
  obtain ⟨hsum, hs, hu, hi, hle⟩ := h
  have hstep : wrap32 (x.when - s.totalTicks) = x.when - s.totalTicks :=
    wrap32_time (by omega) (by omega)
  have hidle : wrap32 (s.idleTicks + wrap32 (x.when - s.totalTicks))
      = s.idleTicks + (x.when - s.totalTicks) := by
    rw [hstep, wrap32_time (by omega) (by omega)]
  constructor <;> simp only [IntState.advance, hidle] <;> omega

omit [DecidableEq C] in
theorem Clock.started (h : s.Clock) (hq : s.Queue) (b : Bool) : (s.started b).Clock := by
  unfold IntState.started
  split
  · exact h
  · rename_i next l hp
    split
    · rename_i hc
      exact h.advance hc.1 (hq.bound next (by simp [hp]))
    · exact h

omit [DecidableEq C] in
/-- `OneTick` adds the tick to one of the two counters. -/
theorem Clock.tick (h : s.Clock) (hmax : s.totalTicks + s.tickSize ≤ maxInt) :
    s.tick.Clock ∧ s.tick.totalTicks = s.totalTicks + s.tickSize := by
  obtain ⟨hsum, hs, hu, hi, hle⟩ := h
  have hs10 : systemTick = 10 := rfl
  have hu1 : userTick = 1 := rfl
  unfold tickSize at hmax
  unfold IntState.tick tickSize
  split
  · rename_i hst
    rw [if_pos hst] at hmax
    have htotal := wrap32_time (t := s.totalTicks + systemTick) (by omega) hmax
    have hsys := wrap32_time (t := s.systemTicks + systemTick) (by omega) (by omega)
    refine ⟨?_, htotal⟩
    constructor <;> simp only [htotal, hsys] <;> omega
  · rename_i hst
    rw [if_neg hst] at hmax
    have htotal := wrap32_time (t := s.totalTicks + userTick) (by omega) hmax
    have huser := wrap32_time (t := s.userTicks + userTick) (by omega) (by omega)
    refine ⟨?_, htotal⟩
    constructor <;> simp only [htotal, huser] <;> omega

/-! ### Whole runs -/

/-- The invariant between two actions. -/
structure Inv (s : IntState C) : Prop where
  clock : s.Clock
  queue : s.Queue
  none_due : s.due = []

omit [DecidableEq C] in
theorem Inv.relabel (h : s.Inv) (l : IntStatus) (st : MachineStatus) :
    ({ s with level := l, status := st } : IntState C).Inv :=
  ⟨h.clock.same ⟨rfl, rfl, rfl, rfl⟩, h.queue.of_le rfl rfl rfl le_rfl, h.none_due⟩

omit [DecidableEq C] in
theorem started_false (s : IntState C) : s.started false = s := by
  unfold started
  split <;> simp

/-- `OneTick` advances the clock and calls the handlers that are due then. -/
theorem Inv.oneTick (h : s.Inv) (handlers : List (List (Request C)))
    (ht : s.InTimeTick handlers) :
    ∃ s', s.oneTick handlers = some s' ∧ s'.Inv ∧ s.totalTicks ≤ s'.totalTicks := by
  obtain ⟨hclock, htotal⟩ := h.clock.tick ht.1
  have hpos : 0 ≤ s.tickSize := by unfold tickSize; split <;> decide
  have hsame : s.tick.pending = s.pending ∧ s.tick.fired = s.fired ∧
      s.tick.scheduled = s.scheduled := by
    unfold IntState.tick
    split <;> exact ⟨rfl, rfl, rfl⟩
  have hq : ({ s.tick with level := .intOff } : IntState C).Queue :=
    h.queue.of_le hsame.1 hsame.2.1 hsame.2.2 (by simp only [htotal]; omega)
  obtain ⟨c, s', hs', hq', hc', hd', -⟩ := hq.checkIfDue false hclock.nonneg rfl
    handlers (by rw [started_false]; simpa only [htotal] using ht.2)
  rw [started_false] at hc'
  have hinv : s'.Inv := ⟨hclock.same ⟨hc'.1, hc'.2, hc'.3, hc'.4⟩, hq', hd'⟩
  refine ⟨{ s' with level := .intOn }, ?_, hinv.relabel .intOn s'.status, ?_⟩
  · rw [IntState.oneTick, hs' _ (by simp [hsame.1])]
    rfl
  · show s.totalTicks ≤ s'.totalTicks
    rw [hc'.totalTicks]
    simp only [htotal]
    omega

/-- `Idle` advances the clock to the next interrupt, or halts the machine. -/
theorem Inv.idle (h : s.Inv) {handlers : List (List (Request C))} (hl : s.level = .intOff)
    (hgood : ∀ rs ∈ handlers, ∀ r ∈ rs, GoodRequest (s.started true).totalTicks r) :
    ∃ o, s.idle handlers = some o ∧
      ∀ s', o = some s' → s'.Inv ∧ s.totalTicks ≤ s'.totalTicks := by
  have hi := h.relabel s.level .idleMode
  have hst : (({ s with status := .idleMode } : IntState C).started true).totalTicks
      = (s.started true).totalTicks := by
    unfold started
    cases s.pending with
    | nil => rfl
    | cons next l => simp only; split <;> rfl
  obtain ⟨c, s', hs', hq', hc', hd', -⟩ := hi.queue.checkIfDue true hi.clock.nonneg hl
    handlers (by rw [hst]; exact hgood)
  have hclock := hi.clock.started hi.queue true
  have hinv : s'.Inv := ⟨hclock.same hc', hq', hd'⟩
  refine ⟨if c then some { s' with status := .systemMode } else none, ?_, fun s'' hs'' => ?_⟩
  · rw [IntState.idle, hs' _ le_rfl]
    rfl
  · cases c with
    | false => cases hs''
    | true =>
      cases hs''
      refine ⟨hinv.relabel s'.level .systemMode, ?_⟩
      show s.totalTicks ≤ s'.totalTicks
      rw [hc'.totalTicks, hst]
      exact (s.started_pending true).2.2.2.2.2

/-- Every action below time `2 ^ 31` keeps the invariant, trips no check and does not set the
clock back. -/
theorem Inv.next (h : s.Inv) {a : IntAction C} (ha : s.InTime a) :
    (s.next a).Meets fun s' => s'.Inv ∧ s.totalTicks ≤ s'.totalTicks := by
  cases a with
  | schedule r =>
    obtain ⟨s', hs', hq', hc', -, hd'⟩ := h.queue.schedule ha h.clock.nonneg
    simp only [IntState.next, hs', Outcome.meets_next]
    exact ⟨⟨h.clock.same hc', hq', hd'.trans h.none_due⟩, hc'.totalTicks.ge⟩
  | setLevel now handlers =>
    simp only [IntState.next]
    split
    · rename_i hon
      obtain ⟨s', hs', hinv, hle⟩ := (h.relabel now s.status).oneTick handlers (ha hon)
      rw [hs']
      exact ⟨hinv, hle⟩
    · exact ⟨h.relabel now s.status, le_rfl⟩
  | oneTick handlers =>
    refine Outcome.Meets.ite fun _ => ?_
    obtain ⟨s', hs', hinv, hle⟩ := h.oneTick handlers ha
    rw [hs']
    exact ⟨hinv, hle⟩
  | idle handlers =>
    refine Outcome.Meets.ite fun hl => ?_
    obtain ⟨o, ho, hinv⟩ := h.idle hl ha
    rw [ho]
    cases o with
    | none => trivial
    | some s' => exact hinv s' rfl
  | setStatus st => exact ⟨h.relabel s.level st, le_rfl⟩

omit [DecidableEq C] in
theorem Inv.new : (IntState.new : IntState C).Inv where
  clock := ⟨rfl, le_rfl, le_rfl, le_rfl, show (0 : Int) ≤ maxInt by decide⟩
  queue := ⟨.nil, nofun, nofun, nofun⟩
  none_due := rfl

/-- What the simulation of interrupts owes the devices between two actions. -/
structure Sound (s : IntState C) : Prop where
  ticks : s.totalTicks = s.systemTicks + s.userTicks + s.idleTicks
  fired_once : (s.fired.map fun p => p.1.number).Nodup
  fired_not_pending : ∀ p ∈ s.fired, p.1 ∉ s.pending
  on_time : ∀ p ∈ s.fired, p.1.when ≤ p.2
  none_due : ∀ x ∈ s.pending, s.totalTicks < x.when
  in_order : (s.fired.map Prod.fst).Pairwise fun x y =>
    x.when ≤ y.when ∧ (x.when = y.when → x.number < y.number)

omit [DecidableEq C] in
theorem Inv.sound (h : s.Inv) : s.Sound where
  ticks := h.clock.sum
  fired_once := by
    have hfired := (List.pairwise_append.mp h.queue.order).1
    rw [List.pairwise_map] at hfired
    exact List.pairwise_map.mpr (hfired.imp Before.ne)
  fired_not_pending := by
    intro p hp hm
    have := (List.pairwise_append.mp h.queue.order).2.2 p.1 (List.mem_map_of_mem hp) p.1 hm
    exact this.ne rfl
  on_time := fun p hp => (h.queue.past p hp).1
  none_due := by
    intro x hx
    have := List.filter_eq_nil_iff.mp h.none_due x hx
    simpa using this
  in_order := (List.pairwise_append.mp h.queue.order).1.imp fun hb => ⟨hb.le, hb.lt⟩

end IntState

theorem IntState.inv_of_reachable {C : Type*} [DecidableEq C] {s : IntState C}
    (h : (interruptSystem C).Reachable s) : s.Inv := by
  refine h.invariant (I := IntState.Inv) (by rintro s rfl; exact .new) (fun s a s' hi hs => ?_)
  obtain ⟨ha, hs⟩ := LTS.restrict_next hs
  exact ((hi.next ha).next hs).1

/-- **Interrupt simulation.** In every run below time `2 ^ 31`, whatever the handlers schedule:
the kinds of time add up and the clock is never set back; interrupts occur once, on time and
in order, and none is overdue; no assertion fails; and whenever `CheckIfDue` is called its
loop ends, after the handlers of exactly the interrupts that were due when it started. -/
theorem interrupt_simulation {C : Type*} [DecidableEq C] (s : IntState C)
    (h : (interruptSystem C).Reachable s) :
    s.Sound ∧
    (∀ a, s.InTime a → s.next a ≠ .fault ∧
      ∀ s', s.next a = .next s' → s.totalTicks ≤ s'.totalTicks) ∧
    (∀ (now : Int) (b : Bool) (handlers : List (List (Request C))) (s₁ : IntState C),
      s.totalTicks ≤ now → s₁ = { s with totalTicks := now, level := .intOff } →
      (∀ rs ∈ handlers, ∀ r ∈ rs, IntState.GoodRequest (s₁.started b).totalTicks r) →
      ∃ c s', (∀ fuel, s₁.pending.length ≤ fuel → s₁.checkIfDue fuel b handlers = some (c, s')) ∧
        s'.fired = s.fired ++ (s₁.started b).due.map (·, (s₁.started b).totalTicks) ∧
        ∀ x ∈ s'.pending, s'.totalTicks < x.when) := by
  have hinv := IntState.inv_of_reachable h
  refine ⟨hinv.sound, fun a ha => ?_, fun now b handlers s₁ hnow hs₁ hgood => ?_⟩
  · have hnext := hinv.next ha
    exact ⟨hnext.ne_fault, fun s' hs => (hnext.next hs).2⟩
  · subst hs₁
    have hq : ({ s with totalTicks := now, level := .intOff } : IntState C).Queue :=
      hinv.queue.of_le rfl rfl rfl hnow
    obtain ⟨c, s', hs', -, -, hd', hf'⟩ :=
      hq.checkIfDue b (hinv.clock.nonneg.trans hnow) rfl handlers hgood
    refine ⟨c, s', hs', hf', fun x hx => ?_⟩
    simpa using List.filter_eq_nil_iff.mp hd' x hx

/-- Two interrupts for the same time: the handler of the first one schedules a third. -/
theorem interrupt_simulation_equal_times :
    ∃ s : IntState Unit, s.fired.map (fun p => (p.1.number, p.1.when, p.2)) =
    [(0, 5, 10), (1, 5, 10)] ∧
      s.pending.map (fun x => (x.number, x.when)) = [(2, 11)] ∧ s.Sound := by
  obtain ⟨s, hs, hfired, hpending⟩ := (interruptSystem Unit).reaches rfl
    [.schedule ⟨(), 5⟩, .schedule ⟨(), 5⟩, .setLevel .intOn [[⟨(), 1⟩]]]
    (fun s => s.fired.map (fun p => (p.1.number, p.1.when, p.2)) = [(0, 5, 10), (1, 5, 10)] ∧
      s.pending.map (fun x => (x.number, x.when)) = [(2, 11)]) (by decide)
  exact ⟨s, hfired, hpending, (interrupt_simulation s hs).1⟩

end Nachos.Machine
