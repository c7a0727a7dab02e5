import Nachos.Threads.Condition

namespace Nachos.Threads

open Base Lib Function

/-!
# Threads — `SynchList`

A list guarded by a lock and a condition variable. `Append` takes the lock, appends, signals
`listEmpty` and releases; `RemoveFront` takes the lock, waits on `listEmpty` for as long as the
list is empty, takes the first item and releases.

The lock and the condition variable are those of `Condition.lean`; the state here adds the
list, where each thread is in the two operations, and two histories: the items appended and
the items removed, in the order in which the lock was held.

* `synchList_cond` — the operations use the condition variable by its convention, so
  everything proved about it holds here;
* `SynchState.Inv` — the histories differ by the contents of the list, and a consumer sleeps
  beside an item only if another one is due to wake for it;
* `synchList_fifo` — the result.
-/

variable {T α : Type*} [DecidableEq T] [DecidableEq α]

/-! ### The model -/

/-- Where a thread is in the operations of the list. -/
inductive ListPc (α : Type*) where
  /-- In neither operation. -/
  | idle
  /-- In `Append(item)`, before `list->Append`. -/
  | appending (item : α)
  /-- In `Append`, after the signal. -/
  | appended
  /-- In `RemoveFront`, before the first test of `IsEmpty`. -/
  | removing
  /-- In `RemoveFront`, in or just after a `Wait`. -/
  | waiting
  /-- In `RemoveFront`, with the item in hand. -/
  | removed (item : α)

/-- The thread has called `Wait` and not tested `IsEmpty` since. -/
def ListPc.isWaiting : ListPc α → Bool
  | .waiting => true
  | _ => false

/-- The item that an `Append` has not put into the list yet. -/
def ListPc.toAppend : ListPc α → List α
  | .appending item => [item]
  | _ => []

/-- A synchronized list and the threads using it. -/
structure SynchState (T α : Type*) where
  /-- `listEmpty`, with `lock`. -/
  cond : CondState T
  list : List α
  pc : T → ListPc α
  appended : List α
  removed : List α

/-- The pieces of the operations between two possible context switches. -/
inductive SynchAction (T α : Type*) where
  /-- `Append(item)` is called. -/
  | callAppend (t : T) (item : α)
  /-- `RemoveFront()` is called. -/
  | callRemoveFront (t : T)
  /-- A piece of `lock->Acquire()` or `lock->Release()`, also of those inside `Wait`. -/
  | lock (a : LockAction T)
  /-- A pass through the test of the private semaphore inside `Wait`. -/
  | waiterTest (t : T)
  /-- `list->Append(item)` and `listEmpty->Signal(lock)`. -/
  | append (t : T)
  /-- A test of `list->IsEmpty()`, with the call of `Wait` or the `list->RemoveFront()` that
  follows it. -/
  | test (t : T)
  /-- The operation returns. -/
  | leave (t : T)

namespace SynchState

/-- `SynchList::SynchList`. -/
def new : SynchState T α where
  cond := .new
  list := []
  pc := fun _ => .idle
  appended := []
  removed := []

/-- Where in the operations a piece of the lock's code may be taken. -/
def atLock (s : SynchState T α) (a : LockAction T) : Bool :=
  match s.pc a.thread, a with
  | .appending _, .acquire _ | .appending _, .resume _ | .appending _, .setHolder _ => true
  | .removing, .acquire _ | .removing, .resume _ | .removing, .setHolder _ => true
  | .appended, .release _ | .appended, .releaseV _ => true
  | .removed _, .release _ | .removed _, .releaseV _ => true
  | .waiting, _ => s.cond.pc a.thread ≠ .outside
  | _, _ => false

/-- One action. -/
def next (s : SynchState T α) : SynchAction T α → Outcome (SynchState T α)
  | .callAppend t item =>
    match s.pc t with
    | .idle => .next { s with pc := update s.pc t (.appending item) }
    | _ => .disabled
  | .callRemoveFront t =>
    match s.pc t with
    | .idle => .next { s with pc := update s.pc t .removing }
    | _ => .disabled
  | .lock a =>
    if s.atLock a then (s.cond.next (.lock a)).map fun c => { s with cond := c } else .disabled
  | .waiterTest t =>
    if (s.pc t).isWaiting then
      (s.cond.next (.waiterTest t)).map fun c => { s with cond := c }
    else .disabled
  | .append t =>
    match s.pc t with
    | .appending item =>
      if s.cond.lock.pc t = .holding then
        -- `ASSERT(!IsInList(item))` in `List::Append`
        match append s.list item with
        | none => .fault
        | some l =>
          (s.cond.next (.signal t)).map fun c =>
            { s with
              cond := c
              list := l
              pc := update s.pc t .appended
              appended := s.appended ++ [item] }
      else .disabled
    | _ => .disabled
  | .test t =>
    match s.pc t with
    | .removing | .waiting =>
      if s.cond.pc t = .outside ∧ s.cond.lock.pc t = .holding then
        match s.list with
        | [] =>
          (s.cond.next (.wait t)).map fun c =>
            { s with cond := c, pc := update s.pc t .waiting }
        | _ :: _ =>
          -- `ASSERT(!IsEmpty())` in `List::RemoveFront`
          match removeFront s.list with
          | none => .fault
          | some (item, l) =>
            .next { s with
              list := l
              pc := update s.pc t (.removed item)
              removed := s.removed ++ [item] }
      else .disabled
    | _ => .disabled
  | .leave t =>
    match s.pc t with
    | .appended | .removed _ =>
      if s.cond.lock.pc t = .outside then
        .next { s with pc := update s.pc t .idle }
      else .disabled
    | _ => .disabled

/-- The clients' side of the contract: an item is not appended while an equal one is still in
the list. -/
def fresh (s : SynchState T α) : SynchAction T α → Bool
  | .append t =>
    match s.pc t with
    | .appending item => item ∉ s.list
    | _ => true
  | _ => true

end SynchState

/-- Any number of threads using one synchronized list. -/
def synchListSystem (T α : Type*) [DecidableEq T] [DecidableEq α] :
    LTS (SynchState T α) (SynchAction T α) :=
  LTS.restrict ⟨fun s => s = .new, SynchState.next⟩ fun s a => s.fresh a

/-! ### What an action does -/

namespace SynchState

variable {s s' : SynchState T α} {a : SynchAction T α}

/-- The two program counters from which the loop of `RemoveFront` is entered lead to the same
code, and its `list->RemoveFront()` finds an item. -/
theorem next_test (s : SynchState T α) (t : T) :
    s.next (.test t) = .disabled ∨ (s.pc t).toAppend = [] ∧ s.next (.test t) =
      if s.cond.pc t = .outside ∧ s.cond.lock.pc t = .holding then
        match s.list with
        | [] => (s.cond.next (.wait t)).map fun c =>
            { s with cond := c, pc := update s.pc t .waiting }
        | item :: l => .next { s with
            list := l
            pc := update s.pc t (.removed item)
            removed := s.removed ++ [item] }
      else .disabled := by
  simp only [next]
  split
  · rename_i hpc
    exact .inr ⟨by rw [hpc]; rfl, by cases s.list <;> rfl⟩
  · rename_i hpc
    exact .inr ⟨by rw [hpc]; rfl, by cases s.list <;> rfl⟩
  · exact .inl rfl

/-- Everything an action can do. -/
inductive Step (s : SynchState T α) (a : SynchAction T α) : SynchState T α → Prop where
  | move {t : T} {p : ListPc α} (ht : (s.pc t).isWaiting = false) (hp : p.isWaiting = false)
      (hold : (s.pc t).toAppend = []) (hnew : p.toAppend = [] ∨ ∃ item, a = .callAppend t item)
      (hrem : ∀ item, p ≠ .removed item) : Step s a { s with pc := update s.pc t p }
  | cond {k : CondAction T} {c : CondState T} (hk : (∃ b, k = .lock b) ∨ ∃ t, k = .waiterTest t)
      (hc : s.cond.next k = .next c) : Step s a { s with cond := c }
  | append {t : T} {item : α} {c : CondState T} (ht : s.pc t = .appending item)
      (hc : s.cond.next (.signal t) = .next c) : Step s a { s with
        cond := c
        list := s.list ++ [item]
        pc := update s.pc t .appended
        appended := s.appended ++ [item] }
  | wait {t : T} {c : CondState T} (hold : (s.pc t).toAppend = []) (hnil : s.list = [])
      (hc : s.cond.next (.wait t) = .next c) :
      Step s a { s with cond := c, pc := update s.pc t .waiting }
  | take {t : T} {item : α} {l : List α} (hold : (s.pc t).toAppend = [])
      (hpc : s.cond.pc t = .outside) (hl : s.list = item :: l) : Step s a { s with
        list := l
        pc := update s.pc t (.removed item)
        removed := s.removed ++ [item] }

theorem next_step (hs : s.next a = .next s') : s.Step a s' := by
  cases a with
  | callAppend t item =>
    simp only [next] at hs
    split at hs <;> cases hs
    rename_i hpc
    exact .move (by rw [hpc]; rfl) rfl (by rw [hpc]; rfl) (.inr ⟨item, rfl⟩) nofun
  | callRemoveFront t =>
    simp only [next] at hs
    split at hs <;> cases hs
    rename_i hpc
    exact .move (by rw [hpc]; rfl) rfl (by rw [hpc]; rfl) (.inl rfl) nofun
  | lock b =>
    obtain ⟨-, hs⟩ := Outcome.guard_eq_next.mp hs
    obtain ⟨c, hc, rfl⟩ := Outcome.map_eq_next_iff.mp hs
    exact .cond (.inl ⟨b, rfl⟩) hc
  | waiterTest t =>
    obtain ⟨-, hs⟩ := Outcome.guard_eq_next.mp hs
    obtain ⟨c, hc, rfl⟩ := Outcome.map_eq_next_iff.mp hs
    exact .cond (.inr ⟨t, rfl⟩) hc
  | append t =>
    simp only [next] at hs
    split at hs
    · rename_i item hpc
      obtain ⟨-, hs⟩ := Outcome.guard_eq_next.mp hs
      split at hs
      · cases hs
      · rename_i l hl
        obtain ⟨c, hc, rfl⟩ := Outcome.map_eq_next_iff.mp hs
        obtain rfl : s.list ++ [item] = l := append_eq_some hl
        exact .append hpc hc
    · cases hs
  | test t =>
    rcases s.next_test t with hbody | ⟨hpc, hbody⟩ <;> rw [hbody] at hs
    · cases hs
    · obtain ⟨hg, hs⟩ := Outcome.guard_eq_next.mp hs
      split at hs
      · rename_i hnil
        obtain ⟨c, hc, rfl⟩ := Outcome.map_eq_next_iff.mp hs
        exact .wait hpc hnil hc
      · rename_i item l hcons
        cases hs
        exact .take hpc hg.1 hcons
  | leave t =>
    simp only [next] at hs
    split at hs
    · rename_i hpc
      split at hs <;> cases hs
      exact .move (by rw [hpc]; rfl) rfl (by rw [hpc]; rfl) (.inl rfl) nofun
    · rename_i hpc
      split at hs <;> cases hs
      exact .move (by rw [hpc]; rfl) rfl (by rw [hpc]; rfl) (.inl rfl) nofun
    · cases hs

/-- An action of the list takes at most one action of the condition variable, and takes it as
that allows. -/
theorem next_cond (hs : s.next a = .next s') :
    s'.cond = s.cond ∨ ∃ k, s.cond.next k = .next s'.cond := by
  cases next_step hs with
  | move | take => exact .inl rfl
  | cond _ hc | append _ hc | wait _ _ hc => exact .inr ⟨_, hc⟩

/-- The histories differ by the contents of the list. -/
theorem next_fifo (hs : s.next a = .next s')
    (h : s.appended = s.removed ++ s.list) : s'.appended = s'.removed ++ s'.list := by
  cases next_step hs with
  | move | cond | wait => exact h
  | @append t item c =>
    show s.appended ++ [item] = s.removed ++ (s.list ++ [item])
    rw [h, List.append_assoc]
  | @take t item l _ _ hl =>
    show s.appended = s.removed ++ [item] ++ l
    rw [h, hl, List.append_assoc, List.singleton_append]

/-- An item in the hands of a thread in `RemoveFront` has been removed. -/
theorem next_removed (hs : s.next a = .next s')
    (h : ∀ t item, s.pc t = .removed item → item ∈ s.removed) (t : T) (item : α)
    (ht : s'.pc t = .removed item) : item ∈ s'.removed := by
  cases next_step hs with
  | cond => exact h t item ht
  | move _ _ _ _ hrem =>
    obtain ⟨-, ht⟩ | ⟨-, ht⟩ := update_eq_cases ht
    · exact (hrem item ht).elim
    · exact h t item ht
  | append | wait =>
    obtain ⟨-, ht⟩ | ⟨-, ht⟩ := update_eq_cases ht
    · cases ht
    · exact h t item ht
  | take =>
    obtain ⟨-, ht⟩ | ⟨-, ht⟩ := update_eq_cases ht
    · cases ht
      exact List.mem_append_right _ (List.mem_singleton_self _)
    · exact List.mem_append_left _ (h t item ht)

/-- An item to append comes with the call and goes into the history, and nothing else moves it. -/
theorem next_toAppend (hs : s.next a = .next s')
    (ha : ∀ t item, a ≠ .callAppend t item) :
    (s'.appended = s.appended ∧ ∀ u, (s'.pc u).toAppend = (s.pc u).toAppend) ∨
    ∃ t item, s.pc t = .appending item ∧ s'.appended = s.appended ++ [item] ∧
      s'.pc = update s.pc t .appended := by
  have hpc {t : T} {p : ListPc α} (ht : (s.pc t).toAppend = []) (hp : p.toAppend = []) (u : T) :
      (update s.pc t p u).toAppend = (s.pc u).toAppend := by
    by_cases hut : u = t
    · subst hut
      rw [update_self, hp, ht]
    · rw [update_of_ne hut]
  cases next_step hs with
  | move _ _ hold hnew _ =>
    obtain hnew | ⟨item, hcall⟩ := hnew
    · exact .inl ⟨rfl, hpc hold hnew⟩
    · exact (ha _ item hcall).elim
  | cond => exact .inl ⟨rfl, fun _ => rfl⟩
  | append ht _ => exact .inr ⟨_, _, ht, rfl, rfl⟩
  | wait hold _ _ | take hold _ _ => exact .inl ⟨rfl, hpc hold rfl⟩

end SynchState

/-- The steps of the restricted system are steps of the list. -/
theorem synchListSystem_next {s s' : SynchState T α} {a : SynchAction T α}
    (hs : (synchListSystem T α).next s a = .next s') : s.next a = .next s' :=
  (LTS.restrict_next hs).2

/-- **The list is a client of the condition variable**: in every reachable state of the list,
its condition variable and lock are in a state reachable by themselves. -/
theorem synchList_cond {s : SynchState T α} (h : (synchListSystem T α).Reachable s) :
    (condSystem T).Reachable s.cond :=
  h.project SynchState.cond (by rintro s rfl; rfl)
    (fun _ _ _ hs => SynchState.next_cond (synchListSystem_next hs))

/-! ### The invariant -/

namespace SynchState

/-- The thread has been signalled in its `Wait` and has not tested `IsEmpty` again. -/
def due (s : SynchState T α) (t : T) : Bool :=
  (s.pc t).isWaiting && s.cond.signalled t

variable [Fintype T]

/-- The inductive invariant of the list. -/
structure Inv (s : SynchState T α) : Prop where
  /-- Nothing is lost, duplicated or reordered. -/
  fifo : s.appended = s.removed ++ s.list
  /-- Only `RemoveFront` waits on `listEmpty`. -/
  waiting : ∀ t ∈ s.cond.waitQueue, s.pc t = .waiting
  /-- If somebody waits, every item in the list has somebody due to take it. -/
  covered : s.cond.waitQueue ≠ [] → s.list.length ≤ count s.due (· = true)

variable {s s' : SynchState T α}

omit [DecidableEq α] [DecidableEq T] in
theorem Inv.new : (SynchState.new : SynchState T α).Inv :=
  ⟨rfl, by simp [SynchState.new, CondState.new], by simp [SynchState.new, CondState.new]⟩

omit [DecidableEq α] in
/-- Moving a thread between places outside `Wait`. -/
theorem Inv.move (h : s.Inv) {t : T} {p : ListPc α} (ht : (s.pc t).isWaiting = false)
    (hp : p.isWaiting = false) : ({ s with pc := update s.pc t p } : SynchState T α).Inv := by
  refine ⟨h.fifo, fun u hu => ?_, fun hq => ?_⟩
  · have hut : u ≠ t := by rintro rfl; rw [h.waiting u hu] at ht; cases ht
    simpa [hut] using h.waiting u hu
  · have hdue : ({ s with pc := update s.pc t p } : SynchState T α).due = s.due := by
      funext u
      by_cases hut : u = t
      · subst hut; simp [due, ht, hp]
      · simp [due, hut]
    rw [hdue]
    exact h.covered hq

omit [DecidableEq α] [Fintype T] in
/-- The lock's code and the private semaphores leave `waitQueue` and `signalled` alone. -/
theorem cond_frame {c c' : CondState T} (hc : c.Inv) {k : CondAction T}
    (hk : (∃ b, k = .lock b) ∨ ∃ t, k = .waiterTest t) (hs : c.next k = .next c') :
    c'.waitQueue = c.waitQueue ∧ c'.signalled = c.signalled := by
  rcases hk with ⟨b, rfl⟩ | ⟨t, rfl⟩
  · obtain ⟨l, p, -, rfl, -⟩ := CondState.lockStep_cases hs
    exact ⟨rfl, rfl⟩
  · obtain ⟨-, sem, p, rfl, -⟩ := (hc.waiterTest _).next hs
    exact ⟨rfl, rfl⟩

omit [DecidableEq α] in
/-- An append brings one item, and its signal makes one more waiter due, if there is one. -/
theorem Inv.append (h : s.Inv) (hc : s.cond.Inv) {t : T} {item : α} {c : CondState T}
    (ht : (s.pc t).isWaiting = false) (hs : s.cond.next (.signal t) = .next c) :
    ({ s with
      cond := c
      list := s.list ++ [item]
      pc := update s.pc t .appended
      appended := s.appended ++ [item] } : SynchState T α).Inv := by
  cases hq : s.cond.waitQueue with
  | nil =>
    -- Nobody waits: `Signal` does nothing, and there is nobody to cover the new item for.
    obtain ⟨-, -, -, rfl⟩ := (hc.signal _).next hs
    have hsame : s.cond.signalFront = s.cond := by unfold CondState.signalFront; rw [hq]; rfl
    rw [hsame]
    exact ⟨by simp [h.fifo], by simp [hq], fun hne => absurd hq hne⟩
  | cons u rest =>
    -- The longest waiter `u` was not due before and is due now: one item, one thread more.
    obtain ⟨hq', hsig'⟩ := hc.signal_or_loop (.inl rfl) hs hq
    have hu : s.pc u = .waiting := h.waiting u (by simp [hq])
    have hut : u ≠ t := by rintro rfl; rw [hu] at ht; cases ht
    have hunsig := (hc.of_mem_waitQueue (u := u) (by simp [hq])).1
    have hdue : ({ s with
        cond := c
        list := s.list ++ [item]
        pc := update s.pc t .appended
        appended := s.appended ++ [item] } : SynchState T α).due = update s.due u true := by
      funext w
      by_cases hwu : w = u
      · subst hwu; simp [due, hsig', hut, hu, ListPc.isWaiting]
      · by_cases hwt : w = t
        · -- The producer is in `Append`, so it is due neither before nor after.
          subst hwt
          have hdue : s.due w = false := by simp [due, ht]
          rw [update_of_ne hwu, hdue]
          simp [due, ListPc.isWaiting]
        · simp [due, hsig', hwu, hwt]
    refine ⟨by simp [h.fifo], fun w hw => ?_, fun _ => ?_⟩
    · have hw' : w ∈ s.cond.waitQueue := by rw [hq]; rw [hq'] at hw; exact .tail _ hw
      have hwt : w ≠ t := by rintro rfl; rw [h.waiting w hw'] at ht; cases ht
      simpa [hwt] using h.waiting w hw'
    · have hcov := h.covered (by simp [hq])
      have hcount := count_update s.due (· = true) u true
      rw [if_neg (by simp [due, hunsig]), if_pos rfl] at hcount
      rw [hdue, List.length_append, List.length_singleton]
      omega

omit [DecidableEq α] in
/-- A call of `Wait`: it is made on an empty list. -/
theorem Inv.wait (h : s.Inv) (hc : s.cond.Inv) {t : T} {c : CondState T} (hnil : s.list = [])
    (hs : s.cond.next (.wait t) = .next c) :
    ({ s with cond := c, pc := update s.pc t .waiting } : SynchState T α).Inv := by
  obtain ⟨-, -, -, rfl⟩ := (hc.wait _).next hs
  refine ⟨h.fifo, fun u hu => ?_, fun _ => by simp [hnil]⟩
  by_cases hut : u = t
  · subst hut; simp
  · simpa [hut] using h.waiting u (by simpa [hut] using hu)

omit [DecidableEq α] in
/-- Taking the first item uses up at most one thread that was due. -/
theorem Inv.take (h : s.Inv) (hc : s.cond.Inv) {t : T} {item : α} {l : List α}
    (hpc : s.cond.pc t = .outside) (hl : s.list = item :: l) :
    ({ s with
      list := l
      pc := update s.pc t (.removed item)
      removed := s.removed ++ [item] } : SynchState T α).Inv := by
  have htq := hc.notMem_of_outside hpc
  refine ⟨by simp [h.fifo, hl], fun u hu => ?_, fun hq => ?_⟩
  · have hut : u ≠ t := by rintro rfl; exact htq hu
    simpa [hut] using h.waiting u hu
  · -- `t` may be a thread that was never signalled and takes the item of another one; then
    -- one item is gone and everybody who was due still is.
    have hdue : ({ s with
        list := l
        pc := update s.pc t (.removed item)
        removed := s.removed ++ [item] } : SynchState T α).due = update s.due t false := by
      funext w
      by_cases hwt : w = t
      · subst hwt; simp [due, ListPc.isWaiting]
      · simp [due, hwt]
    have hcov := h.covered hq
    have hcount := count_update s.due (· = true) t false
    rw [hl, List.length_cons] at hcov
    rw [if_neg (by decide : ¬ false = true)] at hcount
    rw [hdue]
    show l.length ≤ _
    split at hcount <;> omega

/-- The invariant survives every action. -/
theorem Inv.next (h : s.Inv) (hc : s.cond.Inv) {a : SynchAction T α} (hs : s.next a = .next s') :
    s'.Inv := by
  cases next_step hs with
  | move ht hp _ _ _ => exact h.move ht hp
  | @cond k c hk hcs =>
    -- A step of the lock: neither the queue nor who is due depends on it.
    obtain ⟨hq, hsig⟩ := cond_frame hc hk hcs
    refine ⟨h.fifo, by rw [hq]; exact h.waiting, ?_⟩
    have hdue : ({ s with cond := c } : SynchState T α).due = s.due := by
      funext t; simp [due, hsig]
    rw [hdue, hq]
    exact h.covered
  | append ht hcs => exact h.append hc (by rw [ht]; rfl) hcs
  | wait _ hnil hcs => exact h.wait hc hnil hcs
  | take _ hpc hl => exact h.take hc hpc hl

omit [Fintype T] in
/-- No assertion fails: not those of the lock and the condition variable, not `List::Append`'s
as long as the clients append fresh items, and `List::RemoveFront`'s because the loop has
just tested `IsEmpty`. -/
theorem no_fault (hc : s.cond.Inv) (a : SynchAction T α) (ha : s.fresh a) : s.next a ≠ .fault := by
  have hmap : ∀ (k : CondAction T) (f : CondState T → SynchState T α),
      (s.cond.next k).map f ≠ .fault :=
    fun k f hf => hc.no_fault k (Outcome.map_eq_fault_iff.mp hf)
  cases a with
  | callAppend t item => simp only [SynchState.next]; split <;> nofun
  | callRemoveFront t => simp only [SynchState.next]; split <;> nofun
  | lock b =>
    simp only [SynchState.next]
    split
    · exact hmap _ _
    · nofun
  | waiterTest t =>
    simp only [SynchState.next]
    split
    · exact hmap _ _
    · nofun
  | append t =>
    simp only [SynchState.next, fresh] at ha ⊢
    split
    · rename_i item hpc
      split
      · rw [append_of_notMem (of_decide_eq_true (by simpa only [hpc] using ha))]
        exact hmap _ _
      · nofun
    · nofun
  | test t =>
    cases hl : s.list <;> simp only [SynchState.next, hl, removeFront_cons] <;> split <;>
      first
        | (split <;> first | exact hmap _ _ | nofun)
        | nofun
  | leave t =>
    simp only [SynchState.next]
    split
    · split <;> nofun
    · split <;> nofun
    · nofun

end SynchState

/-! ### A lossless queue -/

/-- **`SynchList` is a lossless FIFO.** In every state that any number of threads can reach,
the items removed so far are a prefix of the items appended so far, both in the order in
which the lock was held; what is missing is the contents of the list; no assertion fails,
in particular `RemoveFront` never meets an empty list; and while a thread is queued on
`listEmpty`, at least as many threads are due to test `IsEmpty` as there are items. -/
theorem synchList_fifo [Fintype T] (s : SynchState T α)
    (h : (synchListSystem T α).Reachable s) :
    s.appended = s.removed ++ s.list ∧
    (∀ a, (synchListSystem T α).next s a ≠ .fault) ∧
    (s.cond.waitQueue ≠ [] → s.list.length ≤ count s.due (· = true)) := by
  have hinv : s.Inv := by
    refine h.invariant_of (I := SynchState.Inv) (by rintro s rfl; exact .new) ?_
    intro s a s' hr hi hs
    exact hi.next (cond_inv (synchList_cond hr)) (synchListSystem_next hs)
  refine ⟨hinv.fifo, fun a => ?_, hinv.covered⟩
  -- An append of an item that is in the list is not an action of the system.
  simp only [synchListSystem, LTS.restrict]
  split
  · rename_i ha
    exact SynchState.no_fault (cond_inv (synchList_cond h)) a ha
  · nofun

/-- A consumer sleeps on the empty list; a producer appends one item and the consumer is due. -/
theorem synchList_fifo_handoff :
    ∃ s : SynchState (Fin 2) Bool, s.list = [true] ∧ s.cond.pc 0 = .woken ∧ s.due 0 = true ∧
      s.appended = s.removed ++ s.list := by
  obtain ⟨s, hs, hlist, hpc, hdue⟩ := (synchListSystem (Fin 2) Bool).reaches rfl
    [.callRemoveFront 0, .lock (.acquire 0), .lock (.setHolder 0), .test 0, .lock (.release 0),
      .lock (.releaseV 0), .waiterTest 0, .callAppend 1 true, .lock (.acquire 1),
      .lock (.setHolder 1), .append 1]
    (fun s => s.list = [true] ∧ s.cond.pc 0 = .woken ∧ s.due 0 = true) rfl
  exact ⟨s, hlist, hpc, hdue, (synchList_fifo s hs).1⟩

end Nachos.Threads
