import Nachos.Lib.Bitmap
import Nachos.Threads.Semaphore

namespace Nachos.Threads

open Base Lib Function

/-!
# Threads — the process table

`PTable` and `PCB` of `threads/PTable.cc` and `threads/pcb.cc`, and the threads that run their
code on behalf of the system calls `Exec`, `Join` and `Exit`. A context switch can happen
where interrupts come back on: at the end of every `P` and `V`, and in `Fork`. `Point` lists
these places; an action takes a thread from one of them to the next one.

What the pointers of the source point to decides the behaviour, so they are explicit:

* a PCB is an object on the heap, named by the order of its allocation. Its destructor ends
  in `thread->Finish()`, which does not return, so neither the memory of the PCB nor the
  entry of `pcbs` is ever cleared: the field `deleted` says that the destructor has run. The
  plain fields of such a PCB can still be read; using its semaphores or its file name, which
  have been deleted, is a fault;
* a thread is its address. The address of a finished thread is free again and may be given
  to a later `new Thread`.

The fields `slot`, `deleted` and `exited` of a PCB are history, and so is the child recorded at
the points inside `JoinUpdate`.
-/

variable {T N : Type*}

/-! ### Data -/

/-- `MAX_PROCESSES`. -/
def maxProcesses : ℕ := 10

/-- `PCB`. -/
structure PCB (T N : Type*) where
  joinsem : Semaphore T
  exitsem : Semaphore T
  mutex : Semaphore T
  exitcode : Int
  numwait : Int
  file : Option N
  thread : Option T
  pid : Int
  parentID : Int
  /-- The entry of `pcbs` it was created for. -/
  slot : ℕ
  /-- The destructor has run. -/
  deleted : Bool
  /-- The code its process passed to `Exit`. -/
  exited : Option Int

/-- `PCB::PCB()`. -/
def PCB.new (slot : ℕ) : PCB T N where
  joinsem := .new 0
  exitsem := .new 0
  mutex := .new 1
  exitcode := 0
  numwait := 0
  file := none
  thread := none
  pid := -1
  parentID := -1
  slot := slot
  deleted := false
  exited := none

/-- The semaphores the code uses: `PTable::sem`, `kernel->addrLock` and the three of a PCB. -/
inductive SemRef where
  | table
  | addrLock
  | mutex (c : ℕ)
  | joinsem (c : ℕ)
  | exitsem (c : ℕ)
  deriving DecidableEq

/-- The places where a thread can be switched out, named after the code that comes next. -/
inductive Point (N : Type*) where
  /-- In the user program. -/
  | user
  /-- At the start of the thread: `AddrSpace::Load` is about to take `addrLock`. -/
  | start (c : ℕ)
  /-- `Load`, holding `addrLock`. -/
  | load (c : ℕ)
  /-- `Load` has released `addrLock` and returns `FALSE`. -/
  | loadFailed (c : ℕ)
  /-- `ExecUpdate`, holding `sem`. -/
  | execBody (name : N)
  /-- `PCB::Exec`, holding the `mutex` of the new PCB `c`. -/
  | fork (c slot : ℕ) (name : N)
  /-- `PCB::Exec` after `Fork`. -/
  | forked (c slot : ℕ)
  /-- `ExecUpdate` after `PCB::Exec`. -/
  | execDone (slot : ℕ)
  /-- `IncNumWait` of the PCB `me`, holding its `mutex`. -/
  | incNumWait (me : ℕ) (cur id : Int) (child : Option ℕ)
  /-- `JoinUpdate` before `pcbs[id]->JoinWait()`. -/
  | joinWait (cur id : Int) (child : Option ℕ)
  /-- `JoinUpdate` after `JoinWait`. -/
  | joined (cur id : Int) (child : Option ℕ)
  /-- `DecNumWait` of the PCB `me`, holding its `mutex`. -/
  | decNumWait (me : ℕ) (id : Int) (child : Option ℕ)
  /-- `JoinUpdate` before `pcbs[id]->ExitRelease()`. -/
  | exitRelease (id : Int) (child : Option ℕ)
  /-- `JoinUpdate` before `return pcbs[id]->GetExitCode()`. -/
  | getExitCode (id : Int) (child : Option ℕ)
  /-- `ExitUpdate` before `ExitWait`. -/
  | exitWait (cur : Int)
  /-- `ExitUpdate` before `Remove`. -/
  | remove (cur : Int)
  deriving DecidableEq

/-- Where a thread is. -/
inductive ProcPc (N : Type*) where
  /-- There is no thread at this address. -/
  | unborn
  /-- Ready or running at a point. -/
  | at (k : Point N)
  /-- Inside `P` of a semaphore, before the point; asleep until a `V` makes it `woken`. -/
  | inP (r : SemRef) (k : Point N) (woken : Bool)
  deriving DecidableEq

/-- The process table, the PCBs and the threads. -/
structure ProcState (T N : Type*) where
  pcbs : ℕ → Option ℕ
  numProcesses : Int
  slotManager : Bitmap maxProcesses
  sem : Semaphore T
  addrLock : Semaphore T
  /-- The PCBs on the heap. -/
  pcb : ℕ → PCB T N
  /-- The number of PCBs created so far. -/
  numPcbs : ℕ
  pc : T → ProcPc N
  /-- The value the last system call of a thread returned. -/
  result : T → Int
  halted : Bool

/-- What can happen next. -/
inductive ProcAction (T N : Type*) where
  /-- The `Exec` system call; `opened` says whether the file could be opened. -/
  | callExec (t : T) (name : N) (opened : Bool)
  /-- The `Join` system call. -/
  | callJoin (t : T) (id : Int)
  /-- The `Exit` system call. -/
  | callExit (t : T) (code : Int)
  /-- The thread goes on from its point. -/
  | run (t : T)
  /-- The part of `PCB::Exec` that creates the thread, at the address `u`. -/
  | fork (t u : T)
  /-- `AddrSpace::Load` cannot open the file and returns `FALSE`. -/
  | openFailed (t : T)
  /-- The rest of `AddrSpace::Load`, which returns `TRUE` or, for lack of memory, `FALSE`. -/
  | load (t : T) (ok : Bool)
  /-- A woken thread is scheduled and tests its semaphore again. -/
  | resume (t : T)
  deriving DecidableEq

namespace ProcState

variable [DecidableEq T] [DecidableEq N]

/-! ### Semaphores of the kernel -/

/-- Update one PCB. -/
def setPcb (s : ProcState T N) (c : ℕ) (p : PCB T N) : ProcState T N :=
  { s with pcb := update s.pcb c p }

/-- Move a thread. -/
def setPc (s : ProcState T N) (t : T) (p : ProcPc N) : ProcState T N :=
  { s with pc := update s.pc t p }

/-- The semaphore a pointer leads to, unless it has been deleted. -/
def getSem (s : ProcState T N) : SemRef → Option (Semaphore T)
  | .table => some s.sem
  | .addrLock => some s.addrLock
  | .mutex c => if (s.pcb c).deleted then none else some (s.pcb c).mutex
  | .joinsem c => if (s.pcb c).deleted then none else some (s.pcb c).joinsem
  | .exitsem c => if (s.pcb c).deleted then none else some (s.pcb c).exitsem

/-- Store a semaphore back. -/
def setSem (s : ProcState T N) (r : SemRef) (x : Semaphore T) : ProcState T N :=
  match r with
  | .table => { s with sem := x }
  | .addrLock => { s with addrLock := x }
  | .mutex c => s.setPcb c { s.pcb c with mutex := x }
  | .joinsem c => s.setPcb c { s.pcb c with joinsem := x }
  | .exitsem c => s.setPcb c { s.pcb c with exitsem := x }

/-- A pass of `t` through the loop of `P`; afterwards it is at `k` or asleep. -/
def p (s : ProcState T N) (t : T) (r : SemRef) (k : Point N) : Outcome (ProcState T N) :=
  match s.getSem r with
  | none => .fault
  | some x =>
    match x.pTest t with
    | none => .fault
    | some (x', true) => .next ((s.setSem r x').setPc t (.at k))
    | some (x', false) => .next ((s.setSem r x').setPc t (.inP r k false))

/-- Make a sleeping thread ready. -/
def wake (s : ProcState T N) (w : T) : ProcState T N :=
  match s.pc w with
  | .inP r k _ => s.setPc w (.inP r k true)
  | _ => s

/-- A `V` by `t`, which is then at `k`. -/
def v (s : ProcState T N) (t : T) (r : SemRef) (k : Point N) : Outcome (ProcState T N) :=
  match s.getSem r with
  | none => .fault
  | some x =>
    match x.v with
    | (x', none) => .next ((s.setSem r x').setPc t (.at k))
    | (x', some w) => .next (((s.setSem r x').wake w).setPc t (.at k))

/-! ### The operations of `PTable` -/

/-- `pcbs[id]`, as far as it points to a PCB. -/
def pcbAt (s : ProcState T N) (id : Int) : Option ℕ :=
  if 0 ≤ id ∧ id < maxProcesses then s.pcbs id.toNat else none

/-- `PTable::IsExist`. -/
def isExist (s : ProcState T N) (pid : Int) : Bool :=
  if pid < 0 ∨ pid ≥ maxProcesses then false else (s.pcbs pid.toNat).isSome

/-- `PTable::GetCurrentThreadId`, with `t` as `kernel->currentThread`. -/
def getCurrentThreadId (s : ProcState T N) (t : T) : Int :=
  ((List.range maxProcesses).findSome? fun i =>
    match s.pcbs i with
    | none => none
    | some c => if (s.pcb c).thread = some t then some (s.pcb c).pid else none).getD (-1)

/-- A new PCB, child of `cur`, in the entry `slot` of the table; `bm` is the bitmap after
`GetFreeSlot`. -/
def create (s : ProcState T N) (bm : Bitmap maxProcesses) (slot : ℕ) (cur : Int) :
    ProcState T N :=
  { s with
    slotManager := bm
    pcbs := update s.pcbs slot (some s.numPcbs)
    pcb := update s.pcb s.numPcbs { PCB.new slot with parentID := cur }
    numPcbs := s.numPcbs + 1 }

/-- `ExecUpdate` from `sem->P()` to `mutex->P()` in `PCB::Exec`, or to its return. -/
def execBody (s : ProcState T N) (t : T) (name : N) : Outcome (ProcState T N) :=
  let cur := s.getCurrentThreadId t
  let failed := { s with result := update s.result t (-1) }
  match s.pcbAt cur with
  | none => .fault
  | some me =>
    match (s.pcb me).deleted, (s.pcb me).file with
    | false, some file =>
      if file = name then failed.v t .table .user
      else if s.slotManager.findAndSet.1 = -1 then failed.v t .table .user
      else
        let slot := s.slotManager.findAndSet.1.toNat
        (s.create s.slotManager.findAndSet.2 slot cur).p t (.mutex s.numPcbs)
          (.fork s.numPcbs slot name)
    -- The name is read through a pointer that is `NULL` or has been deleted.
    | _, _ => .fault

/-- `PCB::Exec` from `mutex->P()` to `Fork`; `u` is the address `new Thread` returns. -/
def fork (s : ProcState T N) (t u : T) (c slot : ℕ) (name : N) : Outcome (ProcState T N) :=
  if s.pc u = .unborn then
    .next (((s.setPcb c { s.pcb c with
      pid := slot
      file := some name
      thread := some u }).setPc u (.at (.start c))).setPc t (.at (.forked c slot)))
  else .disabled

/-- `JoinUpdate` up to the first `P` in `IncNumWait`, or to its return. -/
def callJoin (s : ProcState T N) (t : T) (id : Int) : Outcome (ProcState T N) :=
  let cur := s.getCurrentThreadId t
  if s.isExist id = false then .next { s with result := update s.result t (-1) }
  else if id = cur then .next { s with result := update s.result t (-2) }
  else
    match s.pcbAt id with
    | none => .fault
    | some c =>
      if (s.pcb c).parentID ≠ cur then .next { s with result := update s.result t (-3) }
      else
        match s.pcbAt cur with
        | none => .fault
        | some me =>
          s.p t (.mutex me) (.incNumWait me cur id (if (s.pcb c).deleted then none else some c))

/-- `ExitUpdate` up to `joinsem->V()` in `JoinRelease`. -/
def callExit (s : ProcState T N) (t : T) (code : Int) : Outcome (ProcState T N) :=
  let cur := s.getCurrentThreadId t
  if cur = 0 then .next { s with halted := true }
  else
    match s.pcbAt cur with
    | none => .fault
    | some c =>
      (s.setPcb c { s.pcb c with exitcode := code, exited := some code }).v t (.joinsem c)
        (.exitWait cur)

/-- `PTable::Remove` of the running process. The destructor of the PCB deletes the semaphores
and the name and calls `thread->Finish()`, which asserts that the thread is the running one
and does not return: `pcbs[pid] = NULL` is not executed. -/
def remove (s : ProcState T N) (t : T) (cur : Int) : Outcome (ProcState T N) :=
  match s.pcbAt cur with
  -- `IsExist` is false, and `ExitUpdate` ends without a value.
  | none => .fault
  | some c =>
    match s.slotManager.clear cur with
    | none => .fault
    | some bm =>
      if (s.pcb c).deleted = false ∧ (s.pcb c).thread = some t then
        .next (({ s with slotManager := bm, numProcesses := s.numProcesses - 1 }.setPcb c
          { s.pcb c with deleted := true }).setPc t .unborn)
      else .fault

/-- `Load` has returned `FALSE`: the first process returns to `main`, which halts; a child runs
into the `ASSERTNOTREACHED` of `StartProcess`. -/
def loadFailed (s : ProcState T N) (c : ℕ) : Outcome (ProcState T N) :=
  if c = 0 then .next { s with halted := true } else .fault

/-- A thread goes on from its point to the next one. -/
def run (s : ProcState T N) (t : T) : Point N → Outcome (ProcState T N)
  | .user | .fork _ _ _ | .load _ => .disabled
  | .start c => s.p t .addrLock (.load c)
  | .loadFailed c => s.loadFailed c
  | .execBody name => s.execBody t name
  | .forked c slot => s.v t (.mutex c) (.execDone slot)
  | .execDone slot =>
    { s with
      numProcesses := s.numProcesses + 1
      result := update s.result t slot }.v t .table .user
  | .incNumWait me cur id child =>
    (s.setPcb me { s.pcb me with numwait := (s.pcb me).numwait + 1 }).v t (.mutex me)
      (.joinWait cur id child)
  | .joinWait cur id child =>
    match s.pcbAt id with
    | none => .fault
    | some d => s.p t (.joinsem d) (.joined cur id child)
  | .joined cur id child =>
    match s.pcbAt cur with
    | none => .fault
    | some me => s.p t (.mutex me) (.decNumWait me id child)
  | .decNumWait me id child =>
    (s.setPcb me { s.pcb me with numwait := (s.pcb me).numwait - 1 }).v t (.mutex me)
      (.exitRelease id child)
  | .exitRelease id child =>
    match s.pcbAt id with
    | none => .fault
    | some d => s.v t (.exitsem d) (.getExitCode id child)
  | .getExitCode id _ =>
    match s.pcbAt id with
    | none => .fault
    | some d =>
      .next ({ s with result := update s.result t (s.pcb d).exitcode }.setPc t (.at .user))
  | .exitWait cur =>
    match s.pcbAt cur with
    | none => .fault
    | some c => s.p t (.exitsem c) (.remove cur)
  | .remove cur => s.remove t cur

/-- One action. -/
def next (s : ProcState T N) (a : ProcAction T N) : Outcome (ProcState T N) :=
  if s.halted then .disabled
  else
    match a with
    | .callExec t name opened =>
      if s.pc t = .at .user then
        if opened then s.p t .table (.execBody name)
        else .next { s with result := update s.result t (-1) }
      else .disabled
    | .callJoin t id => if s.pc t = .at .user then s.callJoin t id else .disabled
    | .callExit t code => if s.pc t = .at .user then s.callExit t code else .disabled
    | .run t =>
      match s.pc t with
      | .at k => s.run t k
      | _ => .disabled
    | .fork t u =>
      match s.pc t with
      | .at (.fork c slot name) => s.fork t u c slot name
      | _ => .disabled
    | .openFailed t =>
      match s.pc t with
      | .at (.start c) => s.loadFailed c
      | _ => .disabled
    | .load t ok =>
      match s.pc t with
      | .at (.load c) => s.v t .addrLock (if ok then .user else .loadFailed c)
      | _ => .disabled
    | .resume t =>
      match s.pc t with
      | .inP r k true => s.p t r k
      | _ => .disabled

/-- `PTable::PTable`, with the main thread running. -/
def new (main : T) : ProcState T N where
  pcbs := fun _ => none
  numProcesses := maxProcesses
  slotManager := .new maxProcesses
  sem := .new 1
  addrLock := .new 1
  pcb := fun _ => .new 0
  numPcbs := 0
  pc := update (fun _ => .unborn) main (.at (.start 0))
  result := fun _ => 0
  halted := false

/-- `PTable::InitFirstProcess`. -/
def initFirstProcess (s : ProcState T N) (name : N) (main : T) : ProcState T N :=
  { s with
    pcbs := update s.pcbs 0 (some s.numPcbs)
    pcb := update s.pcb s.numPcbs
      { (PCB.new 0 : PCB T N) with pid := 0, file := some name, thread := some main }
    numPcbs := s.numPcbs + 1
    numProcesses := s.numProcesses + 1
    slotManager := s.slotManager.setBit 0 }

/-- `main` has created the first process. -/
def booted (name : N) (main : T) : ProcState T N := (new main).initFirstProcess name main

end ProcState

/-- The processes of the kernel, from the moment `main` has created the first one. -/
def procSystem (T N : Type*) [DecidableEq T] [DecidableEq N] (main : T) :
    LTS (ProcState T N) (ProcAction T N) where
  init := fun s => ∃ name, s = .booted name main
  next := ProcState.next

/-! ### What `P` and `V` do -/

/-- The same place, except that a sleeper may have been made ready. -/
def ProcPc.Moved (q q' : ProcPc N) : Prop :=
  q' = q ∨ ∃ r k b, q = .inP r k b ∧ q' = .inP r k true

namespace ProcState

variable {s s' : ProcState T N} {t : T} {r : SemRef} {k : Point N}

/-- What the operations on semaphores, and everything else that touches neither the table nor
the lifetime of a PCB, leave alone. -/
structure Frame (s s' : ProcState T N) : Prop where
  pcbs : s'.pcbs = s.pcbs
  numPcbs : s'.numPcbs = s.numPcbs
  slotManager : s'.slotManager = s.slotManager
  slot : ∀ c, (s'.pcb c).slot = (s.pcb c).slot
  deleted : ∀ c, (s'.pcb c).deleted = (s.pcb c).deleted

theorem Frame.refl (s : ProcState T N) : Frame s s :=
  ⟨rfl, rfl, rfl, fun _ => rfl, fun _ => rfl⟩

theorem Frame.trans {s'' : ProcState T N} (h : Frame s s') (h' : Frame s' s'') : Frame s s'' :=
  ⟨h'.pcbs.trans h.pcbs, h'.numPcbs.trans h.numPcbs, h'.slotManager.trans h.slotManager,
    fun c => (h'.slot c).trans (h.slot c), fun c => (h'.deleted c).trans (h.deleted c)⟩

theorem Frame.pcbAt (h : Frame s s') (id : Int) : s'.pcbAt id = s.pcbAt id := by
  unfold ProcState.pcbAt
  rw [h.pcbs]

/-- Changing fields of a PCB other than its slot and its lifetime. -/
theorem Frame.setPcb (s : ProcState T N) (c : ℕ) {q : PCB T N} (hslot : q.slot = (s.pcb c).slot)
    (hdel : q.deleted = (s.pcb c).deleted) : Frame s (s.setPcb c q) :=
  ⟨rfl, rfl, rfl, apply_update_of_eq PCB.slot hslot, apply_update_of_eq PCB.deleted hdel⟩

@[simp] theorem setSem_pc (s : ProcState T N) (r : SemRef) (x : Semaphore T) :
    (s.setSem r x).pc = s.pc := by
  cases r <;> rfl

/-- The only way on from a failed `Load` is that the machine halts. -/
theorem loadFailed_eq_next {c : ℕ} (h : s.loadFailed c = .next s') :
    s' = { s with halted := true } := by
  unfold loadFailed at h
  split at h
  · exact (Outcome.next.inj h).symm
  · cases h

/-- A step through an entry of the table finds a PCB there. -/
theorem next_of_pcbAt {id : Int} {f : ℕ → Outcome (ProcState T N)}
    (h : (match s.pcbAt id with | none => Outcome.fault | some d => f d) = .next s') :
    ∃ d, s.pcbAt id = some d ∧ f d = .next s' := by
  split at h
  · cases h
  · rename_i d hd
    exact ⟨d, hd, h⟩

variable [DecidableEq T]

theorem booted_pc (name : N) (main t : T) :
    (booted name main).pc t = if t = main then .at (.start 0) else .unborn := by
  simp only [booted, initFirstProcess, new, update_apply]

theorem booted_pcb (name : N) (main : T) (c : ℕ) : (booted name main).pcb c = if c = 0 then
    { (PCB.new 0 : PCB T N) with pid := 0, file := some name, thread := some main }
    else .new 0 := by
  simp only [booted, initFirstProcess, new, update_apply]

/-- Everything a pass through `P` can do. -/
theorem p_cases (h : s.p t r k = .next s') :
    ∃ x x', s.getSem r = some x ∧
      ((x.value ≠ 0 ∧ x'.value = wrap32 (x.value - 1) ∧ s' = (s.setSem r x').setPc t (.at k)) ∨
       (x.value = 0 ∧ x'.value = 0 ∧ s' = (s.setSem r x').setPc t (.inP r k false))) := by
  unfold p at h
  split at h
  · cases h
  · rename_i x hx
    by_cases h0 : x.value = 0
    · cases hq : append x.queue t with
      | none => simp [Semaphore.pTest, h0, hq] at h
      | some q =>
        simp only [Semaphore.pTest, if_pos h0, hq, Option.map_some] at h
        exact ⟨x, { x with queue := q }, hx, .inr ⟨h0, h0, (Outcome.next.inj h).symm⟩⟩
    · simp only [Semaphore.pTest_ne_zero h0] at h
      exact ⟨x, _, hx, .inl ⟨h0, rfl, (Outcome.next.inj h).symm⟩⟩

/-- Everything a `V` can do. -/
theorem v_cases (h : s.v t r k = .next s') :
    ∃ x x', s.getSem r = some x ∧ x'.value = wrap32 (x.value + 1) ∧
      (s' = (s.setSem r x').setPc t (.at k) ∨
       ∃ w, s' = ((s.setSem r x').wake w).setPc t (.at k)) := by
  unfold v at h
  split at h
  · cases h
  · rename_i x hx
    have hvalue := x.v_value
    split at h
    · rename_i x' hv
      rw [hv] at hvalue
      exact ⟨x, x', hx, hvalue, .inl (Outcome.next.inj h).symm⟩
    · rename_i x' w hv
      rw [hv] at hvalue
      exact ⟨x, x', hx, hvalue, .inr ⟨w, (Outcome.next.inj h).symm⟩⟩

/-- Waking a thread only makes it ready. -/
theorem wake_cases (s : ProcState T N) (w : T) :
    ∃ q, s.wake w = s.setPc w q ∧ (s.pc w).Moved q := by
  unfold wake
  split
  · rename_i r k b hpc
    exact ⟨_, rfl, .inr ⟨r, k, b, hpc, rfl⟩⟩
  · refine ⟨s.pc w, ?_, .inl rfl⟩
    unfold setPc
    rw [update_eq_self]

theorem Frame.setPc (h : Frame s s') (t : T) (q : ProcPc N) : Frame s (s'.setPc t q) :=
  ⟨h.pcbs, h.numPcbs, h.slotManager, h.slot, h.deleted⟩

theorem p_pc (h : s.p t r k = .next s') :
    (s'.pc t = .at k ∨ s'.pc t = .inP r k false) ∧ ∀ u, u ≠ t → s'.pc u = s.pc u := by
  obtain ⟨x, x', -, ⟨-, -, rfl⟩ | ⟨-, -, rfl⟩⟩ := p_cases h
  · exact ⟨.inl (by simp [setPc]), fun u hut => by simp [setPc, hut]⟩
  · exact ⟨.inr (by simp [setPc]), fun u hut => by simp [setPc, hut]⟩

/-- Where a `V` leaves the threads. -/
theorem v_pc (h : s.v t r k = .next s') :
    s'.pc t = .at k ∧ ∀ u, u ≠ t → (s.pc u).Moved (s'.pc u) := by
  obtain ⟨x, x', -, -, rfl | ⟨w, rfl⟩⟩ := v_cases h
  · exact ⟨by simp [setPc], fun u hut => .inl (by simp [setPc, hut])⟩
  · obtain ⟨q, hq, hmoved⟩ := wake_cases (s.setSem r x') w
    rw [hq]
    refine ⟨by simp [setPc], fun u hut => ?_⟩
    by_cases huw : u = w
    · subst huw; simpa [setPc, hut] using hmoved
    · exact .inl (by simp [setPc, hut, huw])

/-! ### The system calls -/

/-- A process removes itself: its bit is cleared and its PCB deleted. -/
theorem remove_cases {cur : Int} (h : s.remove t cur = .next s') :
    ∃ c bm, s.pcbAt cur = some c ∧ s.slotManager.clear cur = some bm ∧
      (s.pcb c).deleted = false ∧ (s.pcb c).thread = some t ∧
      s' = ({ s with slotManager := bm, numProcesses := s.numProcesses - 1 }.setPcb c
        { s.pcb c with deleted := true }).setPc t .unborn := by
  unfold remove at h
  split at h
  · cases h
  · rename_i c hc
    split at h
    · cases h
    · rename_i bm hbm
      split at h
      · rename_i hg
        cases h
        exact ⟨c, bm, hc, hbm, hg.1, hg.2, rfl⟩
      · cases h

/-- `JoinUpdate` returns at once, or it waits for the process's own `mutex`. -/
theorem callJoin_cases {id : Int} (h : s.callJoin t id = .next s') :
    (∃ x, s' = { s with result := update s.result t x }) ∨
    ∃ c me, s.pcbAt id = some c ∧ s.p t (.mutex me) (.incNumWait me (s.getCurrentThreadId t) id
      (if (s.pcb c).deleted then none else some c)) = .next s' := by
  unfold callJoin at h
  simp only at h
  split at h
  · cases h; exact .inl ⟨_, rfl⟩
  · split at h
    · cases h; exact .inl ⟨_, rfl⟩
    · split at h
      · cases h
      · rename_i c hc
        split at h
        · cases h; exact .inl ⟨_, rfl⟩
        · split at h
          · cases h
          · rename_i me hme
            exact .inr ⟨c, me, hc, h⟩

/-- `ExitUpdate` halts the machine, or it records the code and signals `joinsem`. -/
theorem callExit_cases {code : Int} (h : s.callExit t code = .next s') :
    s' = { s with halted := true } ∨
    ∃ c cur, cur ≠ 0 ∧ (s.setPcb c { s.pcb c with exitcode := code, exited := some code }).v t
      (.joinsem c) (.exitWait cur) = .next s' := by
  unfold callExit at h
  simp only at h
  split at h
  · cases h; exact .inl rfl
  · rename_i hcur
    split at h
    · cases h
    · rename_i c hc
      exact .inr ⟨c, _, hcur, h⟩

variable [DecidableEq N]

/-- `ExecUpdate` finds the caller's PCB; it fails without a trace, for a program that runs itself
or a full table, or it creates a PCB in a free entry. -/
theorem execBody_cases {name : N} (h : s.execBody t name = .next s') :
    ∃ me file, s.pcbAt (s.getCurrentThreadId t) = some me ∧ (s.pcb me).deleted = false ∧
      (s.pcb me).file = some file ∧
      ((file = name ∨ ∀ i < maxProcesses, i ∈ s.slotManager.marked) ∧
        { s with result := update s.result t (-1) }.v t .table .user = .next s' ∨
       ∃ slot, slot < maxProcesses ∧ slot ∉ s.slotManager.marked ∧
        (s.create (s.slotManager.setBit slot) slot (s.getCurrentThreadId t)).p t
          (.mutex s.numPcbs) (.fork s.numPcbs slot name) = .next s') := by
  unfold execBody at h
  simp only at h
  split at h
  · cases h
  · rename_i me hme
    split at h
    · rename_i file hdel hfile
      refine ⟨me, file, hme, hdel, hfile, ?_⟩
      split at h
      · rename_i hself
        exact .inl ⟨.inl hself, h⟩
      · rcases s.slotManager.findAndSet_cases with ⟨i, hi, hclear, -, hfind⟩ | ⟨hfull, hfind⟩
        · rw [hfind, if_neg (by simp only; omega)] at h
          exact .inr ⟨i, hi, hclear, h⟩
        · rw [if_pos (by rw [hfind])] at h
          exact .inl ⟨.inr hfull, h⟩
    · cases h

/-- A `Fork` gives the new PCB its thread, at an address that is free. -/
theorem fork_cases {u : T} {c slot : ℕ} {name : N} (h : s.fork t u c slot name = .next s') :
    s.pc u = .unborn ∧ s' = ((s.setPcb c { s.pcb c with
      pid := slot
      file := some name
      thread := some u }).setPc u (.at (.start c))).setPc t (.at (.forked c slot)) := by
  obtain ⟨hu, hs⟩ := Outcome.guard_eq_next.mp h
  exact ⟨hu, (Outcome.next.inj hs).symm⟩

/-- The routine that an action goes on with, and what it did. -/
inductive Takes (s s' : ProcState T N) : ProcAction T N → Prop where
  | callExec {t : T} {name : N} (h : s.p t .table (.execBody name) = .next s') :
      Takes s s' (.callExec t name true)
  | execFailed {t : T} {name : N} (h : s' = { s with result := update s.result t (-1) }) :
      Takes s s' (.callExec t name false)
  | callJoin {t : T} {id : Int} (h : s.callJoin t id = .next s') : Takes s s' (.callJoin t id)
  | callExit {t : T} {code : Int} (h : s.callExit t code = .next s') :
      Takes s s' (.callExit t code)
  | run {t : T} {k : Point N} (hpc : s.pc t = .at k) (h : s.run t k = .next s') :
      Takes s s' (.run t)
  | fork {t u : T} {c slot : ℕ} {name : N} (hpc : s.pc t = .at (.fork c slot name))
      (h : s.fork t u c slot name = .next s') : Takes s s' (.fork t u)
  | openFailed {t : T} {c : ℕ} (hpc : s.pc t = .at (.start c)) (h : s.loadFailed c = .next s') :
      Takes s s' (.openFailed t)
  | load {t : T} {ok : Bool} {c : ℕ} (hpc : s.pc t = .at (.load c))
      (h : s.v t .addrLock (if ok then .user else .loadFailed c) = .next s') :
      Takes s s' (.load t ok)
  | resume {t : T} {r : SemRef} {k : Point N} (hpc : s.pc t = .inP r k true)
      (h : s.p t r k = .next s') : Takes s s' (.resume t)

/-- Every action that is taken goes on with its routine. -/
theorem next_takes {a : ProcAction T N} (h : s.next a = .next s') : Takes s s' a := by
  unfold next at h
  split at h
  · cases h
  · cases a with
    | callExec t name opened =>
      simp only at h
      split at h
      · cases opened with
        | true => exact .callExec h
        | false => cases h; exact .execFailed rfl
      · cases h
    | callJoin t id =>
      simp only at h
      split at h
      · exact .callJoin h
      · cases h
    | callExit t code =>
      simp only at h
      split at h
      · exact .callExit h
      · cases h
    | run t =>
      simp only at h
      split at h
      · rename_i k hpc
        exact .run hpc h
      · cases h
    | fork t u =>
      simp only at h
      split at h
      · rename_i c slot name hpc
        exact .fork hpc h
      · cases h
    | openFailed t =>
      simp only at h
      split at h
      · rename_i c hpc
        exact .openFailed hpc h
      · cases h
    | load t ok =>
      simp only at h
      split at h
      · rename_i c hpc
        exact .load hpc h
      · cases h
    | resume t =>
      simp only at h
      split at h
      · rename_i r k hpc
        exact .resume hpc h
      · cases h

end ProcState

end Nachos.Threads
