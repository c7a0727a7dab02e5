import Nachos.Threads.Processes

namespace Nachos.Threads

open Base Lib Function

/-!
# Threads — `ExecUpdate`

What `PTable::ExecUpdate` promises (`ProcState.ExecSafe`): the id it returns is that of no other
process, the entry of the table at this id is the new PCB, a child of the caller, and a call that
fails has left the table alone and released its semaphore.

The caller is looked up with `GetCurrentThreadId`, which takes the first entry of `pcbs` that
points to the running thread. `Remove` never clears an entry, so this may be the entry of a
removed process whose thread had the same address. `execUpdate_safe_iff` says that nothing else
can go wrong: in every reachable state the promise holds exactly if every thread about to run
`ExecUpdate` is looked up under its own id (`ProcState.CallersKnown`).
-/

variable {T N : Type*} [DecidableEq T] [DecidableEq N]

namespace ProcState

variable {s s' : ProcState T N} {t : T}

/-! ### The promise -/

/-- A call that returns -1: the program runs itself, or the table is full. -/
structure ExecFails (s s' : ProcState T N) (t : T) (name : N) : Prop where
  returned : s'.pc t = .at .user ∧ s'.result t = -1
  pcbs : s'.pcbs = s.pcbs
  slotManager : s'.slotManager = s.slotManager
  cause : (∃ me, s.Owner t me ∧ (s.pcb me).file = some name) ∨
    ∀ i < maxProcesses, i ∈ s.slotManager.marked

/-- A call that goes on with a new PCB, in a free entry, for a child of the caller. -/
structure ExecCreates (s s' : ProcState T N) (t : T) (name : N) (slot : ℕ) : Prop where
  goesOn : s'.pc t = .at (.fork s.numPcbs slot name)
  bounds : 1 ≤ slot ∧ slot < maxProcesses
  free : slot ∉ s.slotManager.marked
  fresh : ∀ d < s.numPcbs, (s.pcb d).deleted = false → (s.pcb d).pid ≠ slot
  pcbs : s'.pcbs = update s.pcbs slot (some s.numPcbs)
  marked : s'.slotManager.marked = insert slot s.slotManager.marked
  parent : ∃ me, s.Owner t me ∧ (s'.pcb s.numPcbs).parentID = (s.pcb me).pid

/-- A call that returns the id `slot`. -/
structure ExecReturns (s' : ProcState T N) (t : T) (slot : ℕ) : Prop where
  returned : s'.pc t = .at .user ∧ s'.result t = slot
  bounds : 1 ≤ slot ∧ slot < maxProcesses
  new : ∃ c me, s'.pcbs slot = some c ∧ (s'.pcb c).pid = slot ∧ s'.Owner t me ∧
    (s'.pcb c).parentID = (s'.pcb me).pid ∧
    ∀ d < s'.numPcbs, (s'.pcb d).deleted = false → d ≠ c → (s'.pcb d).pid ≠ slot

/-- What `ExecUpdate` promises, in one state. -/
structure ExecSafe (s : ProcState T N) : Prop where
  free : (∀ t, (s.pc t).holds .table = false) → s.sem.value = 1
  body : ∀ t name, s.pc t = .at (.execBody name) →
    ∃ s', s.next (.run t) = .next s' ∧
      (s.ExecFails s' t name ∨ ∃ slot, s.ExecCreates s' t name slot)
  done : ∀ t slot, s.pc t = .at (.execDone slot) →
    ∃ s', s.next (.run t) = .next s' ∧ s'.ExecReturns t slot

/-- `GetCurrentThreadId` gives every thread in `ExecUpdate` the id of its own process. -/
def CallersKnown (s : ProcState T N) : Prop :=
  ∀ t name, s.pc t = .at (.execBody name) →
    ∀ me, s.Owner t me → s.getCurrentThreadId t = (s.pcb me).pid

/-! ### What the steps do -/

theorem next_run {k : Point N} (hhalt : s.halted = false) (hpc : s.pc t = .at k) :
    s.next (.run t) = s.run t k := by
  simp [next, hhalt, hpc]

omit [DecidableEq N] in
/-- A `V` on a lock always goes on. -/
theorem v_lock_next (s : ProcState T N) (t : T) (l : KernelLock) (k : Point N) :
    ∃ s', s.v t l.ref k = .next s' := by
  unfold v
  rw [getSem_ref]
  simp only
  split
  · exact ⟨_, rfl⟩
  · exact ⟨_, rfl⟩

omit [DecidableEq N] in
/-- A `V` touches neither the results of system calls nor the power switch. -/
theorem v_result {r : SemRef} {k : Point N} (h : s.v t r k = .next s') :
    s'.result = s.result ∧ s'.halted = s.halted := by
  refine v_induct (Q := fun s' => s'.result = s.result ∧ s'.halted = s.halted) h
    (fun x => ?_) fun _ _ h => h
  cases r <;> exact ⟨rfl, rfl⟩

omit [DecidableEq N] in
/-- A `P` on a semaphore whose value is not 0 goes on at once. -/
theorem p_next_of_ne_zero {r : SemRef} {x : Semaphore T} (hx : s.getSem r = some x)
    (hne : x.value ≠ 0) (t : T) (k : Point N) :
    ∃ s', s.p t r k = .next s' ∧ s'.pc t = .at k ∧ s'.halted = s.halted := by
  unfold p
  rw [hx]
  simp only [Semaphore.pTest_ne_zero hne]
  refine ⟨_, rfl, by simp [setPc], ?_⟩
  cases r <;> rfl

omit [DecidableEq T] [DecidableEq N] in
/-- The `mutex` of a new PCB is free. -/
theorem getSem_create (s : ProcState T N) (bm : Bitmap maxProcesses) (slot : ℕ) (cur : Int) :
    (s.create bm slot cur).getSem (.mutex s.numPcbs) = some (.new 1) := by
  simp [getSem, create, PCB.new]

omit [DecidableEq N] in
theorem execFails_of_v {me : ℕ} (name : N) (hme : s.Owner t me)
    (hcause : (s.pcb me).file = some name ∨ ∀ i < maxProcesses, i ∈ s.slotManager.marked) :
    ∃ s', { s with result := update s.result t (-1) }.v t .table .user = .next s' ∧
      s.ExecFails s' t name := by
  obtain ⟨s', hv⟩ := v_lock_next { s with result := update s.result t (-1) } t .table .user
  refine ⟨s', hv, ⟨(v_pc hv).1, ?_⟩, (v_keeps hv).pcbs, (v_keeps hv).slotManager, ?_⟩
  · rw [(v_result hv).1]
    exact update_self t (-1) s.result
  · rcases hcause with hfile | hfull
    · exact .inl ⟨me, hme, hfile⟩
    · exact .inr hfull

omit [DecidableEq N] in
theorem execCreates_of_p (h : s.ProcInv) (ht : s.TableInv) {me slot : ℕ} {name : N} {cur : Int}
    (hme : s.Owner t me) (hpid : (s.pcb me).pid = cur) (hlt : slot < maxProcesses)
    (hclear : slot ∉ s.slotManager.marked) :
    ∃ s', (s.create (s.slotManager.setBit slot) slot cur).p t (.mutex s.numPcbs)
        (.fork s.numPcbs slot name) = .next s' ∧ s.ExecCreates s' t name slot := by
  obtain ⟨s', hp, hat, -⟩ :=
    p_next_of_ne_zero (getSem_create s (s.slotManager.setBit slot) slot cur)
    (by simp [Semaphore.new]) t (.fork s.numPcbs slot name)
  have hkeeps := p_keeps hp
  refine ⟨s', hp, hat, ⟨?_, hlt⟩, hclear, fun d hd hdel hdpid => ?_, hkeeps.pcbs, ?_, me, hme, ?_⟩
  · -- Entry 0 is taken.
    rcases Nat.eq_zero_or_pos slot with rfl | hpos
    · exact absurd (h.mem_marked_zero ht) hclear
    · exact hpos
  · -- A process with this id would have its bit set.
    exact hclear ((ht.mem_marked slot).mpr ⟨d, h.pcbs_of_pid ht hd hdel hdpid, hdel⟩)
  · rw [hkeeps.slotManager]
    exact Bitmap.marked_setBit _ hlt
  · rw [hkeeps.parentID, hpid]
    simp [create]

/-- What `ExecUpdate` does for a caller that is found under its own id. -/
theorem execBody_of_known (h : s.ProcInv) (ht : s.TableInv) {me : ℕ} (name : N)
    (hme : s.Owner t me) (hknown : s.getCurrentThreadId t = (s.pcb me).pid) :
    (((s.pcb me).file = some name ∨ ∀ i < maxProcesses, i ∈ s.slotManager.marked) ∧
      s.execBody t name
        = { s with result := update s.result t (-1) }.v t .table .user) ∨
    ∃ slot, slot < maxProcesses ∧ slot ∉ s.slotManager.marked ∧ (s.pcb me).file ≠ some name ∧
      s.execBody t name = (s.create (s.slotManager.setBit slot) slot (s.getCurrentThreadId t)).p t
        (.mutex s.numPcbs) (.fork s.numPcbs slot name) := by
  have hentry : s.pcbAt (s.getCurrentThreadId t) = some me := by
    rw [hknown]
    exact hme.pcbAt_pid h ht
  obtain ⟨file, hfile⟩ : ∃ file, (s.pcb me).file = some file :=
    Option.ne_none_iff_exists'.mp ((h.filled me hme.lt).started (by rw [hme.thread]; simp)).1
  unfold execBody
  simp only [hentry, hme.deleted, hfile, Option.some.injEq]
  by_cases hself : file = name
  · exact .inl ⟨.inl hself, if_pos hself⟩
  · rw [if_neg hself]
    rcases s.slotManager.findAndSet_cases with ⟨i, hi, hclear, -, hfind⟩ | ⟨hfull, hfind⟩
    · refine .inr ⟨i, hi, hclear, by simpa using hself, ?_⟩
      rw [hfind, if_neg (by simp only; omega)]
      rfl
    · exact .inl ⟨.inr hfull, if_pos (by rw [hfind])⟩

/-- A caller that is found under its own id gets what `ExecUpdate` promises. -/
theorem execBody_keeps_promise (h : s.ProcInv) (ht : s.TableInv) {me : ℕ} (name : N)
    (hme : s.Owner t me) (hknown : s.getCurrentThreadId t = (s.pcb me).pid) :
    ∃ s', s.execBody t name = .next s' ∧
      (s.ExecFails s' t name ∨ ∃ slot, s.ExecCreates s' t name slot) := by
  rcases execBody_of_known h ht name hme hknown with ⟨hcause, heq⟩ | ⟨slot, hlt, hclear, -, heq⟩
  · rw [heq]
    obtain ⟨s', hv, hfails⟩ := execFails_of_v name hme hcause
    exact ⟨s', hv, .inl hfails⟩
  · rw [heq]
    obtain ⟨s', hp, hcreates⟩ := execCreates_of_p h ht hme hknown.symm hlt hclear
    exact ⟨s', hp, .inr ⟨slot, hcreates⟩⟩

/-- The id that is returned is that of the new process alone. -/
theorem execDone_returns (h : s.ProcInv) (ht : s.TableInv) {slot : ℕ}
    (hpc : s.pc t = .at (.execDone slot)) :
    ∃ s', s.run t (.execDone slot) = .next s' ∧ s'.ExecReturns t slot := by
  obtain ⟨c, hcreated, hpid⟩ : s.PointOk t (.execDone slot) := h.point t _ (by rw [hpc]; rfl)
  obtain ⟨me, hme, hparent⟩ := hcreated.parent
  obtain ⟨s', hv⟩ := v_lock_next { s with
    numProcesses := s.numProcesses + 1
    result := update s.result t slot } t .table .user
  have hkeeps := execDone_keeps hv
  refine ⟨s', hv, ⟨(v_pc hv).1, ?_⟩, ⟨?_, (ht.slot_eq slot c hcreated.pcbs).1⟩, c, me, ?_, ?_,
    hkeeps.owner.mpr hme, ?_, fun d hd hdel hdc => ?_⟩
  · rw [(v_result hv).1]
    exact update_self t (slot : Int) s.result
  · exact Nat.one_le_iff_ne_zero.mpr hcreated.slot_ne
  · rw [hkeeps.pcbs]
    exact hcreated.pcbs
  · rw [hkeeps.pid]
    exact hpid
  · rw [hkeeps.parentID, hkeeps.pid]
    exact hparent
  · rw [hkeeps.numPcbs] at hd
    rw [hkeeps.deleted] at hdel
    rw [hkeeps.pid]
    intro hdpid
    have hentry := h.pcbs_of_pid ht hd hdel hdpid
    rw [hcreated.pcbs] at hentry
    exact hdc (Option.some.inj hentry).symm

end ProcState

open ProcState in
/-- **`ExecUpdate` keeps its promise exactly where its callers are known**: in every reachable
state of a running machine, for any interleaving of the system calls. -/
theorem execUpdate_safe_iff (main : T) (s : ProcState T N)
    (h : (procSystem T N main).Reachable s) (hhalt : s.halted = false) :
    s.ExecSafe ↔ s.CallersKnown := by
  have hinv := process_inv h
  have ht := ptable_inv h
  constructor
  · intro hsafe t name hpc me hme
    obtain ⟨s', hs, -⟩ := hsafe.body t name hpc
    rw [next_run hhalt hpc] at hs
    obtain ⟨me', -, hentry, hdel, -, -⟩ := execBody_cases hs
    obtain ⟨hme', hpid⟩ := owner_of_pcbAt hinv ht hentry hdel
    rw [hinv.unique t me me' hme hme', hpid]
  · intro hknown
    refine ⟨fun hfree => ?_, fun t name hpc => ?_, fun t slot hpc => ?_⟩
    · rcases (kernelLock_inv h .table).token with ⟨hone, -⟩ | ⟨-, t, ht, -⟩
      · exact hone
      · rw [hfree t] at ht
        cases ht
    · obtain ⟨me, hme⟩ := hinv.owned t (by rw [hpc]; simp)
      obtain ⟨s', hs, hdone⟩ :=
        execBody_keeps_promise hinv ht name hme (hknown t name hpc me hme)
      exact ⟨s', by rw [next_run hhalt hpc]; exact hs, hdone⟩
    · obtain ⟨s', hs, hdone⟩ := execDone_returns hinv ht hpc
      exact ⟨s', by rw [next_run hhalt hpc]; exact hs, hdone⟩

/-- The first process is inside `ExecUpdate`. -/
theorem execUpdate_safe_first :
    ∃ s : ProcState (Fin 2) Bool, (procSystem (Fin 2) Bool 0).Reachable s ∧ s.halted = false ∧
      s.pc 0 = .at (.execBody true) ∧ s.ExecSafe := by
  obtain ⟨s, hs, hhalt, hnum, hpc, hunborn, hid⟩ :=
    (procSystem (Fin 2) Bool 0).reaches ⟨false, rfl⟩ (joinRun.take 3)
      (fun s => s.halted = false ∧ s.numPcbs = 1 ∧ s.pc 0 = .at (.execBody true) ∧
        s.pc 1 = .unborn ∧ s.getCurrentThreadId 0 = (s.pcb 0).pid) (by decide +kernel)
  refine ⟨s, hs, hhalt, hpc, (execUpdate_safe_iff 0 s hs hhalt).mpr fun t name ht me hme => ?_⟩
  obtain rfl : me = 0 := by
    have := hme.lt
    omega
  rcases (by omega : t = 0 ∨ t = 1) with rfl | rfl
  · exact hid
  · rw [hunborn] at ht
    cases ht

/-- The first process starts a child, which exits and is joined but not yet scheduled again, and
is about to start a second child when the first one removes itself. The second child gets
the address of the first one's thread and calls `Exec`. -/
def recycledRun : List (ProcAction ℕ Bool) :=
  [.run 0, .load 0 true,
   .callExec 0 true true, .run 0, .fork 0 1, .run 0, .run 0, .run 1, .load 1 true,
   .callExit 1 0, .run 1,
   .callJoin 0 1, .run 0, .run 0, .run 0, .run 0, .run 0, .run 0,
   .callExec 0 true true, .run 0,
   .resume 1, .run 1,
   .fork 0 1, .run 0, .run 0, .run 1, .load 1 true,
   .callExec 1 false true]

/-- The process with the id 2 is taken for the removed process 1, and `ExecUpdate` reads the name
of a program that has been deleted. -/
theorem execUpdate_unknown_caller :
    ∃ s : ProcState ℕ Bool, (procSystem ℕ Bool 0).Reachable s ∧ s.halted = false ∧
      s.Owner 1 2 ∧ (s.pcb 2).pid = 2 ∧ s.getCurrentThreadId 1 = 1 ∧ ¬ s.ExecSafe := by
  obtain ⟨s, hs, hhalt, hnum, hdel, hthread, hpid, hid, hpc, hentry, hgone⟩ :=
    (procSystem ℕ Bool 0).reaches ⟨false, rfl⟩ recycledRun
      (fun s => s.halted = false ∧ s.numPcbs = 3 ∧ (s.pcb 2).deleted = false ∧
        (s.pcb 2).thread = some 1 ∧ (s.pcb 2).pid = 2 ∧ s.getCurrentThreadId 1 = 1 ∧
        s.pc 1 = .at (.execBody false) ∧ s.pcbAt 1 = some 1 ∧ (s.pcb 1).deleted = true)
      (by decide +kernel)
  refine ⟨s, hs, hhalt, ⟨by omega, hdel, hthread⟩, hpid, hid, fun hsafe => ?_⟩
  obtain ⟨s', hnext, -⟩ := hsafe.body 1 false hpc
  rw [ProcState.next_run hhalt hpc] at hnext
  obtain ⟨me, -, hme, hlive, -, -⟩ := ProcState.execBody_cases hnext
  rw [hid, hentry] at hme
  cases hme
  rw [hgone] at hlive
  cases hlive

end Nachos.Threads
