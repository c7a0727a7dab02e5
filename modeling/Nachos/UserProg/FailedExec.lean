import Mathlib.Data.Fintype.EquivFin
import Nachos.Threads.ExecUpdate
import Nachos.UserProg.Reclaim

namespace Nachos.UserProg

open Base Lib Machine Threads

/-!
# UserProg — `Exec` of a program that cannot be loaded

`SysExec` only checks that the file exists. Whether the program can be loaded turns out later,
in the thread of the new process: `AddrSpace::Load` asserts that the file is a NOFF file and
returns `FALSE` when there are not enough frames, and `StartProcess` runs into
`ASSERTNOTREACHED` then.

* `SysState.ExecFailsCleanly` — what such an `Exec` should do: return -1, or have the new process
  removed when its `Load` fails, with nothing else changed;
* `SysState.not_givesUp` — a process other than the first never gets out of a failed `Load`;
* `SysState.start_reaches_load` — and nothing keeps it from getting into it;
* `exec_fails_cleanly_iff` — so the call fails cleanly exactly if no process is created.
-/

variable {T N : Type*} [DecidableEq T] [DecidableEq N]

/-- The file is not a NOFF file, or the program needs more frames than are free. -/
def CannotLoad (file : HostFile) (junk : ℕ → UInt8) (phys : PhysMem) : Prop :=
  (file.noffHeader junk).noffMagic ≠ noffMagicNumber ∨
    phys.gPhysPageBitMap.numClear < (file.noffHeader junk).numPages

/-- Memory only gets scarcer. -/
theorem CannotLoad.mono {file : HostFile} {junk : ℕ → UInt8} {phys phys' : PhysMem}
    (h : CannotLoad file junk phys)
    (hle : phys'.gPhysPageBitMap.numClear ≤ phys.gPhysPageBitMap.numClear) :
    CannotLoad file junk phys' :=
  h.imp_right hle.trans_lt

/-- If `Load` returns at all, it returns `FALSE`. -/
theorem CannotLoad.load_eq_false {file : HostFile} {junk : ℕ → UInt8} {phys phys' : PhysMem}
    {ok : Bool} {a : AddrSpace} (h : CannotLoad file junk phys)
    (hload : AddrSpace.load (some file) junk phys = some (ok, a, phys')) : ok = false := by
  have hprogram : AddrSpace.loadProgram (file.noffHeader junk) file phys = some (ok, a, phys') :=
    hload
  obtain ⟨hmagic, ⟨hok, -⟩ | ⟨-, hclear, -⟩⟩ := AddrSpace.loadProgram_cases hprogram
  · exact hok
  · rcases h with hne | hlt
    · exact absurd hmagic hne
    · omega

namespace SysState

variable {s s' : SysState T N}

/-! ### What a failing `Exec` should do -/

/-- `Exec` has returned -1 to the thread `t`, and nothing else has changed. -/
structure ExecRefused (s s' : SysState T N) (t : T) : Prop where
  returned : s'.proc.pc t = .at .user ∧ s'.proc.result t = -1
  processes : ProcState.Keeps s.proc s'.proc
  threads : ∀ u, u ≠ t → (s.proc.pc u).Moved (s'.proc.pc u)
  memory : s'.phys = s.phys ∧ s'.space = s.space

/-- A process that is about to load the file gets out of `Load` without a failed assertion and is
then removed; its entry is free, no frame is taken and the other processes are still there. -/
def GivesUp (s : SysState T N) (c : ℕ) (file : HostFile) (junk : ℕ → UInt8) : Prop :=
  ∀ u, s.proc.pc u = .at (.load c) →
    ∃ s₁ s₂, s.next (.load u file junk) = .next s₁ ∧ s₁.next (.proc (.run u)) = .next s₂ ∧
      (s₂.proc.pcb c).deleted = true ∧ (s.proc.pcb c).slot ∉ s₂.proc.slotManager.marked ∧
      s₂.phys.gPhysPageBitMap.marked = s.phys.gPhysPageBitMap.marked ∧
      ∀ d, d ≠ c → (s₂.proc.pcb d).deleted = (s.proc.pcb d).deleted ∧
        (s₂.proc.pcb d).identity = (s.proc.pcb d).identity

/-- The `Exec` that `t` is in, of a file that cannot be loaded, returns -1; or the process it
creates gives up in every continuation of the run. -/
def ExecFailsCleanly (main : T) (s : SysState T N) (t : T) (file : HostFile)
    (junk : ℕ → UInt8) : Prop :=
  ∃ s₁, s.next (.proc (.run t)) = .next s₁ ∧
    (s.ExecRefused s₁ t ∨
      ∀ ls s₂, (sysSystem T N main).Run s₁ ls s₂ → CannotLoad file junk s₂.phys →
        s₂.GivesUp s.proc.numPcbs file junk)

/-! ### What it does -/

/-- A process other than the first never gets out of a failed `Load`: the magic number is
asserted, and after a `FALSE` comes `ASSERTNOTREACHED`. -/
theorem not_givesUp {u : T} {c : ℕ} {file : HostFile} {junk : ℕ → UInt8} (hc : c ≠ 0)
    (hu : s.proc.pc u = .at (.load c)) (hfail : CannotLoad file junk s.phys) :
    ¬ s.GivesUp c file junk := by
  intro h
  obtain ⟨s₁, s₂, hload, hrun, -⟩ := h u hu
  rcases next_cases hload with ⟨b, hb, -⟩ | ⟨u', file', junk', d, ok, sp, heq, hd, hl, hproc, -⟩
  · cases hb
  · cases heq
    cases hu.symm.trans hd
    obtain rfl := hfail.load_eq_false hl
    -- `Load` has returned `FALSE`.
    have hat : s₁.proc.pc u = .at (.loadFailed c) := by
      cases ProcState.next_takes hproc with
      | load hpc hv =>
        cases hu.symm.trans hpc
        exact (ProcState.v_pc hv).1
    rcases next_cases hrun with ⟨b, hb, hnext, -⟩ | ⟨u', file', junk', d, ok, sp, heq, -⟩
    · cases hb
      cases ProcState.next_takes hnext with
      | run hpc hr =>
        cases hat.symm.trans hpc
        simp [ProcState.run, ProcState.loadFailed, hc] at hr
    · cases heq

end SysState

omit [DecidableEq N] in
/-- There is always a free address for a new thread: every thread has its own PCB. -/
theorem exists_unborn [Infinite T] {s : ProcState T N} (h : s.OwnerInv) (main : T) :
    ∃ u, s.pc u = .unborn := by
  obtain ⟨u, hu⟩ := Infinite.exists_notMem_finset
    ((Finset.range s.numPcbs).image fun c => (s.pcb c).thread.getD main)
  refine ⟨u, ?_⟩
  by_contra hborn
  obtain ⟨me, hme⟩ := h.owned u hborn
  apply hu
  rw [Finset.mem_image]
  refine ⟨me, Finset.mem_range.mpr hme.lt, ?_⟩
  rw [hme.thread]
  rfl

namespace SysState

variable {s s' : SysState T N}

/-- A step of the processes that does not load a program. -/
theorem next_proc_run {t : T} {q : ProcState T N} (h : s.proc.next (.run t) = .next q) :
    s.next (.proc (.run t)) = .next { s with proc := q } := by
  show (s.proc.next (.run t)).map _ = _
  rw [h]
  rfl

omit [DecidableEq T] [DecidableEq N] in
/-- Who is inside `addrLock` is about to load its program. -/
theorem exists_load_of_holds {q : ProcState T N} (h : q.LockInv .addrLock) {w : T}
    (hw : (q.pc w).holds .addrLock = true) : ∃ d, q.pc w = .at (.load d) := by
  cases hq : q.pc w with
  | unborn => rw [hq] at hw; cases hw
  | «at» k =>
    rw [hq] at hw
    cases k <;> first | exact ⟨_, rfl⟩ | cases hw
  | inP r k b =>
    -- The way to `Load` leads through the `P` of `addrLock` only.
    rw [hq] at hw
    have hk : k.entry .addrLock = true := by
      cases k <;> simp_all [ProcPc.holds, Point.holds, Point.entry]
    have hr := (h.waits w r k b hq).mpr hk
    simp [ProcPc.holds, hr] at hw

/-- A thread inside `addrLock` can load a small program and leave it. -/
theorem load_releases {w : T} {d : ℕ} (hhalt : s.proc.halted = false)
    (hw : s.proc.pc w = .at (.load d)) (hlock : s.proc.addrLock.value = 0) :
    ∃ s', s.next (.load w emptyProgram fun _ => 0) = .next s' ∧ s'.proc.halted = false ∧
      s'.proc.addrLock.value = 1 ∧ (∀ u, u ≠ w → (s.proc.pc u).Moved (s'.proc.pc u)) ∧
      s'.phys.gPhysPageBitMap.numClear ≤ s.phys.gPhysPageBitMap.numClear := by
  obtain ⟨ok, sp, phys, hload, -⟩ := AddrSpace.load_of_wellFormed emptyProgram_wellFormed.1 s.phys
  obtain ⟨q, hv⟩ := ProcState.v_lock_next s.proc w .addrLock (if ok then .user else .loadFailed d)
  have hproc : s.proc.next (.load w ok) = .next q := by
    simp only [ProcState.next, hhalt, hw]
    exact hv
  refine ⟨⟨q, phys, Function.update s.space d sp⟩, ?_, ?_, ?_, (ProcState.v_pc hv).2, ?_⟩
  · simp only [next, hw, hload, loaded, hproc]
    rfl
  · rw [← hhalt]
    exact (ProcState.v_result hv).2
  · have hvalue := ProcState.v_lock hv .addrLock
    rw [if_pos rfl] at hvalue
    show (q.lock .addrLock).value = 1
    rw [hvalue]
    show wrap32 (s.proc.addrLock.value + 1) = 1
    rw [hlock]
    rfl
  · -- A program that is loaded takes frames away.
    have hle : s.phys.gPhysPageBitMap.marked.card ≤ phys.gPhysPageBitMap.marked.card := by
      apply Finset.card_le_card
      rcases AddrSpace.load_cases hload with ⟨-, -, hphys⟩ | ⟨-, l, -, -, -, hmarked⟩
      · rw [hphys]
      · rw [hmarked]
        exact Finset.subset_union_left
    have h1 := Bitmap.numClear_add_card s.phys.gPhysPageBitMap
    have h2 := Bitmap.numClear_add_card phys.gPhysPageBitMap
    show phys.gPhysPageBitMap.numClear ≤ _
    omega

/-- A thread at its start takes `addrLock` when it is free. -/
theorem start_takes_lock {u : T} {c : ℕ} (hhalt : s.proc.halted = false)
    (hu : s.proc.pc u = .at (.start c)) (hlock : s.proc.addrLock.value = 1) :
    ∃ s', s.next (.proc (.run u)) = .next s' ∧ s'.proc.pc u = .at (.load c) ∧
      s'.phys = s.phys := by
  obtain ⟨q, hp, hat, -⟩ := ProcState.p_next_of_ne_zero (s := s.proc) (r := .addrLock) rfl
    (by rw [hlock]; decide) u (.load c)
  have hrun : s.proc.next (.run u) = .next q := by
    rw [ProcState.next_run hhalt hu]
    exact hp
  exact ⟨{ s with proc := q }, next_proc_run hrun, hat, rfl⟩

/-- **Nothing keeps a new process from its `Load`**: whoever has `addrLock` can leave it. -/
theorem start_reaches_load {main : T} (h : (sysSystem T N main).Reachable s)
    (hhalt : s.proc.halted = false) {u : T} {c : ℕ} (hu : s.proc.pc u = .at (.start c)) :
    ∃ ls s', (sysSystem T N main).Run s ls s' ∧ s'.proc.pc u = .at (.load c) ∧
      s'.phys.gPhysPageBitMap.numClear ≤ s.phys.gPhysPageBitMap.numClear := by
  have hinv := kernelLock_inv (reachable_proc h) .addrLock
  rcases hinv.token with ⟨hone, -⟩ | ⟨hzero, w, hw, -⟩
  · obtain ⟨s₁, hrun, hat, hphys⟩ := start_takes_lock hhalt hu hone
    refine ⟨[.proc (.run u)], s₁, .snoc .nil hrun, hat, ?_⟩
    rw [hphys]
  · -- The thread inside the lock loads its program first.
    obtain ⟨d, hd⟩ := exists_load_of_holds hinv hw
    obtain ⟨s₁, hload, hhalt₁, hone, hother, hle⟩ := load_releases hhalt hd hzero
    have huw : u ≠ w := by
      rintro rfl
      rw [hu] at hd
      cases hd
    have hu₁ : s₁.proc.pc u = .at (.start c) := by
      rcases hother u huw with heq | ⟨r, k, b, hold, -⟩
      · rw [heq, hu]
      · rw [hu] at hold
        cases hold
    obtain ⟨s₂, hrun, hat, hphys⟩ := start_takes_lock hhalt₁ hu₁ hone
    refine ⟨[.load w emptyProgram fun _ => 0, .proc (.run u)], s₂,
      .snoc (.snoc .nil hload) hrun, hat, ?_⟩
    rw [hphys]
    exact hle

/-- A process that `Exec` creates can get to its `Load`. -/
theorem create_reaches_load [Infinite T] {main : T} (h : (sysSystem T N main).Reachable s)
    (hhalt : s.proc.halted = false) {t : T} {c slot : ℕ} {name : N}
    (ht : s.proc.pc t = .at (.fork c slot name)) :
    ∃ ls s' u, (sysSystem T N main).Run s ls s' ∧ s'.proc.pc u = .at (.load c) ∧
      s'.phys.gPhysPageBitMap.numClear ≤ s.phys.gPhysPageBitMap.numClear := by
  obtain ⟨u, hu⟩ := exists_unborn (process_inv (reachable_proc h)).toOwnerInv main
  obtain ⟨q, hfork⟩ : ∃ q, s.proc.fork t u c slot name = .next q := by
    unfold ProcState.fork
    rw [if_pos hu]
    exact ⟨_, rfl⟩
  have hnext : s.next (.proc (.fork t u)) = .next { s with proc := q } := by
    simp only [next, ProcState.next, hhalt, ht, hfork]
    rfl
  have hstart : q.pc u = .at (.start c) :=
    (ProcState.fork_pc (by rw [ht]; simp) hfork).2.1
  have hhalt' : q.halted = false := by
    obtain ⟨-, rfl⟩ := ProcState.fork_cases hfork
    exact hhalt
  have hreach : (sysSystem T N main).Reachable { s with proc := q } :=
    h.step (l := .proc (.fork t u)) hnext
  obtain ⟨ls, s', hrun, hat, hle⟩ := start_reaches_load hreach hhalt' hstart
  exact ⟨[.proc (.fork t u)] ++ ls, s', u, (LTS.Run.snoc .nil hnext).append hrun, hat, hle⟩

/-- `ExecUpdate` leaves the memory alone. -/
theorem execBody_of_next {t : T} {name : N} (hhalt : s.proc.halted = false)
    (hpc : s.proc.pc t = .at (.execBody name)) (hs : s.next (.proc (.run t)) = .next s') :
    s.proc.execBody t name = .next s'.proc ∧ s'.phys = s.phys := by
  rcases next_cases hs with ⟨b, hb, hnext, hphys, -⟩ | ⟨_, _, _, _, _, _, heq, -⟩
  · cases hb
    exact ⟨(ProcState.next_run hhalt hpc).symm.trans hnext, hphys⟩
  · cases heq

/-- An `Exec` that creates a process does not fail cleanly. -/
theorem not_failsCleanly [Infinite T] {main : T} (h : (sysSystem T N main).Reachable s)
    (hhalt : s.proc.halted = false) {t : T} {name : N} (hpc : s.proc.pc t = .at (.execBody name))
    {me : ℕ} (hme : s.proc.Owner t me) (hid : s.proc.getCurrentThreadId t = (s.proc.pcb me).pid)
    (hother : (s.proc.pcb me).file ≠ some name)
    (hfree : ∃ i < maxProcesses, i ∉ s.proc.slotManager.marked) {file : HostFile}
    {junk : ℕ → UInt8} (hfail : CannotLoad file junk s.phys) :
    ¬ s.ExecFailsCleanly main t file junk := by
  have hinv := process_inv (reachable_proc h)
  rintro ⟨s₁, hs, hclean⟩
  obtain ⟨hbody, hphys⟩ := execBody_of_next hhalt hpc hs
  rcases ProcState.execBody_of_known hinv (ptable_inv (reachable_proc h)) name hme hid with
    ⟨hcause, -⟩ | ⟨slot, -, -, -, heq⟩
  · obtain ⟨i, hi, hclear⟩ := hfree
    rcases hcause with hself | hfull
    · exact hother hself
    · exact hclear (hfull i hi)
  · obtain ⟨q, hp, hat, hhalt'⟩ := ProcState.p_next_of_ne_zero
      (ProcState.getSem_create s.proc _ slot _) (by simp [Semaphore.new]) t
      (.fork s.proc.numPcbs slot name)
    obtain rfl : s₁.proc = q := Outcome.next.inj (hbody.symm.trans (heq.trans hp))
    rcases hclean with hrefused | hgivesUp
    · cases hat.symm.trans hrefused.returned.1
    · -- The new process gets to its `Load` and does not get out of it.
      have hreach : (sysSystem T N main).Reachable s₁ := h.step (l := .proc (.run t)) hs
      obtain ⟨ls, s₂, u, hrun, hu, hle⟩ := create_reaches_load hreach (hhalt'.trans hhalt) hat
      rw [hphys] at hle
      have hfail₂ := hfail.mono hle
      exact not_givesUp hinv.first.1.ne' hu hfail₂ (hgivesUp ls s₂ hrun hfail₂)

/-- An `Exec` that is refused fails cleanly. -/
theorem failsCleanly_of_refused {main : T} (h : (sysSystem T N main).Reachable s)
    (hhalt : s.proc.halted = false) {t : T} {name : N} (hpc : s.proc.pc t = .at (.execBody name))
    {me : ℕ} (hme : s.proc.Owner t me) (hid : s.proc.getCurrentThreadId t = (s.proc.pcb me).pid)
    (hcause : (s.proc.pcb me).file = some name ∨
      ∀ i < maxProcesses, i ∈ s.proc.slotManager.marked) (file : HostFile) (junk : ℕ → UInt8) :
    s.ExecFailsCleanly main t file junk := by
  obtain ⟨q, hv, hfails⟩ := ProcState.execFails_of_v name hme hcause
  have heq : s.proc.execBody t name = .next q := by
    rcases ProcState.execBody_of_known (process_inv (reachable_proc h))
      (ptable_inv (reachable_proc h)) name hme hid with ⟨-, heq⟩ | ⟨slot, hlt, hclear, hother, -⟩
    · exact heq.trans hv
    · rcases hcause with hself | hfull
      · exact absurd hself hother
      · exact absurd (hfull slot hlt) hclear
  refine ⟨{ s with proc := q }, next_proc_run ((ProcState.next_run hhalt hpc).trans heq), .inl ?_⟩
  exact ⟨hfails.returned, (ProcState.Prep.result _ t _).toKeeps.trans (ProcState.v_keeps hv),
    (ProcState.v_pc hv).2, rfl, rfl⟩

end SysState

/-- **A failing `Exec` is harmless exactly if it creates no process.** In every reachable state of
a running machine in which a thread is in `ExecUpdate` with a file that cannot be loaded, the
call fails cleanly if and only if the caller is found under its own id and is refused, because
it runs the same program or because the table is full. -/
theorem exec_fails_cleanly_iff [Infinite T] (main : T) (s : SysState T N)
    (h : (sysSystem T N main).Reachable s) (hhalt : s.proc.halted = false) (t : T) (name : N)
    (hpc : s.proc.pc t = .at (.execBody name)) (file : HostFile) (junk : ℕ → UInt8)
    (hfail : CannotLoad file junk s.phys) :
    s.ExecFailsCleanly main t file junk ↔
      ∃ me, s.proc.Owner t me ∧ s.proc.getCurrentThreadId t = (s.proc.pcb me).pid ∧
        ((s.proc.pcb me).file = some name ∨
          ∀ i < maxProcesses, i ∈ s.proc.slotManager.marked) := by
  constructor
  · intro hclean
    have ⟨s₁, hs, _⟩ := hclean
    obtain ⟨me, -, hentry, hdel, -, -⟩ :=
      ProcState.execBody_cases (SysState.execBody_of_next hhalt hpc hs).1
    obtain ⟨hme, hpid⟩ := ProcState.owner_of_pcbAt (process_inv (reachable_proc h))
      (ptable_inv (reachable_proc h)) hentry hdel
    refine ⟨me, hme, hpid.symm, ?_⟩
    by_contra hno
    push Not at hno
    exact SysState.not_failsCleanly h hhalt hpc hme hpid.symm hno.1 hno.2 hfail hclean
  · rintro ⟨me, hme, hid, hcause⟩
    exact SysState.failsCleanly_of_refused h hhalt hpc hme hid hcause file junk

/-- The first process, after it has loaded its program, calls `Exec`. -/
def execRun (name : Bool) : List (SysAction ℕ Bool) :=
  [.proc (.run 0), .load 0 emptyProgram fun _ => 0, .proc (.callExec 0 name true)]

/-- The state that the first process calls `Exec` in. -/
theorem reachable_execRun (name : Bool) :
    ∃ s : SysState ℕ Bool, (sysSystem ℕ Bool 0).Reachable s ∧ s.proc.halted = false ∧
      s.proc.pc 0 = .at (.execBody name) ∧ s.proc.Owner 0 0 ∧
      s.proc.getCurrentThreadId 0 = (s.proc.pcb 0).pid ∧ (s.proc.pcb 0).file = some false ∧
      1 ∉ s.proc.slotManager.marked := by
  obtain ⟨s, hs, hhalt, hpc, hnum, hdel, hthread, hid, hfile, hclear⟩ :=
    (sysSystem ℕ Bool 0).reaches (sysSystem_init 0) (execRun name)
      (fun s => s.proc.halted = false ∧ s.proc.pc 0 = .at (.execBody name) ∧
        s.proc.numPcbs = 1 ∧ (s.proc.pcb 0).deleted = false ∧ (s.proc.pcb 0).thread = some 0 ∧
        s.proc.getCurrentThreadId 0 = (s.proc.pcb 0).pid ∧ (s.proc.pcb 0).file = some false ∧
        1 ∉ s.proc.slotManager.marked) (by cases name <;> decide +kernel)
  exact ⟨s, hs, hhalt, hpc, ⟨by omega, hdel, hthread⟩, hid, hfile, hclear⟩

theorem cannotLoad_nil (phys : PhysMem) : CannotLoad [] (fun _ => 0) phys :=
  .inl (by decide)

/-- The first process calls `Exec` for its own program, which has become an empty file. -/
theorem exec_fails_cleanly_self :
    ∃ s : SysState ℕ Bool, (sysSystem ℕ Bool 0).Reachable s ∧
      s.proc.pc 0 = .at (.execBody false) ∧ CannotLoad [] (fun _ => 0) s.phys ∧
      s.ExecFailsCleanly 0 0 [] fun _ => 0 := by
  obtain ⟨s, hs, hhalt, hpc, hme, hid, hfile, -⟩ := reachable_execRun false
  have hfail := cannotLoad_nil s.phys
  exact ⟨s, hs, hpc, hfail, (exec_fails_cleanly_iff 0 s hs hhalt 0 false hpc [] (fun _ => 0)
    hfail).mpr ⟨0, hme, hid, .inl hfile⟩⟩

/-- The first process calls `Exec` for an empty file. -/
theorem exec_of_empty_file_not_clean :
    ∃ s : SysState ℕ Bool, (sysSystem ℕ Bool 0).Reachable s ∧
      s.proc.pc 0 = .at (.execBody true) ∧ CannotLoad [] (fun _ => 0) s.phys ∧
      ¬ s.ExecFailsCleanly 0 0 [] fun _ => 0 := by
  obtain ⟨s, hs, hhalt, hpc, hme, hid, hfile, hclear⟩ := reachable_execRun true
  have hfail := cannotLoad_nil s.phys
  refine ⟨s, hs, hpc, hfail, SysState.not_failsCleanly hs hhalt hpc hme hid ?_ ?_ hfail⟩
  · rw [hfile]
    decide
  · exact ⟨1, by decide, hclear⟩

end Nachos.UserProg
