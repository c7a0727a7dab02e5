import Nachos.Threads.PTable

namespace Nachos.Threads

open Base Lib Function

/-!
# Threads — the steps of the processes

Says once what an action can do to the processes, for the invariants that follow from it:

* `Keeps` — what stays in a step that neither creates nor removes a process nor gives one its
  thread; `Prep` — the same for the code in front of a `P` or a `V`;
* `Acquires` and `Releases` — where a thread calls `P` and `V`, on which semaphore, and where
  it goes on;
* `Step` and `next_step` — every action is a step of one of eight kinds.
-/

variable {T N : Type*}

/-- What makes a PCB the PCB of a process: its program, its thread, its id and its parent's. -/
def PCB.identity (p : PCB T N) : Option N × Option T × Int × Int :=
  (p.file, p.thread, p.pid, p.parentID)

/-- The point a thread is at or on the way to. -/
def ProcPc.point : ProcPc N → Option (Point N)
  | .unborn => none
  | .at k => some k
  | .inP _ k _ => some k

@[simp] theorem ProcPc.point_at (k : Point N) : (ProcPc.at k).point = some k := rfl

theorem ProcPc.Moved.point {q q' : ProcPc N} (h : q.Moved q') : q'.point = q.point := by
  rcases h with rfl | ⟨r, k, b, rfl, rfl⟩
  · rfl
  · rfl

namespace ProcState

variable {s s' s'' : ProcState T N} {t : T} {r : SemRef} {k : Point N}

/-! ### What the semaphores leave alone -/

/-- The table and the identity of every process stay. -/
structure Keeps (s s' : ProcState T N) : Prop extends Frame s s' where
  identity : ∀ c, (s'.pcb c).identity = (s.pcb c).identity

theorem Keeps.trans (h : Keeps s s') (h' : Keeps s' s'') : Keeps s s'' where
  toFrame := h.toFrame.trans h'.toFrame
  identity c := (h'.identity c).trans (h.identity c)

theorem Keeps.thread (h : Keeps s s') (c : ℕ) : (s'.pcb c).thread = (s.pcb c).thread :=
  congrArg (fun x => x.2.1) (h.identity c)

theorem Keeps.pid (h : Keeps s s') (c : ℕ) : (s'.pcb c).pid = (s.pcb c).pid :=
  congrArg (fun x => x.2.2.1) (h.identity c)

theorem Keeps.parentID (h : Keeps s s') (c : ℕ) : (s'.pcb c).parentID = (s.pcb c).parentID :=
  congrArg (fun x => x.2.2.2) (h.identity c)

/-- Changing a PCB in fields that neither say whose it is nor whether it exists. -/
theorem Keeps.setPcb (s : ProcState T N) (c : ℕ) {q : PCB T N} (hslot : q.slot = (s.pcb c).slot)
    (hdel : q.deleted = (s.pcb c).deleted) (hid : q.identity = (s.pcb c).identity) :
    Keeps s (s.setPcb c q) :=
  ⟨.setPcb s c hslot hdel, apply_update_of_eq PCB.identity hid⟩

theorem Keeps.setSem (s : ProcState T N) (r : SemRef) (x : Semaphore T) :
    Keeps s (s.setSem r x) := by
  cases r with
  | table => exact ⟨⟨rfl, rfl, rfl, fun _ => rfl, fun _ => rfl⟩, fun _ => rfl⟩
  | addrLock => exact ⟨⟨rfl, rfl, rfl, fun _ => rfl, fun _ => rfl⟩, fun _ => rfl⟩
  | mutex c => exact .setPcb s c rfl rfl rfl
  | joinsem c => exact .setPcb s c rfl rfl rfl
  | exitsem c => exact .setPcb s c rfl rfl rfl

theorem setSem_numProcesses (s : ProcState T N) (r : SemRef) (x : Semaphore T) :
    (s.setSem r x).numProcesses = s.numProcesses := by
  cases r <;> rfl

/-- What the code in front of a `P` or a `V` does: results, exit codes and numbers of waiters. -/
structure Prep (s s' : ProcState T N) : Prop extends Keeps s s' where
  numProcesses : s'.numProcesses = s.numProcesses
  pc : s'.pc = s.pc
  sem : s'.sem = s.sem
  addrLock : s'.addrLock = s.addrLock

theorem Prep.refl (s : ProcState T N) : Prep s s :=
  ⟨⟨.refl s, fun _ => rfl⟩, rfl, rfl, rfl, rfl⟩

theorem Prep.halt (s : ProcState T N) : Prep s { s with halted := true } :=
  ⟨⟨⟨rfl, rfl, rfl, fun _ => rfl, fun _ => rfl⟩, fun _ => rfl⟩, rfl, rfl, rfl, rfl⟩

theorem Prep.setPcb (s : ProcState T N) (c : ℕ) {q : PCB T N} (hslot : q.slot = (s.pcb c).slot)
    (hdel : q.deleted = (s.pcb c).deleted) (hid : q.identity = (s.pcb c).identity) :
    Prep s (s.setPcb c q) :=
  ⟨.setPcb s c hslot hdel hid, rfl, rfl, rfl, rfl⟩

variable [DecidableEq T]

theorem Prep.result (s : ProcState T N) (t : T) (x : Int) :
    Prep s { s with result := update s.result t x } :=
  ⟨⟨⟨rfl, rfl, rfl, fun _ => rfl, fun _ => rfl⟩, fun _ => rfl⟩, rfl, rfl, rfl, rfl⟩

theorem Keeps.setPc (h : Keeps s s') (t : T) (q : ProcPc N) : Keeps s (s'.setPc t q) :=
  ⟨h.toFrame.setPc t q, h.identity⟩

/-- `P` changes the semaphore, and where its caller is. -/
theorem p_induct {Q : ProcState T N → Prop} (h : s.p t r k = .next s')
    (hsem : ∀ x, Q (s.setSem r x))
    (hpc : ∀ {s₁ : ProcState T N} u q, Q s₁ → Q (s₁.setPc u q)) : Q s' := by
  obtain ⟨x, x', -, ⟨-, -, rfl⟩ | ⟨-, -, rfl⟩⟩ := p_cases h
  · exact hpc t _ (hsem x')
  · exact hpc t _ (hsem x')

/-- `V` changes the semaphore, and where its caller and the thread it wakes are. -/
theorem v_induct {Q : ProcState T N → Prop} (h : s.v t r k = .next s')
    (hsem : ∀ x, Q (s.setSem r x))
    (hpc : ∀ {s₁ : ProcState T N} u q, Q s₁ → Q (s₁.setPc u q)) : Q s' := by
  obtain ⟨x, x', -, -, rfl | ⟨w, rfl⟩⟩ := v_cases h
  · exact hpc t _ (hsem x')
  · obtain ⟨q, hq, -⟩ := wake_cases (s.setSem r x') w
    rw [hq]
    exact hpc t _ (hpc w q (hsem x'))

theorem p_keeps (h : s.p t r k = .next s') : Keeps s s' :=
  p_induct h (Keeps.setSem s r) fun u q h => h.setPc u q

theorem v_keeps (h : s.v t r k = .next s') : Keeps s s' :=
  v_induct h (Keeps.setSem s r) fun u q h => h.setPc u q

/-- A thread that calls `P` is past it or on the way. -/
theorem p_point (h : s.p t r k = .next s') :
    (s'.pc t).point = some k := by
  rcases (p_pc h).1 with hat | hat
  · rw [hat]
    rfl
  · rw [hat]
    rfl

theorem v_point (h : s.v t r k = .next s') :
    (s'.pc t).point = some k := by
  rw [(v_pc h).1]
  rfl

/-- The end of `ExecUpdate`: the process is counted, the result set and the table released. -/
theorem execDone_keeps {slot : ℕ}
    (h : { s with
      numProcesses := s.numProcesses + 1
      result := update s.result t slot }.v t .table .user = .next s') : Keeps s s' := by
  refine Keeps.trans ?_ (v_keeps h)
  exact ⟨⟨rfl, rfl, rfl, fun _ => rfl, fun _ => rfl⟩, fun _ => rfl⟩

theorem p_numProcesses (h : s.p t r k = .next s') : s'.numProcesses = s.numProcesses :=
  p_induct (Q := (·.numProcesses = s.numProcesses)) h (setSem_numProcesses s r) fun _ _ h => h

theorem v_numProcesses (h : s.v t r k = .next s') : s'.numProcesses = s.numProcesses :=
  v_induct (Q := (·.numProcesses = s.numProcesses)) h (setSem_numProcesses s r) fun _ _ h => h

end ProcState

/-! ### The kinds of steps -/

/-- From where a thread calls `P` on a semaphore, and where it goes on after it. -/
inductive Acquires : ProcPc N → SemRef → Point N → Prop where
  | callExec (name : N) : Acquires (.at .user) .table (.execBody name)
  | callJoin (me : ℕ) (cur id : Int) (child : Option ℕ) :
      Acquires (.at .user) (.mutex me) (.incNumWait me cur id child)
  | start (c : ℕ) : Acquires (.at (.start c)) .addrLock (.load c)
  | joinWait (d : ℕ) (cur id : Int) (child : Option ℕ) :
      Acquires (.at (.joinWait cur id child)) (.joinsem d) (.joined cur id child)
  | joined (me : ℕ) (cur id : Int) (child : Option ℕ) :
      Acquires (.at (.joined cur id child)) (.mutex me) (.decNumWait me id child)
  | exitWait (c : ℕ) (cur : Int) : Acquires (.at (.exitWait cur)) (.exitsem c) (.remove cur)
  | resume (r : SemRef) (k : Point N) : Acquires (.inP r k true) r k

/-- From where a thread calls `V` on a semaphore, and where it is after it. -/
inductive Releases : ProcPc N → SemRef → Point N → Prop where
  | execFailed (name : N) : Releases (.at (.execBody name)) .table .user
  | forked (c slot : ℕ) : Releases (.at (.forked c slot)) (.mutex c) (.execDone slot)
  | incNumWait (me : ℕ) (cur id : Int) (child : Option ℕ) :
      Releases (.at (.incNumWait me cur id child)) (.mutex me) (.joinWait cur id child)
  | decNumWait (me : ℕ) (id : Int) (child : Option ℕ) :
      Releases (.at (.decNumWait me id child)) (.mutex me) (.exitRelease id child)
  | exitRelease (d : ℕ) (id : Int) (child : Option ℕ) :
      Releases (.at (.exitRelease id child)) (.exitsem d) (.getExitCode id child)
  | callExit (c : ℕ) {cur : Int} (hcur : cur ≠ 0) :
      Releases (.at .user) (.joinsem c) (.exitWait cur)
  | loaded (c : ℕ) : Releases (.at (.load c)) .addrLock .user
  | notLoaded (c : ℕ) : Releases (.at (.load c)) .addrLock (.loadFailed c)

namespace ProcState

variable [DecidableEq T] [DecidableEq N] {s s' : ProcState T N} {t : T}

/-- The kinds of steps. -/
inductive Step (s : ProcState T N) (a : ProcAction T N) (s' : ProcState T N) : Prop where
  /-- A system call returns at once, or the machine halts. -/
  | quiet (h : Prep s s') : Step s a s'
  | acquire {t : T} {r : SemRef} {k : Point N} (hq : Acquires (s.pc t) r k)
      (h : s.p t r k = .next s') : Step s a s'
  | release {t : T} {r : SemRef} {k : Point N} {s₁ : ProcState T N} (hprep : Prep s s₁)
      (hq : Releases (s.pc t) r k) (h : s₁.v t r k = .next s') : Step s a s'
  /-- `JoinUpdate` returns the exit code. -/
  | returned {t : T} {id : Int} {child : Option ℕ} {s₁ : ProcState T N} (hprep : Prep s s₁)
      (hpc : s.pc t = .at (.getExitCode id child)) (h : s' = s₁.setPc t (.at .user)) : Step s a s'
  /-- `ExecUpdate` creates a PCB. -/
  | create {t : T} {name : N} {me slot : ℕ} (ha : a = .run t)
      (hpc : s.pc t = .at (.execBody name))
      (hme : s.pcbAt (s.getCurrentThreadId t) = some me) (hdel : (s.pcb me).deleted = false)
      (hlt : slot < maxProcesses) (hclear : slot ∉ s.slotManager.marked)
      (h : (s.create (s.slotManager.setBit slot) slot (s.getCurrentThreadId t)).p t
        (.mutex s.numPcbs) (.fork s.numPcbs slot name) = .next s') : Step s a s'
  | fork {t u : T} {c slot : ℕ} {name : N} (ha : a = .fork t u)
      (hpc : s.pc t = .at (.fork c slot name)) (h : s.fork t u c slot name = .next s') : Step s a s'
  /-- `ExecUpdate` counts the new process and returns its id. -/
  | execDone {t : T} {slot : ℕ} (ha : a = .run t) (hpc : s.pc t = .at (.execDone slot))
      (h : { s with
        numProcesses := s.numProcesses + 1
        result := update s.result t slot }.v t .table .user = .next s') : Step s a s'
  | remove {t : T} {cur : Int} (ha : a = .run t) (hpc : s.pc t = .at (.remove cur))
      (h : s.remove t cur = .next s') : Step s a s'

/-- A system call comes from the user program. -/
theorem user_of_next {a : ProcAction T N} (h : s.next a = .next s') :
    match a with
    | .callExec t _ _ | .callJoin t _ | .callExit t _ => s.pc t = .at .user
    | _ => True := by
  unfold next at h
  split at h
  · cases h
  · cases a with
    | callExec t name opened => exact (Outcome.guard_eq_next.mp h).1
    | callJoin t id => exact (Outcome.guard_eq_next.mp h).1
    | callExit t code => exact (Outcome.guard_eq_next.mp h).1
    | run t => trivial
    | fork t u => trivial
    | openFailed t => trivial
    | load t ok => trivial
    | resume t => trivial

/-- Going on from a point is a step. -/
theorem run_step {k : Point N} (hpc : s.pc t = .at k) (h : s.run t k = .next s') :
    Step s (.run t) s' := by
  have hacq : ∀ {r k'}, Acquires (.at k) r k' → s.p t r k' = .next s' →
      Step s (.run t) s' :=
    fun hq hp => .acquire (hpc ▸ hq) hp
  have hrel : ∀ {r k' s₁}, Prep s s₁ → Releases (.at k) r k' → s₁.v t r k' = .next s' →
      Step s (.run t) s' := fun hprep hq hv => .release hprep (hpc ▸ hq) hv
  cases k <;> simp only [run] at h
  case user => cases h
  case fork => cases h
  case load => cases h
  case start c => exact hacq (.start c) h
  case loadFailed c => rw [loadFailed_eq_next h]; exact .quiet (.halt s)
  case execBody name =>
    obtain ⟨me, file, hme, hdel, -, ⟨-, hv⟩ | ⟨slot, hlt, hclear, hp⟩⟩ := execBody_cases h
    · exact hrel (.result s t (-1)) (.execFailed name) hv
    · exact .create rfl hpc hme hdel hlt hclear hp
  case forked c slot => exact hrel (.refl s) (.forked c slot) h
  case execDone slot => exact .execDone rfl hpc h
  case incNumWait me cur id child =>
    refine hrel ?_ (.incNumWait me cur id child) h
    exact .setPcb s me rfl rfl rfl
  case joinWait cur id child =>
    obtain ⟨d, -, h⟩ := next_of_pcbAt h
    exact hacq (.joinWait d cur id child) h
  case joined cur id child =>
    obtain ⟨me, -, h⟩ := next_of_pcbAt h
    exact hacq (.joined me cur id child) h
  case decNumWait me id child =>
    refine hrel ?_ (.decNumWait me id child) h
    exact .setPcb s me rfl rfl rfl
  case exitRelease id child =>
    obtain ⟨d, -, h⟩ := next_of_pcbAt h
    exact hrel (.refl s) (.exitRelease d id child) h
  case getExitCode id child =>
    obtain ⟨d, -, h⟩ := next_of_pcbAt h
    exact .returned (.result s t _) hpc (Outcome.next.inj h).symm
  case exitWait cur =>
    obtain ⟨c, -, h⟩ := next_of_pcbAt h
    exact hacq (.exitWait c cur) h
  case remove cur => exact .remove rfl hpc h

/-- **Every action is a step of one of these kinds.** -/
theorem next_step {a : ProcAction T N} (h : s.next a = .next s') : Step s a s' := by
  have huser := user_of_next h
  cases next_takes h with
  | callExec hp => exact .acquire (huser ▸ .callExec _) hp
  | execFailed hr => rw [hr]; exact .quiet (.result s _ _)
  | callJoin hr =>
    rcases callJoin_cases hr with ⟨x, rfl⟩ | ⟨c, me, -, hp⟩
    · exact .quiet (.result s _ x)
    · exact .acquire (huser ▸ .callJoin me _ _ _) hp
  | callExit hr =>
    rcases callExit_cases hr with rfl | ⟨c, cur, hcur, hv⟩
    · exact .quiet (.halt s)
    · refine .release ?_ (huser ▸ .callExit c hcur) hv
      exact .setPcb s c rfl rfl rfl
  | run hpc hr => exact run_step hpc hr
  | fork hpc hr => exact .fork rfl hpc hr
  | openFailed hpc hr => rw [loadFailed_eq_next hr]; exact .quiet (.halt s)
  | @load t ok c hpc hv =>
    cases ok with
    | true => exact .release (.refl s) (hpc ▸ .loaded c) hv
    | false => exact .release (.refl s) (hpc ▸ .notLoaded c) hv
  | resume hpc hp => exact .acquire (hpc ▸ .resume _ _) hp

/-- **What an action does to the table**: nothing, except that an `Exec` may create a PCB in a
free entry and that a process may remove itself. -/
theorem next_table {a : ProcAction T N} (h : s.next a = .next s') :
    Frame s s' ∨
    (∃ t name slot, a = .run t ∧ s.pc t = .at (.execBody name) ∧ slot < maxProcesses ∧
      slot ∉ s.slotManager.marked ∧
      Frame (s.create (s.slotManager.setBit slot) slot (s.getCurrentThreadId t)) s') ∨
    (∃ t cur, a = .run t ∧ s.pc t = .at (.remove cur) ∧ s.remove t cur = .next s') := by
  cases next_step h with
  | quiet hprep => exact .inl hprep.toFrame
  | acquire _ hp => exact .inl (p_keeps hp).toFrame
  | release hprep _ hv => exact .inl (hprep.toKeeps.trans (v_keeps hv)).toFrame
  | returned hprep _ heq =>
    rw [heq]
    exact .inl (hprep.toFrame.setPc _ _)
  | create ha hpc _ _ hlt hclear hp =>
    exact .inr (.inl ⟨_, _, _, ha, hpc, hlt, hclear, (p_keeps hp).toFrame⟩)
  | fork _ _ hf =>
    obtain ⟨-, rfl⟩ := fork_cases hf
    refine .inl (((Frame.setPcb s _ ?_ ?_).setPc _ _).setPc _ _) <;> rfl
  | execDone _ _ hv => exact .inl (execDone_keeps hv).toFrame
  | remove ha hpc hr => exact .inr (.inr ⟨_, _, ha, hpc, hr⟩)

end ProcState

end Nachos.Threads
