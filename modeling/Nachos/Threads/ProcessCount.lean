import Nachos.Threads.KernelLock
import Nachos.Threads.ProcessTable

namespace Nachos.Threads

open Base Lib Function

/-!
# Threads — the number of processes

`PTable::numProcesses` is compared with the number of processes that have been created and not
yet removed (`ProcState.live`). `PTable::PTable` starts the counter at the size of the table and
not at 0, so it is too large from the first moment on; after that it is kept exactly. It lags
behind by one while a process is inside `ExecUpdate` with its new PCB already in the table
(`Point.creating`), and the semaphore of the table keeps a second process out, so
`numProcesses_eq` gives its value in every reachable state.
-/

variable {T N : Type*}

/-- In `ExecUpdate`, between the creation of the PCB and `numProcesses++`. -/
def Point.creating : Point N → Bool
  | .fork _ _ _ => true
  | .forked _ _ => true
  | .execDone _ => true
  | _ => false

/-- The thread is creating a process, perhaps inside a `P`. -/
def ProcPc.creating : ProcPc N → Bool
  | .unborn => false
  | .at k => k.creating
  | .inP _ k _ => k.creating

@[simp] theorem ProcPc.creating_at (k : Point N) : (ProcPc.at k).creating = k.creating := rfl

theorem ProcPc.creating_of_point {q : ProcPc N} {k : Point N} (h : q.point = some k) :
    q.creating = k.creating := by
  cases q with
  | unborn => cases h
  | «at» k' => cases h; rfl
  | inP r k' b => cases h; rfl

theorem ProcPc.Moved.creating {q q' : ProcPc N} (h : q.Moved q') : q'.creating = q.creating := by
  rcases h with rfl | ⟨r, k, b, rfl, rfl⟩
  · rfl
  · rfl

theorem Acquires.creating {q : ProcPc N} {r : SemRef} {k : Point N} (h : Acquires q r k) :
    k.creating = q.creating := by
  cases h <;> rfl

theorem Releases.creating {q : ProcPc N} {r : SemRef} {k : Point N} (h : Releases q r k) :
    k.creating = q.creating := by
  cases h <;> rfl

namespace ProcState

variable {s s' : ProcState T N} {t : T}

/-- The number of processes created and not yet removed. -/
def live (s : ProcState T N) : ℕ :=
  ((Finset.range s.numPcbs).filter fun c => (s.pcb c).deleted = false).card

/-- The entries of `pcbs` that the loop of `PTable::~PTable` deletes. -/
def destroyed (s : ProcState T N) : List ℕ :=
  List.range s.numProcesses.toNat

/-- The counter is the number of processes, and the destructor stays inside `pcbs`. -/
structure CountsProcesses (s : ProcState T N) : Prop where
  count : s.numProcesses = s.live
  bounds : 0 ≤ s.numProcesses ∧ s.numProcesses ≤ maxProcesses
  destroyed : ∀ i ∈ s.destroyed, i < maxProcesses

/-! ### How the number of processes changes -/

theorem Frame.live (h : Frame s s') : s'.live = s.live := by
  unfold ProcState.live
  rw [h.numPcbs]
  simp only [h.deleted]

theorem live_create (s : ProcState T N) (bm : Bitmap maxProcesses) (slot : ℕ) (cur : Int) :
    (s.create bm slot cur).live = s.live + 1 := by
  have hnew : ((s.create bm slot cur).pcb s.numPcbs).deleted = false := by
    simp [create, PCB.new]
  have hold : ∀ c ∈ Finset.range s.numPcbs,
      (((s.create bm slot cur).pcb c).deleted = false ↔ (s.pcb c).deleted = false) := by
    intro c hc
    have hne : c ≠ s.numPcbs := (Finset.mem_range.mp hc).ne
    simp [create, hne]
  show ((Finset.range (s.numPcbs + 1)).filter fun c =>
    ((s.create bm slot cur).pcb c).deleted = false).card = _
  rw [Finset.range_add_one, Finset.filter_insert, if_pos hnew, Finset.card_insert_of_notMem
    (by simp), Finset.filter_congr hold]
  rfl

/-- A removal takes one process away. -/
theorem live_remove [DecidableEq T] (h : s.TableInv) {cur : Int} (hs : s.remove t cur = .next s') :
    s'.live + 1 = s.live ∧ s'.numProcesses + 1 = s.numProcesses := by
  obtain ⟨c, bm, hc, -, hdel, -, rfl⟩ := remove_cases hs
  obtain ⟨i, -, -, hpcbs⟩ := pcbAt_eq_some hc
  have hlt : c < s.numPcbs := (h.slot_eq i c hpcbs).2.1
  refine ⟨?_, by simp [setPc, setPcb]⟩
  have hfilter : ((Finset.range s.numPcbs).filter fun d =>
      (update s.pcb c { s.pcb c with deleted := true } d).deleted = false)
      = ((Finset.range s.numPcbs).filter fun d => (s.pcb d).deleted = false).erase c := by
    ext d
    by_cases hd : d = c
    · subst hd; simp
    · simp [hd]
  show ((Finset.range s.numPcbs).filter fun d => (update s.pcb c
    { s.pcb c with deleted := true } d).deleted = false).card + 1 = _
  rw [hfilter, Finset.card_erase_add_one (by simp [hlt, hdel])]
  rfl

/-! ### The drift of the counter -/

/-- How far the counter is ahead. -/
structure CountInv (s : ProcState T N) : Prop where
  idle : (∀ t, (s.pc t).creating = false) → s.numProcesses = s.live + maxProcesses
  busy : (∃ t, (s.pc t).creating = true) → s.numProcesses + 1 = s.live + maxProcesses

/-- Nobody begins to create a process or is done with it. -/
theorem CountInv.congr (h : s.CountInv)
    (hcount : s'.numProcesses - s'.live = s.numProcesses - s.live)
    (hpc : ∀ u, (s'.pc u).creating = (s.pc u).creating) : s'.CountInv := by
  refine ⟨fun hidle => ?_, fun hbusy => ?_⟩
  · have := h.idle fun u => by rw [← hpc u]; exact hidle u
    omega
  · obtain ⟨u, hu⟩ := hbusy
    have := h.busy ⟨u, by rw [← hpc u]; exact hu⟩
    omega

theorem creating_of_ne (hother : ∀ u, u ≠ t → (s.pc u).Moved (s'.pc u))
    (ht : (s'.pc t).creating = (s.pc t).creating) (u : T) :
    (s'.pc u).creating = (s.pc u).creating := by
  by_cases hu : u = t
  · rw [hu]; exact ht
  · exact (hother u hu).creating

/-- Who creates a process is inside the lock of the table. -/
theorem LockInv.holds_of_creating (h : s.LockInv .table) {u : T}
    (hu : (s.pc u).creating = true) : (s.pc u).holds .table = true := by
  cases hq : s.pc u with
  | unborn => rw [hq] at hu; cases hu
  | «at» k =>
    rw [hq] at hu
    cases k <;> first | rfl | cases hu
  | inP r k b =>
    rw [hq] at hu
    have hr : r ≠ .table := by
      rintro rfl
      -- The `P` of the lock itself comes before the PCB is created.
      have hk : k.entry .table = true := (h.waits u .table k b hq).mp rfl
      cases k <;> simp_all [Point.entry, ProcPc.creating, Point.creating]
    have hk : k.holds .table = true := by cases k <;> first | rfl | cases hu
    simp [ProcPc.holds, KernelLock.ref, hr, hk]

/-- Only one thread is inside the lock. -/
theorem LockInv.eq_of_holds {l : KernelLock} (h : s.LockInv l) {u : T}
    (ht : (s.pc t).holds l = true) (hu : (s.pc u).holds l = true) : u = t := by
  rcases h.token with ⟨-, hnone⟩ | ⟨-, w, -, hunique⟩
  · rw [hnone t] at ht
    cases ht
  · exact (hunique u hu).trans (hunique t ht).symm

/-- It keeps every creator out. -/
theorem LockInv.not_creating_of_ne (h : s.LockInv .table) (ht : (s.pc t).holds .table = true)
    {u : T} (hut : u ≠ t) : (s.pc u).creating = false := by
  by_contra hu
  rw [Bool.not_eq_false] at hu
  exact hut (h.eq_of_holds ht (h.holds_of_creating hu))

/-- A thread begins to create a process. -/
theorem CountInv.begin (h : s.CountInv) (hidle : ∀ u, (s.pc u).creating = false)
    (hlive : s'.live = s.live + 1) (hnum : s'.numProcesses = s.numProcesses)
    (hnew : (s'.pc t).creating = true) : s'.CountInv := by
  have := h.idle hidle
  refine ⟨fun hidle' => ?_, fun _ => by omega⟩
  rw [hidle' t] at hnew
  cases hnew

/-- It is done, and the process is counted. -/
theorem CountInv.finish (h : s.CountInv) (hbusy : (s.pc t).creating = true)
    (hlive : s'.live = s.live) (hnum : s'.numProcesses = s.numProcesses + 1)
    (hidle : ∀ u, (s'.pc u).creating = false) : s'.CountInv := by
  have := h.busy ⟨t, hbusy⟩
  refine ⟨fun _ => by omega, fun hbusy' => ?_⟩
  obtain ⟨u, hu⟩ := hbusy'
  rw [hidle u] at hu
  cases hu

variable [DecidableEq T]

theorem CountInv.step [DecidableEq N] (h : s.CountInv) (ht : s.TableInv) (hl : s.LockInv .table)
    {a : ProcAction T N} (hs : Step s a s') : s'.CountInv := by
  cases hs with
  | quiet hp =>
    refine h.congr ?_ fun u => by rw [hp.pc]
    rw [hp.numProcesses, hp.toFrame.live]
  | @acquire t r k hq hp =>
    refine h.congr ?_ (creating_of_ne (fun u hu => .inl ((p_pc hp).2 u hu)) ?_)
    · rw [p_numProcesses hp, (p_keeps hp).toFrame.live]
    · rw [ProcPc.creating_of_point (p_point hp), hq.creating]
  | @release t r k s₁ hprep hq hv =>
    have hother := (v_pc hv).2
    rw [hprep.pc] at hother
    refine h.congr ?_ (creating_of_ne hother ?_)
    · rw [v_numProcesses hv, hprep.numProcesses, (v_keeps hv).toFrame.live, hprep.toFrame.live]
    · rw [ProcPc.creating_of_point (v_point hv), hq.creating]
  | @returned t id child s₁ hprep hpc hs =>
    subst hs
    refine h.congr ?_ (creating_of_ne (t := t) (fun u hu => .inl ?_) ?_)
    · rw [(hprep.toFrame.setPc t (.at .user)).live]
      show s₁.numProcesses - _ = _
      rw [hprep.numProcesses]
    · simp [setPc, hu, hprep.pc]
    · simp [setPc, hpc, Point.creating]
  | @create t name me slot ha hpc hme hdel hlt hclear hp =>
    have hlive : s'.live = s.live + 1 := by rw [(p_keeps hp).toFrame.live, live_create]
    have hnum : s'.numProcesses = s.numProcesses := by rw [p_numProcesses hp]; rfl
    refine h.begin (t := t) (fun u => ?_) hlive hnum (ProcPc.creating_of_point (p_point hp))
    by_cases hut : u = t
    · rw [hut, hpc]
      rfl
    · exact hl.not_creating_of_ne (by rw [hpc]; rfl) hut
  | @fork t u c slot name ha hpc hf =>
    obtain ⟨hu, rfl⟩ := fork_cases hf
    have hframe : Frame s (s.setPcb c { s.pcb c with
        pid := slot, file := some name, thread := some u }) := .setPcb s c rfl rfl
    refine h.congr ?_ fun w => ?_
    · rw [((hframe.setPc u _).setPc t _).live]
      rfl
    · by_cases hwt : w = t
      · subst hwt
        simp [setPc, hpc, Point.creating]
      · by_cases hwu : w = u
        · subst hwu
          simp [setPc, hwt, hu, Point.creating, ProcPc.creating]
        · simp [setPc, setPcb, hwt, hwu]
  | @execDone t slot ha hpc hv =>
    have hlive : s'.live = s.live := (v_keeps hv).toFrame.live
    have hnum : s'.numProcesses = s.numProcesses + 1 := by rw [v_numProcesses hv]
    refine h.finish (t := t) (by rw [hpc]; rfl) hlive hnum fun u => ?_
    by_cases hut : u = t
    · rw [hut]
      exact ProcPc.creating_of_point (v_point hv)
    · rw [((v_pc hv).2 u hut).creating]
      exact hl.not_creating_of_ne (by rw [hpc]; rfl) hut
  | @remove t cur ha hpc hr =>
    obtain ⟨hlive, hnum⟩ := live_remove ht hr
    obtain ⟨c, bm, -, -, -, -, rfl⟩ := remove_cases hr
    refine h.congr (by omega) (creating_of_ne (t := t) (fun u hu => .inl ?_) ?_)
    · simp [setPc, setPcb, hu]
    · simp [setPc, hpc, ProcPc.creating, Point.creating]

theorem CountInv.init (name : N) (main : T) :
    (booted name main).CountInv := by
  have hlive : (booted name main).live = 1 := by
    simp [live, booted, initFirstProcess, ProcState.new, PCB.new, Finset.filter_singleton]
  refine ⟨fun _ => ?_, fun hbusy => ?_⟩
  · rw [hlive]
    rfl
  · obtain ⟨t, ht⟩ := hbusy
    rw [booted_pc] at ht
    split at ht <;> cases ht

end ProcState

variable [DecidableEq T] [DecidableEq N]

/-- The drift, in every reachable state. -/
theorem numProcesses_inv {main : T} {s : ProcState T N} (h : (procSystem T N main).Reachable s) :
    s.CountInv := by
  refine h.invariant_of (I := ProcState.CountInv) ?_ ?_
  · rintro s ⟨name, rfl⟩
    exact .init name main
  · intro s a s' hs hi hnext
    exact hi.step (ptable_inv hs) (kernelLock_inv hs .table) (ProcState.next_step hnext)

/-- **`numProcesses` never counts the processes.** In every reachable state it is ahead of their
number by the size of the table, and by one less while a process is being created; right after the
constructor it is ahead, too. -/
theorem numProcesses_never_counts (main : T) :
    ¬ (ProcState.new main : ProcState T N).CountsProcesses ∧
    ∀ s : ProcState T N, (procSystem T N main).Reachable s →
      ¬ s.CountsProcesses ∧
      ((∀ t, (s.pc t).creating = false) → s.numProcesses = s.live + maxProcesses) ∧
      ((∃ t, (s.pc t).creating = true) → s.numProcesses + 1 = s.live + maxProcesses) := by
  refine ⟨fun hcounts => ?_, fun s hs => ?_⟩
  · have hcount : (maxProcesses : Int) = ((0 : ℕ) : Int) := hcounts.count
    simp [maxProcesses] at hcount
  · have hinv := numProcesses_inv hs
    refine ⟨fun hcounts => ?_, hinv.idle, hinv.busy⟩
    have hcount := hcounts.count
    have hmax : maxProcesses = 10 := rfl
    by_cases hbusy : ∃ t, (s.pc t).creating = true
    · have := hinv.busy hbusy
      omega
    · have := hinv.idle fun t => by
        by_contra ht
        exact hbusy ⟨t, Bool.not_eq_false _ ▸ ht⟩
      omega

/-- The run of a process 0 that has created one process: there are two, and the counter is 12. -/
theorem numProcesses_never_counts_exec :
    ∃ s : ProcState (Fin 2) Bool, (procSystem (Fin 2) Bool 0).Reachable s ∧ s.live = 2 ∧
      s.numProcesses = 12 ∧ ¬ s.CountsProcesses := by
  obtain ⟨s, hs, hlive, hnum⟩ := (procSystem (Fin 2) Bool 0).reaches ⟨false, rfl⟩ (joinRun.take 7)
    (fun s => s.live = 2 ∧ s.numProcesses = 12) (by decide +kernel)
  exact ⟨s, hs, hlive, hnum, ((numProcesses_never_counts 0).2 s hs).1⟩

/-- With the first process alone the counter is already 11, and the destructor would delete
`pcbs[10]`. -/
theorem numProcesses_overruns :
    ∃ s : ProcState (Fin 2) Bool, (procSystem (Fin 2) Bool 0).Reachable s ∧ s.live = 1 ∧
      s.numProcesses = 11 ∧ maxProcesses ∈ s.destroyed ∧ ¬ s.CountsProcesses := by
  refine ⟨ProcState.booted false 0, .init ⟨false, rfl⟩, by decide, by decide,
    by decide, fun hcounts => ?_⟩
  exact absurd (hcounts.destroyed maxProcesses (by decide)) (lt_irrefl _)

end Nachos.Threads
