import Nachos.Threads.ProcessTable

namespace Nachos.Threads

open Base Lib

/-!
# Threads — processes whose parent is gone

A process that exits waits in `PCB::ExitWait` until its parent has joined it. Nothing keeps the
parent from exiting and being removed first: then nobody can release the child any more, and its
entry of the table is lost (`ProcState.Stranded`).

`ProcState.HasParent` says that the parent of a process is still there; the children of a removed
process lose theirs, and no other step takes one away (`Parented.next_iff`). So no process is
stranded in the runs in which a process is removed only after all its children.
-/

variable {T N : Type*}

namespace ProcState

variable {s s' : ProcState T N}

/-- The parent of the process with the PCB `c` exists and is the one that created it. A process
that has been given the entry of the parent in its place is younger than `c`. -/
def HasParent (s : ProcState T N) (c : ℕ) : Prop :=
  ∃ d < c, s.pcbAt (s.pcb c).parentID = some d ∧ (s.pcb d).deleted = false

/-- A process is asleep in `PCB::ExitWait` and its parent is gone. -/
def Stranded (s : ProcState T N) : Prop :=
  ∃ c t k, c < s.numPcbs ∧ (s.pcb c).deleted = false ∧ s.pc t = .inP (.exitsem c) k false ∧
    0 ≤ (s.pcb c).parentID ∧ ¬ s.HasParent c

/-- Every process but the first has its parent. -/
def Parented (s : ProcState T N) : Prop :=
  ∀ c < s.numPcbs, (s.pcb c).deleted = false → 0 ≤ (s.pcb c).parentID → s.HasParent c

/-- No process has `cur` as its parent. -/
def Childless (s : ProcState T N) (cur : Int) : Prop :=
  ∀ d < s.numPcbs, (s.pcb d).deleted = false → (s.pcb d).parentID ≠ cur

instance (s : ProcState T N) (cur : Int) : Decidable (s.Childless cur) :=
  inferInstanceAs (Decidable (∀ d < s.numPcbs, _ → _))

/-- A process is only removed when it has no children. -/
def childrenFirst (s : ProcState T N) : ProcAction T N → Bool
  | .run t =>
    match s.pc t with
    | .at (.remove cur) => decide (s.Childless cur)
    | _ => true
  | _ => true

/-! ### Who keeps its parent -/

theorem Parented.not_stranded (h : s.Parented) : ¬ s.Stranded := by
  rintro ⟨c, t, k, hlt, hdel, -, hpos, hgone⟩
  exact hgone (h c hlt hdel hpos)

/-- The table and the parents' ids stay. -/
theorem Parented.frame (h : s.Parented) (hf : Frame s s')
    (hparent : ∀ c, (s'.pcb c).parentID = (s.pcb c).parentID) : s'.Parented := by
  intro c hlt hdel hpos
  rw [hf.numPcbs] at hlt
  rw [hf.deleted] at hdel
  rw [hparent] at hpos
  obtain ⟨d, hdc, hd, hddel⟩ := h c hlt hdel hpos
  refine ⟨d, hdc, ?_, ?_⟩
  · rw [hparent, hf.pcbAt]
    exact hd
  · rw [hf.deleted]
    exact hddel

/-- The entry of a process that exists is not the one `GetFreeSlot` finds. -/
theorem pcbAt_create (ht : s.TableInv) {slot : ℕ} (hclear : slot ∉ s.slotManager.marked)
    (bm : Bitmap maxProcesses) (cur : Int) {id : Int} {d : ℕ} (hd : s.pcbAt id = some d)
    (hdel : (s.pcb d).deleted = false) : (s.create bm slot cur).pcbAt id = some d := by
  obtain ⟨i, rfl, hi, hpcbs⟩ := pcbAt_eq_some hd
  have hne : i ≠ slot := by
    rintro rfl
    exact hclear ((ht.mem_marked i).mpr ⟨d, hpcbs, hdel⟩)
  have hid : (0 : Int) ≤ i ∧ (i : Int) < maxProcesses := ⟨by omega, by omega⟩
  simp [ProcState.pcbAt, create, hid, hne, hpcbs]

/-- A new process is the child of the one that creates it. -/
theorem Parented.create (h : s.Parented) (ht : s.TableInv) {slot me : ℕ} {cur : Int}
    (hclear : slot ∉ s.slotManager.marked) (hme : s.pcbAt cur = some me)
    (hdel : (s.pcb me).deleted = false) :
    (s.create (s.slotManager.setBit slot) slot cur).Parented := by
  have hold : ∀ d < s.numPcbs, (s.create (s.slotManager.setBit slot) slot cur).pcb d = s.pcb d := by
    intro d hd
    simp [ProcState.create, hd.ne]
  have hlt : ∀ {id d}, s.pcbAt id = some d → d < s.numPcbs := by
    intro id d hd
    obtain ⟨i, -, -, hpcbs⟩ := pcbAt_eq_some hd
    exact (ht.slot_eq i d hpcbs).2.1
  intro c hc hcdel hpos
  rcases Nat.lt_succ_iff_lt_or_eq.mp hc with hc | hc
  · -- A process that was there before.
    rw [hold c hc] at hcdel hpos
    obtain ⟨d, hdc, hd, hddel⟩ := h c hc hcdel hpos
    refine ⟨d, hdc, ?_, ?_⟩
    · rw [hold c hc]
      exact pcbAt_create ht hclear _ _ hd hddel
    · rw [hold d (hlt hd)]
      exact hddel
  · have hparent : ((s.create (s.slotManager.setBit slot) slot cur).pcb c).parentID = cur := by
      rw [hc]
      simp [ProcState.create]
    refine ⟨me, ?_, ?_, ?_⟩
    · rw [hc]
      exact hlt hme
    · rw [hparent]
      exact pcbAt_create ht hclear _ _ hme hdel
    · rw [hold me (hlt hme)]
      exact hdel

variable [DecidableEq T]

/-- A removal leaves every other process its parent exactly when the removed one has no child. -/
theorem Parented.remove_iff (h : s.Parented) (ht : s.TableInv) {t : T} {cur : Int}
    (hs : s.remove t cur = .next s') : s'.Parented ↔ s.Childless cur := by
  obtain ⟨c, bm, hc, -, hdel, -, rfl⟩ := remove_cases hs
  obtain ⟨i, hcur, hi, hpcbs⟩ := pcbAt_eq_some hc
  have hlt : c < s.numPcbs := (ht.slot_eq i c hpcbs).2.1
  constructor
  · intro hnew d hd hddel hparent
    have hpos : 0 ≤ (s.pcb d).parentID := by omega
    -- The process is not its own parent, so it is not the removed one.
    have hdc : d ≠ c := by
      rintro rfl
      obtain ⟨e, he, hpar, -⟩ := h d hd hddel hpos
      rw [hparent, hc] at hpar
      exact he.ne (Option.some.inj hpar).symm
    obtain ⟨e, -, hpar, hedel⟩ := hnew d hd (by simpa [setPc, setPcb, hdc] using hddel)
      (by simpa [setPc, setPcb, hdc] using hpos)
    have hec : s.pcbAt cur = some e := by
      rw [← hparent]
      simpa [setPc, setPcb, hdc, pcbAt] using hpar
    obtain rfl : c = e := Option.some.inj (hc.symm.trans hec)
    simp [setPc, setPcb] at hedel
  · intro hchild d hd hddel hpos
    have hdc : d ≠ c := by
      rintro rfl
      simp [setPc, setPcb] at hddel
    have hddel' : (s.pcb d).deleted = false := by simpa [setPc, setPcb, hdc] using hddel
    have hpos' : 0 ≤ (s.pcb d).parentID := by simpa [setPc, setPcb, hdc] using hpos
    obtain ⟨e, hed, hpar, hedel⟩ := h d hd hddel' hpos'
    have hec : e ≠ c := by
      rintro rfl
      obtain ⟨j, hj, -, hpcbs'⟩ := pcbAt_eq_some hpar
      have hij : i = j := by
        rw [← (ht.slot_eq i e hpcbs).2.2, (ht.slot_eq j e hpcbs').2.2]
      exact hchild d hd hddel' (by omega)
    refine ⟨e, hed, ?_, ?_⟩
    · simpa [setPc, setPcb, hdc, pcbAt] using hpar
    · simpa [setPc, setPcb, hec] using hedel

/-- Every step but a removal leaves every process its parent. -/
theorem Parented.step [DecidableEq N] (h : s.Parented) (ht : s.TableInv) {a : ProcAction T N}
    (hs : Step s a s') (ha : ∀ t cur, a = .run t → s.pc t ≠ .at (.remove cur)) :
    s'.Parented := by
  have hkeeps : Keeps s s' → s'.Parented := fun hk => h.frame hk.toFrame hk.parentID
  cases hs with
  | quiet hp => exact hkeeps hp.toKeeps
  | acquire hq hp => exact hkeeps (p_keeps hp)
  | release hprep hq hv => exact hkeeps (hprep.toKeeps.trans (v_keeps hv))
  | returned hprep hpc hs =>
    subst hs
    exact hkeeps (hprep.toKeeps.setPc _ _)
  | create _ hpc hme hdel hlt hclear hp =>
    have hnew := h.create ht hclear hme hdel
    exact hnew.frame (p_keeps hp).toFrame (p_keeps hp).parentID
  | @fork t u c slot name _ hpc hf =>
    obtain ⟨-, rfl⟩ := fork_cases hf
    refine h.frame (((Frame.setPcb s c ?_ ?_).setPc u _).setPc t _)
      (apply_update_of_eq PCB.parentID ?_)
    all_goals rfl
  | execDone _ hpc hv => exact hkeeps (execDone_keeps hv)
  | remove har hpc hr => exact absurd hpc (ha _ _ har)

/-- **What takes a parent away**: exactly the removal of a process that has children. -/
theorem Parented.next_iff [DecidableEq N] (h : s.Parented) (ht : s.TableInv) {a : ProcAction T N}
    (hs : s.next a = .next s') : s'.Parented ↔ s.childrenFirst a = true := by
  by_cases ha : ∃ t cur, a = .run t ∧ s.pc t = .at (.remove cur)
  · obtain ⟨t, cur, rfl, hpc⟩ := ha
    have hr : s.remove t cur = .next s' := by
      cases next_takes hs with
      | run hpc' hr =>
        cases hpc.symm.trans hpc'
        exact hr
    rw [h.remove_iff ht hr]
    simp [childrenFirst, hpc]
  · have hfirst : s.childrenFirst a = true := by
      unfold childrenFirst
      split
      · split
        · rename_i t _ cur hpc
          exact absurd ⟨t, cur, rfl, hpc⟩ ha
        · rfl
      · rfl
    refine iff_of_true (h.step ht (next_step hs) fun t cur hat hpc => ?_) hfirst
    exact ha ⟨t, cur, hat, hpc⟩

/-- The first process has no parent. -/
theorem Parented.init (name : N) (main : T) :
    (booted name main).Parented := by
  intro c hc _ hpos
  obtain rfl : c = 0 := Nat.lt_one_iff.mp hc
  exact absurd hpos (show ¬ (0 : Int) ≤ -1 by decide)

end ProcState

variable [DecidableEq T] [DecidableEq N]

/-- **No process is stranded in `Exit`**, in any state of any run in which a process is only
removed when it has no children; and in each of these states an action leaves every process
its parent exactly when it is not the removal of a process with children. -/
theorem not_stranded_of_childrenFirst (main : T) (s : ProcState T N)
    (h : ((procSystem T N main).restrict fun s a => s.childrenFirst a).Reachable s) :
    ¬ s.Stranded ∧
    ∀ a s', s.next a = .next s' → (s'.Parented ↔ s.childrenFirst a = true) := by
  have hinv : s.Parented := by
    refine h.invariant_of (I := ProcState.Parented) ?_ ?_
    · rintro s ⟨name, rfl⟩
      exact .init name main
    · intro s a s' hs hi hnext
      obtain ⟨hfirst, hnext⟩ := LTS.restrict_next hnext
      exact (hi.next_iff (ptable_inv hs.of_restrict) hnext).mpr hfirst
  exact ⟨hinv.not_stranded, fun a s' hs => hinv.next_iff (ptable_inv h.of_restrict) hs⟩

/-- The first process joins its child, which is then removed. -/
theorem not_stranded_of_childrenFirst_join :
    ∃ s : ProcState (Fin 2) Bool,
      ((procSystem (Fin 2) Bool 0).restrict fun s a => s.childrenFirst a).Reachable s ∧
      (s.pcb 1).deleted = true ∧ ¬ s.Stranded := by
  obtain ⟨s, hs, hdel⟩ :=
    ((procSystem (Fin 2) Bool 0).restrict fun s a => s.childrenFirst a).reaches ⟨false, rfl⟩ joinRun
      (fun s => (s.pcb 1).deleted = true) (by decide +kernel)
  exact ⟨s, hs, hdel, (not_stranded_of_childrenFirst 0 s hs).1⟩

/-- The first process starts a second one and that one a third. The third and then the second
exit, and the first joins the second. -/
def orphanRun : List (ProcAction (Fin 3) Bool) :=
  [.run 0, .load 0 true,
   .callExec 0 true true, .run 0, .fork 0 1, .run 0, .run 0, .run 1, .load 1 true,
   .callExec 1 false true, .run 1, .fork 1 2, .run 1, .run 1, .run 2, .load 2 true,
   .callExit 2 0, .run 2,
   .callExit 1 0, .run 1,
   .callJoin 0 1, .run 0, .run 0, .run 0, .run 0, .run 0,
   .resume 1, .run 1]

/-- The third process sleeps in `ExitWait` when its parent has been removed. -/
theorem stranded_after_parent_removed :
    ∃ s : ProcState (Fin 3) Bool, (procSystem (Fin 3) Bool 0).Reachable s ∧ s.Stranded := by
  obtain ⟨s, hs, hnum, hdel, hpc, hparent, hentry, hgone⟩ :=
    (procSystem (Fin 3) Bool 0).reaches ⟨false, rfl⟩ orphanRun
      (fun s => s.numPcbs = 3 ∧ (s.pcb 2).deleted = false ∧
        s.pc 2 = .inP (.exitsem 2) (.remove 2) false ∧ (s.pcb 2).parentID = 1 ∧
        s.pcbAt 1 = some 1 ∧ (s.pcb 1).deleted = true) (by decide +kernel)
  refine ⟨s, hs, 2, 2, .remove 2, by omega, hdel, hpc, by omega, ?_⟩
  rintro ⟨d, -, hd, hddel⟩
  rw [hparent, hentry] at hd
  cases hd
  rw [hgone] at hddel
  cases hddel

end Nachos.Threads
