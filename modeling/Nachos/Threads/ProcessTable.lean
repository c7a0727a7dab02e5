import Nachos.Threads.Steps

namespace Nachos.Threads

open Base Lib Function

/-!
# Threads — consistency of the process table

Three structures describe which processes exist: the array `pcbs`, the bitmap `slotManager`
and the PCBs themselves. `ProcState.TableInv` says how they fit together in every reachable
state: a bit is set exactly for the entries that point to a PCB that has not been deleted.

`IsExist` does not look at the bitmap but at the pointer, and `Remove` never gets to clear it.
So `IsExist` tells the existing processes as long as no process removes itself
(`ptable_consistent_of_noRemove`), and every removal breaks it.
-/

variable {T N : Type*}

namespace ProcState

variable {s s' : ProcState T N}

/-! ### The invariant -/

/-- How `pcbs`, the PCBs and `slotManager` fit together. -/
structure TableInv (s : ProcState T N) : Prop where
  slot_eq : ∀ i c, s.pcbs i = some c → i < maxProcesses ∧ c < s.numPcbs ∧ (s.pcb c).slot = i
  pcbs_slot : ∀ c < s.numPcbs, (s.pcb c).deleted = false → s.pcbs (s.pcb c).slot = some c
  mem_marked : ∀ i, i ∈ s.slotManager.marked ↔ ∃ c, s.pcbs i = some c ∧ (s.pcb c).deleted = false

/-- The invariant only reads what a frame keeps. -/
theorem TableInv.frame (h : s.TableInv) (hf : Frame s s') : s'.TableInv := by
  refine ⟨fun i c hc => ?_, fun c hc hd => ?_, fun i => ?_⟩
  · rw [hf.pcbs] at hc
    rw [hf.numPcbs, hf.slot]
    exact h.slot_eq i c hc
  · rw [hf.numPcbs] at hc
    rw [hf.deleted] at hd
    rw [hf.pcbs, hf.slot]
    exact h.pcbs_slot c hc hd
  · rw [hf.slotManager, hf.pcbs, h.mem_marked i]
    simp only [hf.deleted]

/-- A PCB is created in an entry whose bit is clear: no live PCB is displaced. -/
theorem TableInv.create (h : s.TableInv) {slot : ℕ} (hlt : slot < maxProcesses)
    (hclear : slot ∉ s.slotManager.marked) (cur : Int) :
    (s.create (s.slotManager.setBit slot) slot cur).TableInv := by
  have hold : ∀ i c, s.pcbs i = some c → c ≠ s.numPcbs := by
    intro i c hc
    have := (h.slot_eq i c hc).2.1
    omega
  refine ⟨fun i c hc => ?_, fun c hc hd => ?_, fun i => ?_⟩
  · simp only [ProcState.create] at hc ⊢
    by_cases hi : i = slot
    · subst hi
      obtain rfl : s.numPcbs = c := by simpa using hc
      exact ⟨hlt, by omega, by simp [PCB.new]⟩
    · have hc' : s.pcbs i = some c := by simpa [hi] using hc
      obtain ⟨h1, h2, h3⟩ := h.slot_eq i c hc'
      exact ⟨h1, by omega, by simpa [hold i c hc'] using h3⟩
  · simp only [ProcState.create] at hc hd ⊢
    by_cases hcn : c = s.numPcbs
    · subst hcn; simp [PCB.new]
    · have hd' : (s.pcb c).deleted = false := by simpa [hcn] using hd
      have hpc := h.pcbs_slot c (by omega) hd'
      have hne : (s.pcb c).slot ≠ slot := by
        rintro rfl
        exact hclear ((h.mem_marked _).mpr ⟨c, hpc, hd'⟩)
      simpa [hcn, hne] using hpc
  · simp only [ProcState.create]
    rw [Bitmap.marked_setBit _ hlt, Finset.mem_insert]
    by_cases hi : i = slot
    · subst hi; simp [PCB.new]
    · rw [h.mem_marked i]
      simp only [hi, false_or, ne_eq, not_false_eq_true, update_of_ne]
      refine exists_congr fun c => and_congr_right fun hc => ?_
      rw [update_of_ne (hold i c hc)]

/-- `pcbs[id]` in terms of the array. -/
theorem pcbAt_eq_some {id : Int} {c : ℕ} (h : s.pcbAt id = some c) :
    ∃ i : ℕ, id = i ∧ i < maxProcesses ∧ s.pcbs i = some c := by
  unfold pcbAt at h
  split at h
  · rename_i hid
    exact ⟨id.toNat, by omega, by omega, h⟩
  · cases h

variable [DecidableEq T]

/-- A process removes itself: its bit goes with its PCB. -/
theorem TableInv.remove (h : s.TableInv) {t : T} {cur : Int} (hs : s.remove t cur = .next s') :
    s'.TableInv := by
  obtain ⟨c, bm, hc, hbm, hd, -, rfl⟩ := remove_cases hs
  obtain ⟨i, rfl, hi, hpcbs⟩ := pcbAt_eq_some hc
  obtain rfl : s.slotManager.resetBit i = bm := by
    rw [Bitmap.clear_natCast _ hi] at hbm
    exact Option.some.inj hbm
  have hslot : ∀ d, (update s.pcb c { s.pcb c with deleted := true } d).slot
      = (s.pcb d).slot := apply_update_of_eq PCB.slot rfl
  refine ⟨fun j d hj => ?_, fun d hd' hdel => ?_, fun j => ?_⟩
  · simp only [setPc, setPcb] at hj ⊢
    rw [hslot]
    exact h.slot_eq j d hj
  · simp only [setPc, setPcb] at hd' hdel ⊢
    rw [hslot]
    by_cases hdc : d = c
    · subst hdc; simp at hdel
    · exact h.pcbs_slot d hd' (by simpa [hdc] using hdel)
  · simp only [setPc, setPcb]
    rw [Bitmap.marked_resetBit _ hi, Finset.mem_erase, h.mem_marked j]
    by_cases hji : j = i
    · subst hji; simp [hpcbs]
    · simp only [hji, ne_eq, not_false_eq_true, true_and]
      refine exists_congr fun d => and_congr_right fun hj => ?_
      -- The entry of another process points to another PCB.
      have hdc : d ≠ c := by
        rintro rfl
        rw [← (h.slot_eq j d hj).2.2, (h.slot_eq i d hpcbs).2.2] at hji
        exact hji rfl
      rw [update_of_ne hdc]

/-- The invariant survives every action. -/
theorem TableInv.next [DecidableEq N] (h : s.TableInv) {a : ProcAction T N}
    (hs : s.next a = .next s') : s'.TableInv := by
  rcases next_table hs with hf | ⟨t, name, slot, -, -, hlt, hclear, hf⟩ | ⟨t, cur, -, -, hr⟩
  · exact h.frame hf
  · exact (h.create hlt hclear _).frame hf
  · exact h.remove hr

theorem TableInv.init (name : N) (main : T) :
    (booted name main).TableInv := by
  refine ⟨fun i c hc => ?_, fun c hc hd => ?_, fun i => ?_⟩
  · by_cases hi : i = 0
    · subst hi
      cases hc
      exact ⟨by decide, Nat.one_pos, rfl⟩
    · simp [booted, initFirstProcess, ProcState.new, hi] at hc
  · obtain rfl : c = 0 := Nat.lt_one_iff.mp hc
    rfl
  · simp only [booted, initFirstProcess, ProcState.new]
    rw [Bitmap.marked_setBit _ (by decide), Bitmap.marked_new]
    by_cases hi : i = 0
    · subst hi; simp [PCB.new]
    · simp [hi]

/-! ### Consistency -/

/-- The table is consistent: a bit is set exactly for the entries that point to a PCB that has
not been deleted, and `IsExist` is true exactly for the processes that have been created
and not removed. -/
structure Consistent (s : ProcState T N) : Prop where
  mem_marked : ∀ i, i ∈ s.slotManager.marked ↔ ∃ c, s.pcbs i = some c ∧ (s.pcb c).deleted = false
  isExist_iff : ∀ pid : Int, s.isExist pid = true ↔
    ∃ c < s.numPcbs, ((s.pcb c).slot : Int) = pid ∧ (s.pcb c).deleted = false

/-- The action is not a process removing itself. -/
def noRemove (s : ProcState T N) : ProcAction T N → Bool
  | .run t =>
    match s.pc t with
    | .at (.remove _) => false
    | _ => true
  | _ => true

omit [DecidableEq T] in
/-- `IsExist` looks at the pointer only. -/
theorem isExist_eq_true_iff {pid : Int} :
    s.isExist pid = true ↔ ∃ i : ℕ, ∃ c, pid = i ∧ i < maxProcesses ∧ s.pcbs i = some c := by
  unfold isExist
  constructor
  · intro h
    split at h
    · cases h
    · rename_i hpid
      obtain ⟨c, hc⟩ := Option.isSome_iff_exists.mp h
      exact ⟨pid.toNat, c, by omega, by omega, hc⟩
  · rintro ⟨i, c, rfl, hi, hc⟩
    rw [if_neg (by omega), Int.toNat_natCast, hc]
    rfl

omit [DecidableEq T] in
/-- While no PCB has been deleted, the table is consistent. -/
theorem TableInv.consistent (h : s.TableInv) (hall : ∀ c < s.numPcbs, (s.pcb c).deleted = false) :
    s.Consistent := by
  refine ⟨h.mem_marked, fun pid => ?_⟩
  rw [isExist_eq_true_iff]
  constructor
  · rintro ⟨i, c, rfl, -, hc⟩
    obtain ⟨-, hlt, hslot⟩ := h.slot_eq i c hc
    exact ⟨c, hlt, by rw [hslot], hall c hlt⟩
  · rintro ⟨c, hlt, rfl, hd⟩
    have hc := h.pcbs_slot c hlt hd
    exact ⟨_, c, rfl, (h.slot_eq _ c hc).1, hc⟩

/-- After a removal `IsExist` is still true of the process that is gone. -/
theorem TableInv.not_consistent_remove (h : s.TableInv) {t : T} {cur : Int}
    (hs : s.remove t cur = .next s') : ¬ s'.Consistent := by
  have h' := h.remove hs
  obtain ⟨c, bm, hc, -, -, -, rfl⟩ := remove_cases hs
  obtain ⟨i, rfl, hi, hpcbs⟩ := pcbAt_eq_some hc
  intro hcons
  obtain ⟨d, hlt, hslot, hdel⟩ := (hcons.isExist_iff i).mp
    (isExist_eq_true_iff.mpr ⟨i, c, rfl, hi, hpcbs⟩)
  -- A live PCB with that number would be the one the entry points to, which is deleted.
  have hd := h'.pcbs_slot d hlt hdel
  rw [Int.natCast_inj.mp hslot] at hd
  obtain rfl : c = d := Option.some.inj (hpcbs.symm.trans hd)
  simp [setPc, setPcb] at hdel

variable [DecidableEq N]

/-- The actions that `noRemove` excludes are the removals. -/
theorem next_of_remove {a : ProcAction T N} (hs : s.next a = .next s')
    (ha : s.noRemove a = false) :
    ∃ t cur, a = .run t ∧ s.pc t = .at (.remove cur) ∧ s.remove t cur = .next s' := by
  cases a with
  | run t =>
    simp only [noRemove] at ha
    split at ha
    · rename_i cur hpc
      cases next_takes hs with
      | run hpc' hr =>
        rw [hpc] at hpc'
        cases hpc'
        exact ⟨t, cur, rfl, hpc, hr⟩
    · cases ha
  | _ => cases ha

/-- Only a removal deletes a PCB. -/
theorem next_deleted {a : ProcAction T N} (hs : s.next a = .next s') (ha : s.noRemove a = true)
    (hall : ∀ c < s.numPcbs, (s.pcb c).deleted = false) :
    ∀ c < s'.numPcbs, (s'.pcb c).deleted = false := by
  rcases next_table hs with hf | ⟨t, name, slot, -, -, -, -, hf⟩ | ⟨t, cur, rfl, hpc, -⟩
  · intro c hc
    rw [hf.deleted]
    exact hall c (by rw [← hf.numPcbs]; exact hc)
  · intro c hc
    rw [hf.deleted]
    rw [hf.numPcbs] at hc
    simp only [create] at hc ⊢
    by_cases hcn : c = s.numPcbs
    · subst hcn; simp [PCB.new]
    · simpa [hcn] using hall c (by omega)
  · simp [noRemove, hpc] at ha

end ProcState

variable [DecidableEq T] [DecidableEq N]

theorem ptable_inv {main : T} {s : ProcState T N} (h : (procSystem T N main).Reachable s) :
    s.TableInv :=
  h.invariant (I := ProcState.TableInv) (by rintro s ⟨name, rfl⟩; exact .init name main)
    (fun _ _ _ hi hs => hi.next hs)

/-- **Consistency of the process table.** In every state of every run in which no process
removes itself the table is consistent; and in each of these states an action keeps it
consistent exactly when it is not a removal. -/
theorem ptable_consistent_of_noRemove (main : T) (s : ProcState T N)
    (h : ((procSystem T N main).restrict fun s a => s.noRemove a).Reachable s) :
    s.Consistent ∧
      ∀ a s', s.next a = .next s' → (s'.Consistent ↔ s.noRemove a = true) := by
  have hinv : s.TableInv ∧ ∀ c < s.numPcbs, (s.pcb c).deleted = false := by
    refine h.invariant (I := fun s : ProcState T N =>
      s.TableInv ∧ ∀ c < s.numPcbs, (s.pcb c).deleted = false) ?_ ?_
    · rintro s ⟨name, rfl⟩
      refine ⟨.init name main, fun c hc => ?_⟩
      obtain rfl : c = 0 := Nat.lt_one_iff.mp hc
      rfl
    · rintro s a s' ⟨hi, hall⟩ hs
      obtain ⟨ha, hs⟩ := LTS.restrict_next hs
      exact ⟨hi.next hs, ProcState.next_deleted hs ha hall⟩
  obtain ⟨hi, hall⟩ := hinv
  refine ⟨hi.consistent hall, fun a s' hs => ⟨fun hc => ?_, fun ha => ?_⟩⟩
  · by_contra ha
    obtain ⟨t, cur, -, -, hr⟩ := ProcState.next_of_remove hs (by simpa using ha)
    exact hi.not_consistent_remove hr hc
  · exact (hi.next hs).consistent (ProcState.next_deleted hs ha hall)

/-- The first process executes a program: two entries are in use. -/
theorem ptable_consistent_of_noRemove_exec :
    ∃ s : ProcState (Fin 2) Bool, s.numPcbs = 2 ∧ s.pcbs 1 = some 1 ∧ s.Consistent := by
  obtain ⟨s, h, hnum, hone⟩ :=
    ((procSystem (Fin 2) Bool 0).restrict fun s a => s.noRemove a).reaches ⟨false, rfl⟩
      [.run 0, .load 0 true, .callExec 0 true true, .run 0, .fork 0 1, .run 0, .run 0]
      (fun s => s.numPcbs = 2 ∧ s.pcbs 1 = some 1) (by decide +kernel)
  exact ⟨s, hnum, hone, (ptable_consistent_of_noRemove 0 s h).1⟩

/-- A run of the first process, thread 0, and a child, thread 1: the child exits with code 7,
the first process joins it and lets it go, and the child removes itself before the first
process has read the code. -/
def joinRun : List (ProcAction (Fin 2) Bool) :=
  [.run 0, .load 0 true,
   -- `Exec`, and the child starts.
   .callExec 0 true true, .run 0, .fork 0 1, .run 0, .run 0, .run 1, .load 1 true,
   -- `Exit(7)`: the child sleeps in `ExitWait`.
   .callExit 1 7, .run 1,
   -- `Join`, up to the end of `exitsem->V()`.
   .callJoin 0 1, .run 0, .run 0, .run 0, .run 0, .run 0,
   -- The child is scheduled and removes itself.
   .resume 1, .run 1]

/-- After the child has removed itself, `IsExist` is still true of it. -/
theorem ptable_inconsistent_after_exit :
    ¬ ∀ s : ProcState (Fin 2) Bool, (procSystem (Fin 2) Bool 0).Reachable s → s.Consistent := by
  intro hall
  obtain ⟨s, h, hexist, hnum, hslot, hdel⟩ :=
    (procSystem (Fin 2) Bool 0).reaches ⟨false, rfl⟩ joinRun
    (fun s => s.isExist 1 = true ∧ s.numPcbs = 2 ∧ (s.pcb 0).slot = 0 ∧ (s.pcb 1).deleted = true)
    (by decide +kernel)
  obtain ⟨c, hc, hcslot, hcdel⟩ := ((hall s h).isExist_iff 1).mp hexist
  -- The only PCB with number 1 has been deleted.
  rw [hnum] at hc
  rcases (by omega : c = 0 ∨ c = 1) with rfl | rfl
  · rw [hslot] at hcslot
    cases hcslot
  · rw [hdel] at hcdel
    cases hcdel

end Nachos.Threads
