import Nachos.Threads.Loader
import Nachos.Threads.Processes
import Nachos.UserProg.Isolation

namespace Nachos.UserProg

open Base Lib Machine Threads Function

/-!
# UserProg — the frames of processes that come and go

The processes of `Threads.procSystem` together with the memory their programs are loaded into:
when a thread gets to `AddrSpace::Load`, frames are taken from `gPhysPageBitMap`. Nothing in
the exit path (`ExitUpdate`, `Remove`, `~PCB`, `Finish`, `~Thread`) deletes the address space,
so no frame is ever returned:

* `SysState.FrameInv` — in every reachable state the marked frames are those of all processes
  created so far, and no frame belongs to two of them;
* `SysState.Reclaimed` — what the exit path should achieve: the marked frames are those of the
  processes that have not been removed;
* `frames_reclaimed_of_noLeak` — this holds as long as no process with a page table is removed,
  and every such removal breaks it;
* `processes_kept_apart` — what no interleaving of the processes breaks.
-/

variable {T N : Type*} [DecidableEq T] [DecidableEq N]

/-- The processes, the physical memory and the address space of each process. -/
structure SysState (T N : Type*) where
  proc : ProcState T N
  phys : PhysMem
  space : ℕ → AddrSpace

/-- What can happen next. -/
inductive SysAction (T N : Type*) where
  /-- An action of the processes that does not touch the memory. -/
  | proc (a : ProcAction T N)
  /-- `AddrSpace::Load` of the thread `t`, which holds `addrLock`; `file` is the executable. -/
  | load (t : T) (file : HostFile) (junk : ℕ → UInt8)

namespace SysState

/-- `Load` of the process `c` returns to its thread `t`; `r` is what it did. -/
def loaded (s : SysState T N) (t : T) (c : ℕ) :
    Option (Bool × AddrSpace × PhysMem) → Outcome (SysState T N)
  | none => .fault
  | some (ok, a, phys) =>
    (s.proc.next (.load t ok)).map fun q => ⟨q, phys, update s.space c a⟩

/-- One action. -/
def next (s : SysState T N) : SysAction T N → Outcome (SysState T N)
  | .proc (.load _ _) => .disabled
  | .proc a => (s.proc.next a).map fun q => { s with proc := q }
  | .load t file junk =>
    match s.proc.pc t with
    | .at (.load c) => s.loaded t c (AddrSpace.load (some file) junk s.phys)
    | _ => .disabled

/-- What can be said of an action on the memory: it is a `Load`, or it leaves it alone. -/
theorem next_cases {s s' : SysState T N} {a : SysAction T N} (h : s.next a = .next s') :
    (∃ b, a = .proc b ∧ s.proc.next b = .next s'.proc ∧ s'.phys = s.phys ∧ s'.space = s.space) ∨
    (∃ t file junk c ok sp, a = .load t file junk ∧ s.proc.pc t = .at (.load c) ∧
      AddrSpace.load (some file) junk s.phys = some (ok, sp, s'.phys) ∧
      s.proc.next (.load t ok) = .next s'.proc ∧ s'.space = update s.space c sp) := by
  cases a with
  | proc b =>
    have hmap : (s.proc.next b).map (fun q => { s with proc := q }) = .next s' := by
      cases b <;> first | exact h | cases h
    obtain ⟨q, hq, rfl⟩ := Outcome.map_eq_next_iff.mp hmap
    exact .inl ⟨b, rfl, hq, rfl, rfl⟩
  | load t file junk =>
    simp only [next] at h
    split at h
    · rename_i c hpc
      generalize hload : AddrSpace.load (some file) junk s.phys = r at h
      rcases r with _ | ⟨ok, sp, phys⟩
      · cases h
      · obtain ⟨q, hq, rfl⟩ := Outcome.map_eq_next_iff.mp h
        exact .inr ⟨t, file, junk, c, ok, sp, rfl, hpc, hload, hq, rfl⟩
    · cases h

end SysState

/-- The kernel, from the moment `main` has created the first process. -/
def sysSystem (T N : Type*) [DecidableEq T] [DecidableEq N] (main : T) :
    LTS (SysState T N) (SysAction T N) where
  init := fun s => (procSystem T N main).init s.proc ∧
    s.phys.gPhysPageBitMap = .new numPhysPages ∧ ∀ c, s.space c = .new
  next := SysState.next

namespace SysState

variable {s s' : SysState T N}

/-! ### What is marked -/

/-- The marked frames are those of the processes created so far, each of which has loaded its
program at most once. -/
structure FrameInv (s : SysState T N) : Prop where
  loader : s.proc.LoaderInv
  owned : Owned (Finset.range s.proc.numPcbs) (fun c => (s.space c).frames)
    s.phys.gPhysPageBitMap.marked
  unborn : ∀ c, s.proc.numPcbs ≤ c → (s.space c).frames = []
  unloaded : ∀ t c, (s.proc.pc t).loads = some c → (s.space c).frames = []

/-- An action of the processes takes no frames: a process it creates has none yet. -/
theorem FrameInv.proc (h : s.FrameInv) {b : ProcAction T N} (hs : s.proc.next b = .next s'.proc)
    (hphys : s'.phys = s.phys) (hspace : s'.space = s.space) : s'.FrameInv := by
  obtain ⟨hloader, hold⟩ := h.loader.next hs
  have hnum : s'.proc.numPcbs = s.proc.numPcbs ∨ s'.proc.numPcbs = s.proc.numPcbs + 1 := by
    rcases ProcState.next_table hs with hf | ⟨t, name, slot, -, -, -, -, hf⟩ | ⟨t, cur, -, -, hr⟩
    · exact .inl hf.numPcbs
    · exact .inr hf.numPcbs
    · obtain ⟨c, bm, -, -, -, -, heq⟩ := ProcState.remove_cases hr
      exact .inl (by rw [heq]; rfl)
  refine ⟨hloader, ?_, fun c hc => ?_, fun t c hc => ?_⟩
  · rw [hphys, hspace]
    rcases hnum with hnum | hnum
    · rw [hnum]; exact h.owned
    · -- A new owner that takes no frames.
      have htake := h.owned.take (k := s.proc.numPcbs) (l := [])
        (fun hmem => absurd hmem (by simp)) .nil (by simp)
      rw [hnum, Finset.range_add_one]
      have hempty := h.unborn s.proc.numPcbs le_rfl
      rw [List.toFinset_nil, Finset.union_empty] at htake
      refine htake.congr fun c _ => ?_
      by_cases hc : c = s.proc.numPcbs
      · rw [hc, update_self, hempty]
      · rw [update_of_ne hc]
  · rw [hspace]
    exact h.unborn c (by omega)
  · rw [hspace]
    rcases hold t c hc with ⟨w, hw⟩ | rfl
    · exact h.unloaded w c hw
    · exact h.unborn _ le_rfl

/-- `Load` takes free frames for a process that has none. -/
theorem FrameInv.load (h : s.FrameInv) {t : T} {c : ℕ} {ok : Bool} {exe : Option HostFile}
    {junk : ℕ → UInt8} {sp : AddrSpace} (hpc : s.proc.pc t = .at (.load c))
    (hload : AddrSpace.load exe junk s.phys = some (ok, sp, s'.phys))
    (hs : s.proc.next (.load t ok) = .next s'.proc)
    (hspace : s'.space = update s.space c sp) : s'.FrameInv := by
  have hcharge : (s.proc.pc t).loads = some c := by rw [hpc]; rfl
  have hlt := h.loader.lt t c hcharge
  have hnone := h.unloaded t c hcharge
  obtain ⟨hset, hgone⟩ := h.loader.load hpc hs
  have hframes : (fun d => (s'.space d).frames)
      = update (fun d => (s.space d).frames) c sp.frames := by
    ext1 d
    rw [hspace]
    by_cases hd : d = c
    · subst hd; simp
    · simp [hd]
  refine ⟨h.loader.settles hset, ?_, fun d hd => ?_, fun u d hd => ?_⟩
  · rw [hset.numPcbs, hframes]
    rcases AddrSpace.load_cases hload with ⟨-, rfl, hphys⟩ | ⟨-, l, rfl, hl, hfresh, hmarked⟩
    · -- A failed `Load`: the process still has no frames.
      rw [hphys]
      refine h.owned.congr fun d _ => ?_
      by_cases hd : d = c
      · rw [hd, update_self, AddrSpace.frames_new, hnone]
      · rw [update_of_ne hd]
    · rw [AddrSpace.frames_ofFrames fun f hf => (hfresh f hf).1, hmarked]
      have htake := h.owned.take (k := c) (fun _ => hnone) hl fun f hf => (hfresh f hf).2
      rwa [Finset.insert_eq_of_mem (Finset.mem_range.mpr hlt)] at htake
  · rw [hset.numPcbs] at hd
    rw [hspace, update_of_ne (by omega)]
    exact h.unborn d hd
  · obtain ⟨hne, hold⟩ := hgone u d hd
    rw [hspace, update_of_ne hne]
    exact h.unloaded u d hold

theorem FrameInv.next (h : s.FrameInv) {a : SysAction T N} (hs : s.next a = .next s') :
    s'.FrameInv := by
  rcases next_cases hs with ⟨b, -, hb, hphys, hspace⟩ |
    ⟨t, file, junk, c, ok, sp, -, hpc, hload, hproc, hspace⟩
  · exact h.proc hb hphys hspace
  · exact h.load hpc hload hproc hspace

omit [DecidableEq N] in
theorem FrameInv.init {name : N} {main : T}
    (hproc : s.proc = .booted name main)
    (hbm : s.phys.gPhysPageBitMap = .new numPhysPages) (hspace : ∀ c, s.space c = .new) :
    s.FrameInv := by
  have hframes : ∀ c, (s.space c).frames = [] := fun c => by rw [hspace c]; rfl
  refine ⟨hproc ▸ .init name main, ⟨fun c _ => ?_, fun c _ d _ _ => ?_, fun f => ?_⟩,
    fun c _ => hframes c, fun t c _ => hframes c⟩
  · rw [hframes]; exact .nil
  · simp [hframes]
  · simp [hbm, Bitmap.marked_new, hframes]

/-! ### What should be marked -/

/-- A frame is marked exactly if it is in the page table of a process that has been created and
not removed. -/
def Reclaimed (s : SysState T N) : Prop :=
  ∀ f, f ∈ s.phys.gPhysPageBitMap.marked ↔
    ∃ c < s.proc.numPcbs, (s.proc.pcb c).deleted = false ∧ f ∈ (s.space c).frames

/-- The processes that have been removed had no frames. -/
def NoLeak (s : SysState T N) : Prop :=
  ∀ c < s.proc.numPcbs, (s.proc.pcb c).deleted = true → (s.space c).frames = []

/-- The processes that have been created and not removed. -/
def live (s : SysState T N) : Finset ℕ :=
  (Finset.range s.proc.numPcbs).filter fun c => (s.proc.pcb c).deleted = false

omit [DecidableEq T] [DecidableEq N] in
/-- As long as nothing leaks, the frames are owned by the processes that are left. -/
theorem FrameInv.owned_live (h : s.FrameInv) (hn : s.NoLeak) :
    Owned s.live (fun c => (s.space c).frames) s.phys.gPhysPageBitMap.marked := by
  have hmem : ∀ {c}, c ∈ s.live → c ∈ Finset.range s.proc.numPcbs := fun hc =>
    (Finset.mem_filter.mp hc).1
  refine ⟨fun c hc => h.owned.nodup c (hmem hc),
    fun c hc d hd hne => h.owned.disjoint c (hmem hc) d (hmem hd) hne, fun f => ?_⟩
  rw [h.owned.mem_used f]
  constructor
  · rintro ⟨c, hc, hf⟩
    refine ⟨c, Finset.mem_filter.mpr ⟨hc, ?_⟩, hf⟩
    by_contra hdel
    rw [hn c (Finset.mem_range.mp hc) (by simpa using hdel)] at hf
    cases hf
  · rintro ⟨c, hc, hf⟩
    exact ⟨c, hmem hc, hf⟩

omit [DecidableEq T] [DecidableEq N] in
/-- The frames of a removed process stay marked and belong to nobody else. -/
theorem FrameInv.reclaimed_iff (h : s.FrameInv) : s.Reclaimed ↔ s.NoLeak := by
  constructor
  · -- A frame of a removed process would have to be in the page table of another one.
    intro hr c hc hdel
    refine List.eq_nil_iff_forall_not_mem.mpr fun f hf => ?_
    obtain ⟨d, hd, hlive, hf'⟩ :=
      (hr f).mp ((h.owned.mem_used f).mpr ⟨c, Finset.mem_range.mpr hc, hf⟩)
    have hne : c ≠ d := by
      rintro rfl
      rw [hdel] at hlive; cases hlive
    exact h.owned.disjoint c (Finset.mem_range.mpr hc) d (Finset.mem_range.mpr hd) hne hf hf'
  · intro hn f
    rw [(h.owned_live hn).mem_used f]
    simp only [live, Finset.mem_filter, Finset.mem_range, and_assoc]

/-- The action is not the removal of a process that has a page table. -/
def noLeak (s : SysState T N) : SysAction T N → Bool
  | .proc (.run t) =>
    match s.proc.pc t with
    | .at (.remove cur) =>
      match s.proc.pcbAt cur with
      | some c => (s.space c).frames.isEmpty
      | none => true
    | _ => true
  | _ => true

omit [DecidableEq T] [DecidableEq N] in
/-- Only removals can leak. -/
theorem noLeak_of_noRemove {b : ProcAction T N} (h : s.proc.noRemove b = true) :
    s.noLeak (.proc b) = true := by
  unfold noLeak
  split
  · rename_i t heq
    cases heq
    unfold ProcState.noRemove at h
    split
    · rename_i cur hpc
      simp [hpc] at h
    · rfl
  · rfl

omit [DecidableEq T] [DecidableEq N] in
/-- `NoLeak` is kept if no process is removed and those that have been get no frames. -/
theorem NoLeak.keep (hn : s.NoLeak)
    (h : ∀ c < s'.proc.numPcbs, (s'.proc.pcb c).deleted = true →
      c < s.proc.numPcbs ∧ (s.proc.pcb c).deleted = true ∧ s'.space c = s.space c) : s'.NoLeak := by
  intro c hc hdel
  obtain ⟨hc', hdel', hspace⟩ := h c hc hdel
  rw [hspace]
  exact hn c hc' hdel'

omit [DecidableEq N] in
/-- A process removes itself: nothing leaks exactly if it had no frames. -/
theorem NoLeak.remove (hn : s.NoLeak) (htable : s.proc.TableInv) {t : T} {cur : Int}
    (hpc : s.proc.pc t = .at (.remove cur)) (hs : s.proc.remove t cur = .next s'.proc)
    (hspace : s'.space = s.space) : s'.NoLeak ↔ s.noLeak (.proc (.run t)) = true := by
  obtain ⟨c, bm, hc, -, -, -, heq⟩ := ProcState.remove_cases hs
  obtain ⟨i, rfl, hi, hpcbs⟩ := ProcState.pcbAt_eq_some hc
  have hlt : c < s.proc.numPcbs := (htable.slot_eq i c hpcbs).2.1
  have hnum : s'.proc.numPcbs = s.proc.numPcbs := by rw [heq]; rfl
  have hdel : (s'.proc.pcb c).deleted = true := by
    rw [heq]
    simp [ProcState.setPc, ProcState.setPcb]
  have hother : ∀ d, d ≠ c → (s'.proc.pcb d).deleted = (s.proc.pcb d).deleted := by
    intro d hd
    rw [heq]
    simp [ProcState.setPc, ProcState.setPcb, hd]
  have hno : s.noLeak (.proc (.run t)) = (s.space c).frames.isEmpty := by
    simp only [noLeak, hpc, hc]
  rw [hno, List.isEmpty_iff]
  constructor
  · intro hn'
    rw [← hspace]
    exact hn' c (by rw [hnum]; exact hlt) hdel
  · -- The other removed processes had been removed before.
    intro hempty d hd hdel'
    rw [hspace]
    by_cases hdc : d = c
    · rw [hdc]; exact hempty
    · exact hn d (by rw [← hnum]; exact hd) (by rw [← hother d hdc]; exact hdel')

/-- `NoLeak` survives exactly the actions that are not the removal of a process with frames. -/
theorem FrameInv.noLeak_next (h : s.FrameInv) (htable : s.proc.TableInv) (hn : s.NoLeak)
    {a : SysAction T N} (hs : s.next a = .next s') : s'.NoLeak ↔ s.noLeak a = true := by
  rcases next_cases hs with ⟨b, rfl, hb, -, hspace⟩ |
    ⟨t, file, junk, c, ok, sp, rfl, hpc, -, hproc, hspace⟩
  · by_cases hrem : s.proc.noRemove b = true
    · refine iff_of_true (hn.keep fun c hc hdel => ?_) (noLeak_of_noRemove hrem)
      rcases ProcState.next_table hb with hf | ⟨t, name, slot, -, -, -, -, hf⟩ |
        ⟨t, cur, rfl, hpc, -⟩
      · exact ⟨hf.numPcbs ▸ hc, (hf.deleted c).symm.trans hdel, by rw [hspace]⟩
      · -- The new PCB is not deleted.
        rw [hf.deleted] at hdel
        rw [hf.numPcbs] at hc
        simp only [ProcState.create] at hc hdel
        have hne : c ≠ s.proc.numPcbs := by
          rintro rfl
          simp [PCB.new] at hdel
        exact ⟨by omega, by simpa [hne] using hdel, by rw [hspace]⟩
      · simp [ProcState.noRemove, hpc] at hrem
    · obtain ⟨t, cur, rfl, hpc, hr⟩ := ProcState.next_of_remove hb (by simpa using hrem)
      exact hn.remove htable hpc hr hspace
  · -- The process that loads its program has not been removed.
    have hf : ProcState.Frame s.proc s'.proc := by
      rcases ProcState.next_table hproc with hf | ⟨_, _, _, heq, -⟩ | ⟨_, _, heq, -⟩
      · exact hf
      · cases heq
      · cases heq
    refine iff_of_true (hn.keep fun d hd hdel => ?_) rfl
    rw [hf.numPcbs] at hd
    rw [hf.deleted] at hdel
    have hne : d ≠ c := by
      rintro rfl
      rw [h.loader.deleted t d (by rw [hpc]; rfl)] at hdel
      cases hdel
    exact ⟨hd, hdel, by rw [hspace, update_of_ne hne]⟩

end SysState

/-- The processes of the kernel run as in `procSystem`. -/
theorem reachable_proc {main : T} {s : SysState T N} (h : (sysSystem T N main).Reachable s) :
    (procSystem T N main).Reachable s.proc := by
  apply h.project SysState.proc
  · exact fun s h0 => h0.1
  intro s a s' hs
  right
  rcases SysState.next_cases hs with ⟨b, -, hb, -⟩ | ⟨t, -, -, -, ok, -, -, -, -, hproc, -⟩
  · exact ⟨b, hb⟩
  · exact ⟨.load t ok, hproc⟩

theorem frame_inv {main : T} {s : SysState T N} (h : (sysSystem T N main).Reachable s) :
    s.FrameInv := by
  refine h.invariant (I := SysState.FrameInv) ?_ fun _ _ _ hi hs => hi.next hs
  rintro s ⟨⟨name, hproc⟩, hbm, hspace⟩
  exact .init hproc hbm hspace

/-- **Frames are reclaimed as long as nothing leaks.** In every state of every run in which no
process with a page table is removed, the marked frames are those of the processes that
have not been removed, and all others are free for the next `Load`. In each of these states
an action keeps it so exactly when it is not such a removal. -/
theorem frames_reclaimed_of_noLeak (main : T) (s : SysState T N)
    (h : ((sysSystem T N main).restrict fun s a => s.noLeak a).Reachable s) :
    s.Reclaimed ∧
    s.phys.gPhysPageBitMap.numClear + ∑ c ∈ s.live, (s.space c).frames.length = numPhysPages ∧
    ∀ a s', s.next a = .next s' → (s'.Reclaimed ↔ s.noLeak a = true) := by
  have hn : s.NoLeak := by
    refine h.invariant_of (I := SysState.NoLeak) ?_ ?_
    · rintro s ⟨⟨name, hproc⟩, -, hspace⟩ c - -
      rw [hspace]; rfl
    · intro s a s' hr hn hs
      obtain ⟨ha, hs⟩ := LTS.restrict_next hs
      have hfree := hr.of_restrict
      exact ((frame_inv hfree).noLeak_next (ptable_inv (reachable_proc hfree)) hn hs).mpr ha
  have hfree := h.of_restrict
  have hi := frame_inv hfree
  refine ⟨hi.reclaimed_iff.mpr hn, ?_, fun a s' hs => ?_⟩
  · rw [← (hi.owned_live hn).card_used]
    exact Bitmap.numClear_add_card _
  rw [(hi.next hs).reclaimed_iff]
  exact hi.noLeak_next (ptable_inv (reachable_proc hfree)) hn hs

theorem sysSystem_init {T : Type*} [DecidableEq T] (main : T) : (sysSystem T Bool main).init
    ⟨.booted false main, ⟨fun _ => 0, .new numPhysPages⟩, fun _ => .new⟩ :=
  ⟨⟨false, rfl⟩, rfl, fun _ => rfl⟩

/-- The run `joinRun`, with the program that consists of its stack loaded by both processes. -/
def reclaimRun : List (SysAction (Fin 2) Bool) :=
  joinRun.map fun
    | .load t _ => .load t emptyProgram fun _ => 0
    | a => .proc a

/-- The first process is loaded, executes a program and the child is loaded too. -/
theorem frames_reclaimed_of_noLeak_exec :
    ∃ s : SysState (Fin 2) Bool, s.proc.numPcbs = 2 ∧ (s.space 1).frames.length = 8 ∧
      s.Reclaimed := by
  obtain ⟨s, h, hnum, hframes⟩ :=
    ((sysSystem (Fin 2) Bool 0).restrict fun s a => s.noLeak a).reaches (sysSystem_init 0)
      (reclaimRun.take 9) (fun s => s.proc.numPcbs = 2 ∧ (s.space 1).frames.length = 8)
      (by decide +kernel)
  exact ⟨s, hnum, hframes, (frames_reclaimed_of_noLeak 0 s h).1⟩

/-- After the child has exited and been joined and removed, its frames are still marked. -/
theorem frames_leaked_after_exit :
    ¬ ∀ s : SysState (Fin 2) Bool, (sysSystem (Fin 2) Bool 0).Reachable s → s.Reclaimed := by
  intro hall
  obtain ⟨s, h, hnum, hdel, hframes⟩ :=
    (sysSystem (Fin 2) Bool 0).reaches (sysSystem_init 0) reclaimRun
      (fun s => s.proc.numPcbs = 2 ∧ (s.proc.pcb 1).deleted = true ∧
        (s.space 1).frames = [8, 9, 10, 11, 12, 13, 14, 15]) (by decide +kernel)
  -- The child is one of the processes, so its frames would have to be gone.
  have hempty := (frame_inv h).reclaimed_iff.mp (hall s h) 1 (by omega) hdel
  rw [hframes] at hempty
  cases hempty

/-- **The kernel keeps its processes apart.** However `Exec`, `Join`, `Exit` and `Load` are
interleaved: one thread at most is inside `PTable::sem`, and one inside `addrLock`; every thread
belongs to one process; and no two processes, removed or not, have a frame in common. -/
theorem processes_kept_apart (main : T) (s : SysState T N) (h : (sysSystem T N main).Reachable s) :
    (∀ l t u, (s.proc.pc t).holds l = true → (s.proc.pc u).holds l = true → t = u) ∧
    (∀ t, s.proc.pc t ≠ .unborn ↔ ∃! c, s.proc.Owner t c) ∧
    ∀ c d, c ≠ d → (s.space c).frames.Disjoint (s.space d).frames := by
  have hproc := reachable_proc h
  have hframes := frame_inv h
  refine ⟨fun l t u ht hu => ?_, fun t => ⟨fun ht => ?_, ?_⟩, fun c d hne f hc hd => ?_⟩
  · rcases (kernelLock_inv hproc l).token with ⟨-, hfree⟩ | ⟨-, v, -, hv⟩
    · rw [hfree t] at ht
      cases ht
    · rw [hv t ht, hv u hu]
  · obtain ⟨c, hc⟩ := (process_inv hproc).owned t ht
    exact ⟨c, hc, fun d hd => (process_inv hproc).unique t d c hd hc⟩
  · rintro ⟨c, hc, -⟩
    exact (process_inv hproc).born t c hc
  · -- A process that has not been created has no frames.
    have hlt : ∀ {c}, f ∈ (s.space c).frames → c ∈ Finset.range s.proc.numPcbs := by
      intro c hc
      by_contra hge
      rw [hframes.unborn c (by simpa using hge)] at hc
      cases hc
    exact hframes.owned.disjoint c (hlt hc) d (hlt hd) hne hc hd

/-- After two programs have been loaded, their frames are different. -/
theorem processes_kept_apart_exec : ∃ s : SysState (Fin 2) Bool, (s.space 1).frames.length = 8 ∧
    (s.space 0).frames.length = 8 ∧ (s.space 0).frames.Disjoint (s.space 1).frames := by
  obtain ⟨s, hs, hone, hzero⟩ :=
    (sysSystem (Fin 2) Bool 0).reaches (sysSystem_init 0) (reclaimRun.take 9)
    (fun s => (s.space 1).frames.length = 8 ∧ (s.space 0).frames.length = 8) (by decide +kernel)
  exact ⟨s, hone, hzero, (processes_kept_apart 0 s hs).2.2 0 1 (by decide)⟩

end Nachos.UserProg
