import Nachos.Threads.ProcessCount

namespace Nachos.Threads

open Base Lib Function

/-!
# Threads — processes and their threads

A process is a PCB that has not been deleted, and it runs as the thread its PCB points to.
`ProcState.Owner` is this relation; `ProcState.ProcInv` says that it is one to one between the
threads that exist and the processes that have got a thread, what the PCB of a process holds, and
what a thread inside `ExecUpdate` or `ExitUpdate` may rely on (`ProcState.PointOk`).

The table itself does not have this property: `pcbs` keeps the PCBs of removed processes, so
`GetCurrentThreadId` can meet the address of a thread in an entry that is not that of its process
(`getCurrentThreadId_spec`).
-/

variable {T N : Type*}

theorem ProcPc.point_eq_none_iff (q : ProcPc N) : q.point = none ↔ q = .unborn := by
  cases q <;> simp [point]

/-- What a PCB holds before and after it gets its thread. -/
structure PCB.Filled (p : PCB T N) : Prop where
  started : p.thread ≠ none → p.file ≠ none ∧ p.pid = p.slot
  unstarted : p.thread = none → p.pid = -1

theorem PCB.Filled.congr {p q : PCB T N} (h : p.Filled) (hid : q.identity = p.identity)
    (hslot : q.slot = p.slot) : q.Filled := by
  simp only [PCB.identity, Prod.mk.injEq] at hid
  obtain ⟨hfile, hthread, hpid, -⟩ := hid
  constructor
  · rw [hthread, hfile, hpid, hslot]
    exact h.started
  · rw [hthread, hpid]
    exact h.unstarted

namespace ProcState

variable {s s' : ProcState T N} {t : T}

/-- The process with the PCB `me` exists and runs as the thread `t`. -/
structure Owner (s : ProcState T N) (t : T) (me : ℕ) : Prop where
  lt : me < s.numPcbs
  deleted : (s.pcb me).deleted = false
  thread : (s.pcb me).thread = some t

/-- The PCB `c` is the one that `t` has put into the entry `slot`, for a child of its process. -/
structure Created (s : ProcState T N) (t : T) (c slot : ℕ) : Prop where
  slot_ne : slot ≠ 0
  pcbs : s.pcbs slot = some c
  parent : ∃ me, s.Owner t me ∧ (s.pcb c).parentID = (s.pcb me).pid

/-- What the code at a point relies on. -/
def PointOk (s : ProcState T N) (t : T) : Point N → Prop
  | .fork c slot _ =>
    s.Created t c slot ∧ (s.pcb c).thread = none ∧ (s.pcb c).deleted = false
  | .forked c slot => s.Created t c slot ∧ (s.pcb c).pid = slot
  | .execDone slot => ∃ c, s.Created t c slot ∧ (s.pcb c).pid = slot
  | .exitWait cur => cur ≠ 0
  | .remove cur => cur ≠ 0
  | _ => True

/-- The threads that exist are the processes that have a thread. -/
structure OwnerInv (s : ProcState T N) : Prop where
  owned : ∀ t, s.pc t ≠ .unborn → ∃ me, s.Owner t me
  born : ∀ t me, s.Owner t me → s.pc t ≠ .unborn
  unique : ∀ t me me', s.Owner t me → s.Owner t me' → me = me'

/-- The PCBs hold what they should, and the first process stays. -/
structure PcbInv (s : ProcState T N) : Prop where
  filled : ∀ c < s.numPcbs, (s.pcb c).Filled
  first : 0 < s.numPcbs ∧ (s.pcb 0).deleted = false ∧ (s.pcb 0).slot = 0

/-- Threads, processes and what the threads rely on. -/
structure ProcInv (s : ProcState T N) : Prop extends OwnerInv s, PcbInv s where
  point : ∀ t k, (s.pc t).point = some k → s.PointOk t k

/-! ### What the invariant says about the table -/

/-- What `GetCurrentThreadId` returns: the number of an entry whose PCB points to the thread, or
-1 if there is none. -/
theorem getCurrentThreadId_spec [DecidableEq T] (h : s.ProcInv) (ht : s.TableInv) (t : T) :
    s.getCurrentThreadId t = -1 ∨
    ∃ c, s.pcbAt (s.getCurrentThreadId t) = some c ∧ c < s.numPcbs ∧
      (s.pcb c).thread = some t ∧ (s.pcb c).pid = s.getCurrentThreadId t := by
  obtain ⟨o, hfind, hid⟩ : ∃ o, (List.range maxProcesses).findSome? _ = o ∧
      s.getCurrentThreadId t = o.getD (-1) := ⟨_, rfl, rfl⟩
  cases o with
  | none => exact .inl hid
  | some pid =>
    right
    rw [Option.getD_some] at hid
    obtain ⟨i, hi, hmatch⟩ := List.exists_of_findSome?_eq_some hfind
    rw [List.mem_range] at hi
    split at hmatch
    · cases hmatch
    · rename_i c hc
      split at hmatch
      · rename_i hthread
        obtain ⟨-, hlt, hslot⟩ := ht.slot_eq i c hc
        have hpid : (s.pcb c).pid = (i : Int) := by
          rw [((h.filled c hlt).started (by rw [hthread]; simp)).2, hslot]
        have hpid' : (s.pcb c).pid = pid := Option.some.inj hmatch
        refine ⟨c, ?_, hlt, hthread, ?_⟩
        · rw [hid, ← hpid', hpid]
          have : (0 : Int) ≤ i ∧ (i : Int) < maxProcesses := ⟨by omega, by omega⟩
          simp [pcbAt, this, hc]
        · rw [hid, hpid']
      · cases hmatch

/-- The entry of a process that has a thread is at its id. -/
theorem Owner.pcbAt_pid {me : ℕ} (hme : s.Owner t me) (h : s.ProcInv) (ht : s.TableInv) :
    s.pcbAt (s.pcb me).pid = some me := by
  have hpcbs := ht.pcbs_slot me hme.lt hme.deleted
  have hlt := (ht.slot_eq _ _ hpcbs).1
  rw [((h.filled me hme.lt).started (by rw [hme.thread]; simp)).2]
  have : (0 : Int) ≤ (s.pcb me).slot ∧ ((s.pcb me).slot : Int) < maxProcesses :=
    ⟨by omega, by omega⟩
  simp [pcbAt, this, hpcbs]

/-- A process that exists is in the entry at its id. -/
theorem ProcInv.pcbs_of_pid (h : s.ProcInv) (ht : s.TableInv) {slot d : ℕ} (hd : d < s.numPcbs)
    (hdel : (s.pcb d).deleted = false) (hpid : (s.pcb d).pid = slot) : s.pcbs slot = some d := by
  have hthread : (s.pcb d).thread ≠ none := by
    intro hnone
    have := (h.filled d hd).unstarted hnone
    omega
  have hslot : (s.pcb d).slot = slot := by
    have := ((h.filled d hd).started hthread).2
    omega
  rw [← hslot]
  exact ht.pcbs_slot d hd hdel

/-! ### The invariant along the steps -/

theorem Keeps.owner (hk : Keeps s s') {me : ℕ} : s'.Owner t me ↔ s.Owner t me := by
  constructor
  · rintro ⟨hlt, hdel, hthread⟩
    exact ⟨hk.numPcbs ▸ hlt, (hk.deleted me).symm.trans hdel, (hk.thread me).symm.trans hthread⟩
  · rintro ⟨hlt, hdel, hthread⟩
    exact ⟨hk.numPcbs ▸ hlt, (hk.deleted me).trans hdel, (hk.thread me).trans hthread⟩

/-- What the code at a point relies on stays, if the table, the process of the thread and the
identity of all others do, and no process without a thread goes. -/
theorem PointOk.mono {k : Point N} (h : s.PointOk t k) (hpcbs : s'.pcbs = s.pcbs)
    (hid : ∀ c, (s'.pcb c).identity = (s.pcb c).identity)
    (howner : ∀ me, s.Owner t me → s'.Owner t me)
    (hdeleted : ∀ c, (s.pcb c).thread = none → (s'.pcb c).deleted = (s.pcb c).deleted) :
    s'.PointOk t k := by
  simp only [PCB.identity, Prod.mk.injEq] at hid
  have hpid : ∀ c, (s'.pcb c).pid = (s.pcb c).pid := fun c => (hid c).2.2.1
  have hcreated : ∀ {c slot}, s.Created t c slot → s'.Created t c slot := by
    rintro c slot ⟨hslot, hc, me, hme, hparent⟩
    refine ⟨hslot, by rw [hpcbs]; exact hc, me, howner me hme, ?_⟩
    rw [(hid c).2.2.2, hpid]
    exact hparent
  cases k with
  | fork c slot name =>
    obtain ⟨hc, hthread, hdel⟩ := h
    exact ⟨hcreated hc, (hid c).2.1.trans hthread, (hdeleted c hthread).trans hdel⟩
  | forked c slot => exact ⟨hcreated h.1, (hpid c).trans h.2⟩
  | execDone slot =>
    obtain ⟨c, hc, hpid'⟩ := h
    exact ⟨c, hcreated hc, (hpid c).trans hpid'⟩
  | exitWait cur => exact h
  | remove cur => exact h
  | _ => trivial

/-- Outside the creation of a process nothing is relied on that could change. -/
theorem PointOk.of_not_creating {k : Point N} (h : s.PointOk t k) (hk : k.creating = false) :
    s'.PointOk t k := by
  cases k with
  | fork c slot name => cases hk
  | forked c slot => cases hk
  | execDone slot => cases hk
  | exitWait cur => exact h
  | remove cur => exact h
  | _ => trivial

/-- The processes stay, and so do the threads; some of them move. -/
theorem ProcInv.keeps (h : s.ProcInv) (hk : Keeps s s')
    (hborn : ∀ u, s'.pc u = .unborn ↔ s.pc u = .unborn)
    (hpoint : ∀ u k, (s'.pc u).point = some k → s.PointOk u k) : s'.ProcInv where
  owned u hu := by
    obtain ⟨me, hme⟩ := h.owned u fun hu' => hu ((hborn u).mpr hu')
    exact ⟨me, hk.owner.mpr hme⟩
  born u me hme hu := h.born u me (hk.owner.mp hme) ((hborn u).mp hu)
  unique u me me' hme hme' := h.unique u me me' (hk.owner.mp hme) (hk.owner.mp hme')
  filled c hc := (h.filled c (hk.numPcbs ▸ hc)).congr (hk.identity c) (hk.slot c)
  first := by
    rw [hk.numPcbs, hk.deleted, hk.slot]
    exact h.first
  point u k hu := (hpoint u k hu).mono hk.pcbs hk.identity (fun _ => hk.owner.mpr) fun c _ =>
    hk.deleted c

/-- A thread goes from one point to the next, and the processes stay. -/
theorem ProcInv.move (h : s.ProcInv) (hk : Keeps s s') (hold : s.pc t ≠ .unborn)
    (hother : ∀ u, u ≠ t → (s.pc u).Moved (s'.pc u)) {k : Point N}
    (hpoint : (s'.pc t).point = some k) (hok : s.PointOk t k) : s'.ProcInv := by
  refine h.keeps hk (fun u => ?_) (fun u k' hk' => ?_)
  · rw [← ProcPc.point_eq_none_iff, ← ProcPc.point_eq_none_iff]
    by_cases hut : u = t
    · subst hut
      rw [hpoint, ProcPc.point_eq_none_iff]
      exact ⟨by simp, fun hu => absurd hu hold⟩
    · rw [(hother u hut).point]
  · by_cases hut : u = t
    · subst hut
      obtain rfl : k = k' := Option.some.inj (hpoint.symm.trans hk')
      exact hok
    · rw [(hother u hut).point] at hk'
      exact h.point u k' hk'

/-- Who calls `P` may go on behind it. -/
theorem ProcInv.acquires (h : s.ProcInv) {r : SemRef} {k : Point N}
    (hq : Acquires (s.pc t) r k) : s.pc t ≠ .unborn ∧ s.PointOk t k := by
  have hpoint : ∀ k', (s.pc t).point = some k' → s.PointOk t k' := h.point t
  generalize s.pc t = q at hq hpoint
  cases hq with
  | exitWait c cur => exact ⟨by simp, (hpoint (.exitWait cur) rfl : cur ≠ 0)⟩
  | resume r k => exact ⟨by simp, hpoint k rfl⟩
  | _ => exact ⟨by simp, trivial⟩

/-- Who calls `V` may go on behind it. -/
theorem ProcInv.releases (h : s.ProcInv) {r : SemRef} {k : Point N}
    (hq : Releases (s.pc t) r k) : s.pc t ≠ .unborn ∧ s.PointOk t k := by
  have hpoint : ∀ k', (s.pc t).point = some k' → s.PointOk t k' := h.point t
  generalize s.pc t = q at hq hpoint
  cases hq with
  | forked c slot => exact ⟨by simp, c, hpoint _ rfl⟩
  | callExit c hcur => exact ⟨by simp, hcur⟩
  | _ => exact ⟨by simp, trivial⟩

/-- While a thread is inside the lock of the table and not creating, nobody is. -/
theorem not_creating (hl : s.LockInv .table) (ht : (s.pc t).holds .table = true)
    (hcreating : (s.pc t).creating = false) {u : T} {k : Point N}
    (hk : (s.pc u).point = some k) : k.creating = false := by
  rw [← ProcPc.creating_of_point hk]
  by_cases hut : u = t
  · rw [hut]
    exact hcreating
  · exact hl.not_creating_of_ne ht hut

/-- The caller's process, as `ExecUpdate` finds it. -/
theorem owner_of_pcbAt [DecidableEq T] (h : s.ProcInv) (ht : s.TableInv) {me : ℕ}
    (hme : s.pcbAt (s.getCurrentThreadId t) = some me) (hdel : (s.pcb me).deleted = false) :
    s.Owner t me ∧ (s.pcb me).pid = s.getCurrentThreadId t := by
  rcases getCurrentThreadId_spec h ht t with hnone | ⟨c, hc, hlt, hthread, hpid⟩
  · rw [hnone] at hme
    cases hme
  · obtain rfl : c = me := Option.some.inj (hc.symm.trans hme)
    exact ⟨⟨hlt, hdel, hthread⟩, hpid⟩

/-- Entry 0 belongs to the first process for ever. -/
theorem ProcInv.mem_marked_zero (h : s.ProcInv) (ht : s.TableInv) : 0 ∈ s.slotManager.marked := by
  obtain ⟨hlt, hdel, hslot⟩ := h.first
  have hpcbs := ht.pcbs_slot 0 hlt hdel
  rw [hslot] at hpcbs
  exact (ht.mem_marked 0).mpr ⟨0, hpcbs, hdel⟩

theorem create_pcb (s : ProcState T N) (bm : Bitmap maxProcesses) (slot : ℕ) (cur : Int) {d : ℕ}
    (hd : d < s.numPcbs) : (s.create bm slot cur).pcb d = s.pcb d := by
  simp [create, hd.ne]

/-- A new PCB has no thread yet. -/
theorem create_owner_iff (s : ProcState T N) (bm : Bitmap maxProcesses) (slot : ℕ) (cur : Int)
    {me : ℕ} : (s.create bm slot cur).Owner t me ↔ s.Owner t me := by
  constructor
  · rintro ⟨hlt, hdel, hthread⟩
    rcases Nat.lt_succ_iff_lt_or_eq.mp hlt with hme | rfl
    · rw [create_pcb s bm slot cur hme] at hdel hthread
      exact ⟨hme, hdel, hthread⟩
    · simp [create, PCB.new] at hthread
  · rintro ⟨hlt, hdel, hthread⟩
    refine ⟨Nat.lt_succ_of_lt hlt, ?_, ?_⟩
    · rw [create_pcb s bm slot cur hlt]; exact hdel
    · rw [create_pcb s bm slot cur hlt]; exact hthread

/-- A PCB is added while nobody else is creating one. -/
theorem ProcInv.create (h : s.ProcInv) (bm : Bitmap maxProcesses) (slot : ℕ) (cur : Int)
    (hpoint : ∀ u k, (s.pc u).point = some k → k.creating = false) :
    (s.create bm slot cur).ProcInv where
  owned u hu := by
    obtain ⟨me, hme⟩ := h.owned u hu
    exact ⟨me, (create_owner_iff s bm slot cur).mpr hme⟩
  born u me hme := h.born u me ((create_owner_iff s bm slot cur).mp hme)
  unique u me me' hme hme' := h.unique u me me' ((create_owner_iff s bm slot cur).mp hme)
    ((create_owner_iff s bm slot cur).mp hme')
  filled c hc := by
    rcases Nat.lt_succ_iff_lt_or_eq.mp hc with hc | rfl
    · rw [create_pcb s bm slot cur hc]
      exact h.filled c hc
    · constructor <;> simp [ProcState.create, PCB.new]
  first := by
    obtain ⟨hlt, hdel, hslot⟩ := h.first
    rw [create_pcb s bm slot cur hlt]
    exact ⟨Nat.lt_succ_of_lt hlt, hdel, hslot⟩
  point u k hk := (h.point u k hk).of_not_creating (hpoint u k hk)

/-- The new PCB is what the code behind `ExecUpdate` relies on. -/
theorem pointOk_create (h : s.ProcInv) (ht : s.TableInv) {slot me : ℕ} {cur : Int}
    (hclear : slot ∉ s.slotManager.marked) (hme : s.Owner t me) (hpid : (s.pcb me).pid = cur)
    (name : N) :
    (s.create (s.slotManager.setBit slot) slot cur).PointOk t (.fork s.numPcbs slot name) := by
  refine ⟨⟨?_, ?_, me, (create_owner_iff s _ slot cur).mpr hme, ?_⟩, ?_, ?_⟩
  · rintro rfl
    exact hclear (h.mem_marked_zero ht)
  · simp [ProcState.create]
  · simp [ProcState.create, hme.lt.ne, hpid]
  · simp [ProcState.create, PCB.new]
  · simp [ProcState.create, PCB.new]

/-! ### A process gets its thread -/

section Fork

variable {u : T} {c slot : ℕ} {name : N}

theorem Owner.ne_of_thread {me : ℕ} (h : s.Owner t me) (hthread : (s.pcb c).thread = none) :
    me ≠ c := by
  rintro rfl
  rw [h.thread] at hthread
  cases hthread

variable [DecidableEq T] [DecidableEq N]

theorem fork_pcb (hs : s.fork t u c slot name = .next s') :
    s'.pcb c = { s.pcb c with pid := slot, file := some name, thread := some u } ∧
    (∀ d, d ≠ c → s'.pcb d = s.pcb d) ∧ s'.numPcbs = s.numPcbs ∧ s'.pcbs = s.pcbs := by
  obtain ⟨-, rfl⟩ := fork_cases hs
  refine ⟨by simp [setPc, setPcb], fun d hd => by simp [setPc, setPcb, hd], rfl, rfl⟩

/-- What a `Fork` does to the threads. -/
theorem fork_pc (hpc : s.pc t ≠ .unborn) (hs : s.fork t u c slot name = .next s') :
    s'.pc t = .at (.forked c slot) ∧ s'.pc u = .at (.start c) ∧
      ∀ w, w ≠ t → w ≠ u → s'.pc w = s.pc w := by
  obtain ⟨hu, rfl⟩ := fork_cases hs
  have hut : u ≠ t := by
    rintro rfl
    exact hpc hu
  exact ⟨by simp [setPc], by simp [setPc, hut],
    fun w hwt hwu => by simp [setPc, setPcb, hwt, hwu]⟩

/-- Afterwards the new thread runs the new process. -/
theorem fork_owner_iff (hs : s.fork t u c slot name = .next s') (hlt : c < s.numPcbs)
    (hthread : (s.pcb c).thread = none) (hdel : (s.pcb c).deleted = false) {w : T} {m : ℕ} :
    s'.Owner w m ↔ w = u ∧ m = c ∨ s.Owner w m := by
  obtain ⟨hnew, hold, hnum, -⟩ := fork_pcb hs
  by_cases hmc : m = c
  · subst hmc
    constructor
    · intro hm
      have hw := hm.thread
      rw [hnew] at hw
      exact .inl ⟨(Option.some.inj hw).symm, rfl⟩
    · rintro (⟨rfl, -⟩ | hm)
      · exact ⟨hnum ▸ hlt, by rw [hnew]; exact hdel, by rw [hnew]⟩
      · exact absurd rfl (hm.ne_of_thread hthread)
  · constructor
    · rintro ⟨h1, h2, h3⟩
      rw [hold m hmc] at h2 h3
      exact .inr ⟨hnum ▸ h1, h2, h3⟩
    · rintro (⟨-, rfl⟩ | ⟨h1, h2, h3⟩)
      · exact absurd rfl hmc
      · exact ⟨hnum ▸ h1, by rw [hold m hmc]; exact h2, by rw [hold m hmc]; exact h3⟩

theorem OwnerInv.fork (h : s.OwnerInv) (hpc : s.pc t ≠ .unborn)
    (hs : s.fork t u c slot name = .next s') (hlt : c < s.numPcbs)
    (hthread : (s.pcb c).thread = none) (hdel : (s.pcb c).deleted = false) : s'.OwnerInv := by
  obtain ⟨hpct, hpcu, hother⟩ := fork_pc hpc hs
  have howner := @fork_owner_iff _ _ _ _ _ _ _ _ _ _ _ hs hlt hthread hdel
  have hnone : ∀ m, ¬ s.Owner u m := fun m hm => h.born u m hm (fork_cases hs).1
  refine ⟨fun w hw => ?_, fun w m hm => ?_, fun w m m' hm hm' => ?_⟩
  · by_cases hwu : w = u
    · exact ⟨c, howner.mpr (.inl ⟨hwu, rfl⟩)⟩
    · obtain ⟨m, hm⟩ := h.owned w fun hw' => by
        by_cases hwt : w = t
        · exact hpc (hwt ▸ hw')
        · exact hw ((hother w hwt hwu).trans hw')
      exact ⟨m, howner.mpr (.inr hm)⟩
  · by_cases hwt : w = t
    · rw [hwt, hpct]
      simp
    · by_cases hwu : w = u
      · rw [hwu, hpcu]
        simp
      · rw [hother w hwt hwu]
        rcases howner.mp hm with ⟨hwu', -⟩ | hm
        · exact absurd hwu' hwu
        · exact h.born w m hm
  · rcases howner.mp hm with ⟨rfl, rfl⟩ | hm
    · rcases howner.mp hm' with ⟨-, rfl⟩ | hm'
      · rfl
      · exact absurd hm' (hnone m')
    · rcases howner.mp hm' with ⟨rfl, rfl⟩ | hm'
      · exact absurd hm (hnone m)
      · exact h.unique w m m' hm hm'

theorem PcbInv.fork (h : s.PcbInv) (hs : s.fork t u c slot name = .next s')
    (hslot : (s.pcb c).slot = slot) : s'.PcbInv := by
  obtain ⟨hnew, hold, hnum, -⟩ := fork_pcb hs
  refine ⟨fun d hd => ?_, ?_⟩
  · by_cases hdc : d = c
    · subst hdc
      rw [hnew]
      exact ⟨fun _ => ⟨by simp, congrArg Nat.cast hslot.symm⟩, nofun⟩
    · rw [hold d hdc]
      exact h.filled d (hnum ▸ hd)
  · obtain ⟨hlt, hdel, hslot0⟩ := h.first
    rw [hnum]
    by_cases hc : 0 = c
    · subst hc
      rw [hnew]
      exact ⟨hlt, hdel, hslot0⟩
    · rw [hold 0 hc]
      exact ⟨hlt, hdel, hslot0⟩

/-- The new thread belongs to the new process, whose creator goes on. -/
theorem ProcInv.fork (h : s.ProcInv) (ht : s.TableInv) (hl : s.LockInv .table)
    (hpc : s.pc t = .at (.fork c slot name)) (hs : s.fork t u c slot name = .next s') :
    s'.ProcInv := by
  obtain ⟨hcreated, hthread, hdel⟩ : s.PointOk t (.fork c slot name) :=
    h.point t _ (by rw [hpc]; rfl)
  obtain ⟨-, hlt, hslot⟩ := ht.slot_eq slot c hcreated.pcbs
  have hborn : s.pc t ≠ .unborn := by rw [hpc]; simp
  refine ⟨h.toOwnerInv.fork hborn hs hlt hthread hdel, h.toPcbInv.fork hs hslot, fun w k hk => ?_⟩
  obtain ⟨hnew, hold, -, hpcbs⟩ := fork_pcb hs
  obtain ⟨hpct, hpcu, hother⟩ := fork_pc hborn hs
  by_cases hwt : w = t
  · -- The creator's own PCB is another one.
    subst hwt
    rw [hpct] at hk
    cases hk
    obtain ⟨me, hme, hparent⟩ := hcreated.parent
    refine ⟨⟨hcreated.slot_ne, hpcbs ▸ hcreated.pcbs, me, ?_, ?_⟩, by rw [hnew]⟩
    · exact (fork_owner_iff hs hlt hthread hdel).mpr (.inr hme)
    · rw [hnew, hold me (hme.ne_of_thread hthread)]
      exact hparent
  · by_cases hwu : w = u
    · subst hwu
      rw [hpcu] at hk
      cases hk
      trivial
    · -- The lock keeps the other threads out of the creation of a process.
      rw [hother w hwt hwu] at hk
      refine (h.point w k hk).of_not_creating ?_
      rw [← ProcPc.creating_of_point hk]
      by_contra hw
      rw [Bool.not_eq_false] at hw
      exact hwt (hl.eq_of_holds (t := t) (by rw [hpc]; rfl) (hl.holds_of_creating hw))

end Fork

/-! ### A process is removed -/

section Remove

variable {cur : Int} {c : ℕ}

/-- What a removal does to the processes and the threads. -/
theorem remove_spec [DecidableEq T] (hs : s.remove t cur = .next s') :
    ∃ c, s.pcbAt cur = some c ∧ (s.pcb c).deleted = false ∧ (s.pcb c).thread = some t ∧
      s'.pcb = update s.pcb c { s.pcb c with deleted := true } ∧
      s'.numPcbs = s.numPcbs ∧ s'.pcbs = s.pcbs ∧ s'.pc = update s.pc t .unborn := by
  obtain ⟨c, bm, hc, -, hdel, hthread, rfl⟩ := remove_cases hs
  exact ⟨c, hc, hdel, hthread, rfl, rfl, rfl, rfl⟩

theorem Owner.ne_of_ne {w : T} {m : ℕ} (hm : s.Owner w m) (hc : s.Owner t c) (hwt : w ≠ t) :
    m ≠ c := by
  rintro rfl
  exact hwt (Option.some.inj (hm.thread.symm.trans hc.thread))

section Delete

variable (hpcb : s'.pcb = update s.pcb c { s.pcb c with deleted := true })
  (hnum : s'.numPcbs = s.numPcbs)

include hpcb hnum

/-- The other processes stay. -/
theorem delete_owner_iff {w : T} {m : ℕ} : s'.Owner w m ↔ s.Owner w m ∧ m ≠ c := by
  by_cases hmc : m = c
  · subst hmc
    constructor
    · intro hm
      have hdel := hm.deleted
      simp [hpcb] at hdel
    · exact fun hm => absurd rfl hm.2
  · have hold : s'.pcb m = s.pcb m := by rw [hpcb, update_of_ne hmc]
    constructor
    · rintro ⟨h1, h2, h3⟩
      rw [hold] at h2 h3
      exact ⟨⟨hnum ▸ h1, h2, h3⟩, hmc⟩
    · rintro ⟨⟨h1, h2, h3⟩, -⟩
      exact ⟨hnum ▸ h1, by rw [hold]; exact h2, by rw [hold]; exact h3⟩

theorem OwnerInv.remove [DecidableEq T] (h : s.OwnerInv) (hown : s.Owner t c)
    (hpc : s'.pc = update s.pc t .unborn) : s'.OwnerInv := by
  refine ⟨fun w hw => ?_, fun w m hm => ?_, fun w m m' hm hm' => ?_⟩
  · have hwt : w ≠ t := by
      rintro rfl
      exact hw (by rw [hpc, update_self])
    rw [hpc, update_of_ne hwt] at hw
    obtain ⟨m, hm⟩ := h.owned w hw
    exact ⟨m, (delete_owner_iff hpcb hnum).mpr ⟨hm, hm.ne_of_ne hown hwt⟩⟩
  · obtain ⟨hm, hmc⟩ := (delete_owner_iff hpcb hnum).mp hm
    have hwt : w ≠ t := by
      rintro rfl
      exact hmc (h.unique w m c hm hown)
    rw [hpc, update_of_ne hwt]
    exact h.born w m hm
  · exact h.unique w m m' ((delete_owner_iff hpcb hnum).mp hm).1
      ((delete_owner_iff hpcb hnum).mp hm').1

theorem PcbInv.remove (h : s.PcbInv) (hc : 0 ≠ c) : s'.PcbInv := by
  refine ⟨fun d hd => ?_, ?_⟩
  · rw [hpcb]
    exact (h.filled d (hnum ▸ hd)).congr (apply_update_of_eq PCB.identity (by rfl) d)
      (apply_update_of_eq PCB.slot (by rfl) d)
  · rw [hnum, hpcb, update_of_ne hc]
    exact h.first

end Delete

/-- The thread of a removed process is gone with it. -/
theorem ProcInv.remove [DecidableEq T] (h : s.ProcInv) (ht : s.TableInv)
    (hpc : s.pc t = .at (.remove cur)) (hs : s.remove t cur = .next s') : s'.ProcInv := by
  have hcur : cur ≠ 0 := h.point t (.remove cur) (by rw [hpc]; rfl)
  obtain ⟨c, hc, hdel, hthread, hpcb, hnum, hpcbs, hpc'⟩ := remove_spec hs
  obtain ⟨i, rfl, -, hentry⟩ := pcbAt_eq_some hc
  obtain ⟨-, hlt, hslot⟩ := ht.slot_eq i c hentry
  have hown : s.Owner t c := ⟨hlt, hdel, hthread⟩
  have hc0 : 0 ≠ c := by
    rintro rfl
    rw [h.first.2.2] at hslot
    exact hcur (congrArg Nat.cast hslot.symm)
  refine ⟨h.toOwnerInv.remove hpcb hnum hown hpc', h.toPcbInv.remove hpcb hnum hc0,
    fun w k hk => ?_⟩
  have hwt : w ≠ t := by
    rintro rfl
    rw [hpc', update_self] at hk
    cases hk
  rw [hpc', update_of_ne hwt] at hk
  -- The other threads lose nothing that they rely on.
  refine (h.point w k hk).mono hpcbs (fun d => ?_) (fun me hme => ?_) fun d hd => ?_
  · rw [hpcb]
    exact apply_update_of_eq PCB.identity (by rfl) d
  · exact (delete_owner_iff hpcb hnum).mpr ⟨hme, hme.ne_of_ne hown hwt⟩
  · rw [hpcb, update_of_ne (hown.ne_of_thread hd).symm]

end Remove

/-! ### Every reachable state -/

variable [DecidableEq T]

/-- The invariant survives every step. -/
theorem ProcInv.step [DecidableEq N] (h : s.ProcInv) (ht : s.TableInv) (hl : s.LockInv .table)
    {a : ProcAction T N} (hs : Step s a s') : s'.ProcInv := by
  cases hs with
  | quiet hp =>
    refine h.keeps hp.toKeeps (fun u => ?_) (fun u k hk => ?_)
    · rw [hp.pc]
    · rw [hp.pc] at hk
      exact h.point u k hk
  | @acquire t r k hq hp =>
    obtain ⟨hborn, hok⟩ := h.acquires hq
    exact h.move (p_keeps hp) hborn (fun u hu => .inl ((p_pc hp).2 u hu)) (p_point hp) hok
  | @release t r k s₁ hprep hq hv =>
    obtain ⟨hborn, hok⟩ := h.releases hq
    have hother := (v_pc hv).2
    rw [hprep.pc] at hother
    exact h.move (hprep.toKeeps.trans (v_keeps hv)) hborn hother (v_point hv) hok
  | @returned t id child s₁ hprep hpc hs =>
    subst hs
    refine h.move (t := t) (k := .user) (hprep.toKeeps.setPc t _) ?_ (fun u hu => .inl ?_) ?_ ?_
    · rw [hpc]; simp
    · simp [setPc, hu, hprep.pc]
    · simp [setPc]
    · trivial
  | @create t name me slot _ hpc hme hdel hlt hclear hp =>
    obtain ⟨hown, hpid⟩ := owner_of_pcbAt h ht hme hdel
    have hcreating : ∀ u k, (s.pc u).point = some k → k.creating = false :=
      fun u k hk => not_creating hl (t := t) (by rw [hpc]; rfl) (by rw [hpc]; rfl) hk
    refine (h.create _ slot _ hcreating).move (p_keeps hp) ?_ (fun u hu => .inl ((p_pc hp).2 u hu))
      (p_point hp) (pointOk_create h ht hclear hown hpid name)
    show s.pc t ≠ .unborn
    rw [hpc]
    simp
  | fork _ hpc hf => exact h.fork ht hl hpc hf
  | @execDone t slot _ hpc hv =>
    refine h.move (t := t) (k := .user) (execDone_keeps hv) ?_ (v_pc hv).2 (v_point hv) trivial
    rw [hpc]
    simp
  | remove _ hpc hr => exact h.remove ht hpc hr

/-- At the start the main thread runs the first process. -/
theorem ProcInv.init (name : N) (main : T) :
    (booted name main).ProcInv := by
  have hlt : ∀ c < (booted name main).numPcbs, c = 0 := fun c => Nat.lt_one_iff.mp
  have hpc : ∀ t, (booted name main).pc t ≠ .unborn ↔ t = main := by
    intro t
    rw [booted_pc]
    split <;> simp_all
  refine ⟨⟨fun t ht => ?_, fun t me hme => ?_, fun t me me' hme hme' => ?_⟩,
    ⟨fun c hc => ?_, ?_⟩, fun t k hk => ?_⟩
  · obtain rfl := (hpc t).mp ht
    exact ⟨0, Nat.one_pos, rfl, rfl⟩
  · obtain rfl := hlt me hme.lt
    exact (hpc t).mpr (Option.some.inj hme.thread).symm
  · rw [hlt me hme.lt, hlt me' hme'.lt]
  · obtain rfl := hlt c hc
    exact ⟨fun _ => ⟨Option.some_ne_none _, rfl⟩, nofun⟩
  · exact ⟨Nat.one_pos, rfl, rfl⟩
  · rw [booted_pc] at hk
    split at hk <;> cases hk
    trivial

end ProcState

/-- **Threads and processes are one to one**, in every reachable state. -/
theorem process_inv [DecidableEq T] [DecidableEq N] {main : T} {s : ProcState T N}
    (h : (procSystem T N main).Reachable s) : s.ProcInv := by
  refine h.invariant_of (I := ProcState.ProcInv) ?_ ?_
  · rintro s ⟨name, rfl⟩
    exact .init name main
  · intro s a s' hs hi hnext
    exact hi.step (ptable_inv hs) (kernelLock_inv hs .table) (ProcState.next_step hnext)

end Nachos.Threads
