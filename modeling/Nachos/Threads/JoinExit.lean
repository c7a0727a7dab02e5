import Nachos.Threads.ProcessTable
import Mathlib.Data.Fintype.Basic

namespace Nachos.Threads

open Base Lib Function

/-!
# Threads — the handshake of `Join` and `Exit`

A child that exits stores its code in its PCB, signals `joinsem` and waits for `exitsem`; the
parent waits for `joinsem`, signals `exitsem` and only then reads the code, through the table.
Between the signal and the read the child may remove itself, and the entry of the table may
even be given to a new process.

`ProcState.JoinInv` is what every action keeps as long as no process removes itself while
another one is inside `JoinUpdate` on its number: a thread that has passed `joinsem` finds in
the entry it joined a PCB that is not deleted and whose process has called `Exit`.
-/

variable {T N : Type*}

/-! ### Places inside `JoinUpdate` -/

/-- The number that is joined at a point inside `JoinUpdate`, and the child that had it, alive,
when `JoinUpdate` made its checks. -/
def Point.join : Point N → Option (Int × Option ℕ)
  | .incNumWait _ _ id child | .joinWait _ id child | .joined _ id child
  | .decNumWait _ id child | .exitRelease id child | .getExitCode id child => some (id, child)
  | _ => none

/-- The number that is joined at a point after `joinsem->P()`. -/
def Point.released : Point N → Option Int
  | .joined _ id _ | .decNumWait _ id _ | .exitRelease id _ | .getExitCode id _ => some id
  | _ => none

/-- The thread is inside `JoinUpdate`. -/
def ProcPc.join : ProcPc N → Option (Int × Option ℕ)
  | .unborn => none
  | .at k | .inP _ k _ => k.join

/-- The thread is inside `JoinUpdate` and has passed `joinsem->P()`. -/
def ProcPc.passed : ProcPc N → Option Int
  | .unborn => none
  | .at k => k.released
  | .inP _ (.joined _ _ _) _ => none
  | .inP _ k _ => k.released

/-- Who has passed `joinsem->P()` is inside `JoinUpdate`. -/
theorem ProcPc.join_of_passed {q : ProcPc N} {id : Int} (h : q.passed = some id) :
    ∃ child, q.join = some (id, child) := by
  have hpoint : ∀ k : Point N, k.released = some id → ∃ child, k.join = some (id, child) := by
    intro k hk
    cases k <;> simp_all [Point.released, Point.join]
  cases q with
  | unborn => cases h
  | «at» k => exact hpoint k h
  | inP r k b =>
    refine hpoint k ?_
    cases k <;> simp_all [ProcPc.passed]

/-- Being made ready does not change where a thread is. -/
theorem ProcPc.Moved.join_passed {q q' : ProcPc N} (h : q.Moved q') :
    q'.join = q.join ∧ q'.passed = q.passed := by
  rcases h with rfl | ⟨r, k, b, rfl, rfl⟩
  · exact ⟨rfl, rfl⟩
  · cases k <;> exact ⟨rfl, rfl⟩

/-- The exit code is the one that the history has, and as long as there is none `joinsem` has not
been signalled. -/
structure PCB.Records (p : PCB T N) : Prop where
  exitcode : ∀ x, p.exited = some x → p.exitcode = x
  idle : p.deleted = false → p.exited = none → p.joinsem.value = 0

namespace ProcState

variable {s s' : ProcState T N} {t : T}

/-- `pcbs[id]` points to the PCB `d`, which has not been deleted. -/
def Live (s : ProcState T N) (id : Int) (d : ℕ) : Prop :=
  s.pcbAt id = some d ∧ (s.pcb d).deleted = false

/-- The process in `pcbs[id]` has called `Exit` and has not been removed. -/
def Exited (s : ProcState T N) (id : Int) : Prop :=
  ∃ d, s.Live id d ∧ (s.pcb d).exited ≠ none

/-- What the place of a thread says about the table. -/
structure Good (s : ProcState T N) (q : ProcPc N) : Prop where
  passed : ∀ id, q.passed = some id → s.Exited id
  waiting : ∀ r cur id child b, q = .inP r (.joined cur id child) b →
    ∃ d, r = .joinsem d ∧ s.Live id d
  child : ∀ id c, q.join = some (id, some c) → s.Live id c

/-- The inductive invariant of the handshake. -/
structure JoinInv (s : ProcState T N) : Prop where
  table : s.TableInv
  records : ∀ c, (s.pcb c).Records
  good : ∀ t, s.Good (s.pc t)

/-- A thread outside `JoinUpdate` says nothing. -/
theorem Good.of_join {q : ProcPc N} (h : q.join = none) : s.Good q := by
  refine ⟨fun id hid => ?_, fun r cur id child b hq => ?_, fun id c hq => ?_⟩
  · obtain ⟨child, hj⟩ := q.join_of_passed hid
    rw [h] at hj; cases hj
  · subst hq; cases h
  · rw [h] at hq; cases hq

/-- `Good` persists as long as the PCB in the entry that is joined stays and stays exited. -/
theorem Good.mono {q : ProcPc N} (h : s.Good q)
    (hmono : ∀ id child d, q.join = some (id, child) → s.Live id d →
      s'.Live id d ∧ ((s.pcb d).exited ≠ none → (s'.pcb d).exited ≠ none)) : s'.Good q := by
  refine ⟨fun id hid => ?_, fun r cur id child b hq => ?_, fun id c hq => ?_⟩
  · obtain ⟨child, hj⟩ := q.join_of_passed hid
    obtain ⟨d, hlive, hexit⟩ := h.passed id hid
    exact ⟨d, (hmono id child d hj hlive).1, (hmono id child d hj hlive).2 hexit⟩
  · obtain ⟨d, rfl, hlive⟩ := h.waiting r cur id child b hq
    exact ⟨d, rfl, (hmono id child d (by rw [hq]; rfl) hlive).1⟩
  · exact (hmono id _ c hq (h.child id c hq)).1

/-- Being made ready changes nothing. -/
theorem Good.moved {q q' : ProcPc N} (h : s.Good q) (hm : q.Moved q') : s.Good q' := by
  obtain ⟨hj, hp⟩ := hm.join_passed
  refine ⟨fun id hid => h.passed id (by rw [← hp]; exact hid), fun r cur id child b hq => ?_,
    fun id c hq => h.child id c (by rw [← hj]; exact hq)⟩
  rcases hm with rfl | ⟨r', k', b', rfl, rfl⟩
  · exact h.waiting r cur id child b hq
  · cases hq
    exact h.waiting r cur id child b' rfl

/-! ### Steps that only use semaphores -/

/-- What the operations on semaphores keep, as far as the handshake is concerned. -/
structure Calm (s s' : ProcState T N) : Prop where
  frame : Frame s s'
  exited : ∀ c, (s'.pcb c).exited = (s.pcb c).exited
  exitcode : ∀ c, (s'.pcb c).exitcode = (s.pcb c).exitcode
  joinsem : ∀ c, (s.pcb c).deleted = false → (s.pcb c).exited = none →
    (s.pcb c).joinsem.value = 0 → (s'.pcb c).joinsem.value = 0

/-- A calm step keeps the invariant if the threads it moves go to good places. -/
theorem JoinInv.calm (h : s.JoinInv) (hc : Calm s s')
    (hpc : ∀ u, (s.pc u).Moved (s'.pc u) ∨ s.Good (s'.pc u)) : s'.JoinInv := by
  refine ⟨h.table.frame hc.frame, fun c => ⟨fun x hx => ?_, fun hd hx => ?_⟩, fun u => ?_⟩
  · rw [hc.exited] at hx
    rw [hc.exitcode]
    exact (h.records c).exitcode x hx
  · rw [hc.frame.deleted] at hd
    rw [hc.exited] at hx
    exact hc.joinsem c hd hx ((h.records c).idle hd hx)
  · have hgood : s.Good (s'.pc u) := by
      rcases hpc u with hm | hg
      · exact (h.good u).moved hm
      · exact hg
    refine hgood.mono fun id child d _ hlive => ⟨⟨?_, ?_⟩, ?_⟩
    · rw [hc.frame.pcbAt]; exact hlive.1
    · rw [hc.frame.deleted]; exact hlive.2
    · rw [hc.exited]; exact fun hex => hex

/-- The same for a step that moves one thread and at most makes others ready. -/
theorem JoinInv.calm_move (h : s.JoinInv) (hc : Calm s s') (ht : s.Good (s'.pc t))
    (hother : ∀ u, u ≠ t → (s.pc u).Moved (s'.pc u)) : s'.JoinInv := by
  refine h.calm hc fun u => ?_
  by_cases hut : u = t
  · subst hut; exact .inr ht
  · exact .inl (hother u hut)

/-- Changing fields of a PCB that the handshake does not read. -/
theorem Calm.setPcb (s : ProcState T N) (c : ℕ) {q : PCB T N} (hslot : q.slot = (s.pcb c).slot)
    (hdel : q.deleted = (s.pcb c).deleted) (hex : q.exited = (s.pcb c).exited)
    (hcode : q.exitcode = (s.pcb c).exitcode)
    (hjoin : (s.pcb c).deleted = false → (s.pcb c).exited = none →
      (s.pcb c).joinsem.value = 0 → q.joinsem.value = 0) : Calm s (s.setPcb c q) := by
  refine ⟨.setPcb s c hslot hdel, apply_update_of_eq PCB.exited hex,
    apply_update_of_eq PCB.exitcode hcode, fun d => ?_⟩
  by_cases hd : d = c
  · subst hd; simpa [ProcState.setPcb] using hjoin
  · simp [ProcState.setPcb, hd]

/-- Storing a semaphore: only a `joinsem` whose process has not exited must keep value 0. -/
theorem Calm.setSem {r : SemRef} {x x' : Semaphore T} (hx : s.getSem r = some x)
    (hjoin : ∀ c, r = .joinsem c → (s.pcb c).exited = none → x.value = 0 → x'.value = 0) :
    Calm s (s.setSem r x') := by
  cases r with
  | table =>
    exact ⟨(Keeps.setSem s .table x').toFrame, fun _ => rfl, fun _ => rfl, fun _ _ _ h => h⟩
  | addrLock =>
    exact ⟨(Keeps.setSem s .addrLock x').toFrame, fun _ => rfl, fun _ => rfl, fun _ _ _ h => h⟩
  | mutex c => exact .setPcb s c rfl rfl rfl rfl (fun _ _ h => h)
  | exitsem c => exact .setPcb s c rfl rfl rfl rfl (fun _ _ h => h)
  | joinsem c =>
    refine .setPcb s c rfl rfl rfl rfl (fun hd hex h0 => hjoin c rfl hex ?_)
    simp only [getSem, hd, Bool.false_eq_true, if_false, Option.some.injEq] at hx
    rw [← hx]; exact h0

theorem Calm.setPc [DecidableEq T] (h : Calm s s') (t : T) (q : ProcPc N) : Calm s (s'.setPc t q) :=
  ⟨h.frame.setPc t q, h.exited, h.exitcode, h.joinsem⟩

/-- A pass through `P` keeps the invariant. A thread that passes `joinsem` has found a value
that is not 0, so the process whose semaphore it is has exited. -/
theorem JoinInv.p [DecidableEq T] (h : s.JoinInv) {r : SemRef} {k : Point N}
    (hs : s.p t r k = .next s') (hk : s.Good (.inP r k false)) : s'.JoinInv := by
  have hother : ∀ u, u ≠ t → (s.pc u).Moved (s'.pc u) := fun u hut => .inl ((p_pc hs).2 u hut)
  obtain ⟨x, x', hx, ⟨hne, -, rfl⟩ | ⟨-, heq, rfl⟩⟩ := p_cases hs
  · have hgood : s.Good (.at k) := by
      refine ⟨fun id hid => ?_, nofun, hk.child⟩
      by_cases hj : ∃ cur child, k = .joined cur id child
      · obtain ⟨cur, child, rfl⟩ := hj
        obtain ⟨d, rfl, hlive⟩ := hk.waiting r cur id child false rfl
        refine ⟨d, hlive, fun hnone => hne ?_⟩
        simp only [getSem, hlive.2, Bool.false_eq_true, if_false, Option.some.injEq] at hx
        rw [← hx]
        exact (h.records d).idle hlive.2 hnone
      · refine hk.passed id ?_
        cases k <;> simp_all [ProcPc.passed, Point.released]
    exact h.calm_move ((Calm.setSem hx fun c _ _ h0 => absurd h0 hne).setPc t _)
      (by simpa [ProcState.setPc] using hgood) hother
  · exact h.calm_move ((Calm.setSem hx fun _ _ _ _ => heq).setPc t _)
      (by simpa [ProcState.setPc] using hk) hother

/-- A `V` keeps the invariant; only who has exited signals its `joinsem`. -/
theorem JoinInv.v [DecidableEq T] (h : s.JoinInv) {r : SemRef} {k : Point N}
    (hs : s.v t r k = .next s')
    (hr : ∀ c, r = .joinsem c → (s.pcb c).exited ≠ none) (hk : s.Good (.at k)) : s'.JoinInv := by
  obtain ⟨hat, hother⟩ := v_pc hs
  refine JoinInv.calm_move h ?_ (by rw [hat]; exact hk) hother
  obtain ⟨x, x', hx, -, hs'⟩ := v_cases hs
  have hcalm : Calm s (s.setSem r x') := .setSem hx fun c hc hnone _ => absurd hnone (hr c hc)
  rcases hs' with rfl | ⟨w, rfl⟩
  · exact hcalm.setPc t _
  · obtain ⟨q, hq, -⟩ := wake_cases (s.setSem r x') w
    rw [hq]
    exact (hcalm.setPc w q).setPc t _

/-! ### The other steps -/

/-- Changes that leave the table, the PCBs and the threads alone. -/
theorem JoinInv.congr (h : s.JoinInv) (hf : Frame s s') (hpcb : s'.pcb = s.pcb)
    (hpc : s'.pc = s.pc) : s'.JoinInv := by
  refine h.calm ⟨hf, fun c => ?_, fun c => ?_, fun c _ _ h0 => ?_⟩ fun u => .inl (.inl ?_)
  · rw [hpcb]
  · rw [hpcb]
  · rw [hpcb]; exact h0
  · rw [hpc]

/-- Counting waiters does not touch the handshake. -/
theorem JoinInv.setNumwait (h : s.JoinInv) (me : ℕ) (n : Int) :
    (s.setPcb me { s.pcb me with numwait := n }).JoinInv ∧
      ∀ q, s.Good q → (s.setPcb me { s.pcb me with numwait := n }).Good q := by
  have hcalm : Calm s (s.setPcb me { s.pcb me with numwait := n }) :=
    .setPcb s me rfl rfl rfl rfl fun _ _ h0 => h0
  refine ⟨h.calm hcalm fun u => .inl (.inl rfl), fun q hq => hq.mono fun id child d _ hlive => ?_⟩
  exact ⟨⟨hlive.1, (hcalm.frame.deleted d).trans hlive.2⟩, fun hex => by rwa [hcalm.exited]⟩

/-- `ExitUpdate` stores the code that the history records. -/
theorem JoinInv.setExit (h : s.JoinInv) (c : ℕ) (code : Int) :
    (s.setPcb c { s.pcb c with exitcode := code, exited := some code }).JoinInv := by
  have hf : Frame s (s.setPcb c { s.pcb c with exitcode := code, exited := some code }) :=
    .setPcb s c rfl rfl
  refine ⟨h.table.frame hf,
    (forall_update_iff s.pcb fun _ => PCB.Records).mpr ⟨?_, fun d _ => h.records d⟩, fun u => ?_⟩
  · exact ⟨fun x hx => Option.some.inj hx, nofun⟩
  · refine (h.good u).mono fun id child d _ hlive =>
      ⟨⟨hlive.1, (hf.deleted d).trans hlive.2⟩, fun hex => ?_⟩
    by_cases hdc : d = c
    · subst hdc; simp [ProcState.setPcb]
    · simpa [ProcState.setPcb, hdc] using hex

/-- A PCB is created in an entry without a live PCB: no one is joining it. -/
theorem JoinInv.create (h : s.JoinInv) {slot : ℕ} (hlt : slot < maxProcesses)
    (hclear : slot ∉ s.slotManager.marked) (cur : Int) :
    (s.create (s.slotManager.setBit slot) slot cur).JoinInv := by
  refine ⟨h.table.create hlt hclear cur,
    (forall_update_iff s.pcb fun _ => PCB.Records).mpr ⟨?_, fun d _ => h.records d⟩, fun u => ?_⟩
  · exact ⟨nofun, fun _ _ => rfl⟩
  · refine (h.good u).mono fun id child d _ hlive => ?_
    obtain ⟨i, rfl, hi, hpcbs⟩ := pcbAt_eq_some hlive.1
    have hne : i ≠ slot := by
      rintro rfl
      exact hclear ((h.table.mem_marked _).mpr ⟨d, hpcbs, hlive.2⟩)
    have hdn : d ≠ s.numPcbs := by
      have := (h.table.slot_eq i d hpcbs).2.1
      omega
    have hat := hlive.1
    have hdel := hlive.2
    simp only [ProcState.pcbAt, Int.toNat_natCast] at hat
    simp only [Live, ProcState.pcbAt, ProcState.create, Int.toNat_natCast,
      update_of_ne hne, update_of_ne hdn]
    exact ⟨⟨hat, hdel⟩, fun hex => hex⟩

variable [DecidableEq T]

/-- A process removes itself while no one is joining it. -/
theorem JoinInv.remove (h : s.JoinInv) {cur : Int} (hs : s.remove t cur = .next s')
    (hjoin : ∀ u child, (s.pc u).join ≠ some (cur, child)) : s'.JoinInv := by
  have htable := h.table.remove hs
  obtain ⟨c, bm, hc, -, -, -, rfl⟩ := remove_cases hs
  refine ⟨htable, (forall_update_iff s.pcb fun _ => PCB.Records).mpr ⟨?_, fun d _ => h.records d⟩,
    fun u => ?_⟩
  · exact ⟨(h.records c).exitcode, nofun⟩
  · by_cases hut : u = t
    · subst hut
      exact .of_join (by simp [ProcState.setPc, ProcPc.join])
    · simp only [ProcState.setPc, update_of_ne hut]
      refine (h.good u).mono fun id child d hj hlive => ?_
      -- The entry that `u` is joining is another one, so it points to another PCB.
      obtain ⟨i, rfl, hi, hpi⟩ := pcbAt_eq_some hc
      obtain ⟨j, rfl, hj', hpj⟩ := pcbAt_eq_some hlive.1
      have hdc : d ≠ c := by
        rintro rfl
        have hij : i = j := (h.table.slot_eq i d hpi).2.2.symm.trans (h.table.slot_eq j d hpj).2.2
        subst hij
        exact hjoin u child hj
      have hat := hlive.1
      simp only [ProcState.pcbAt] at hat
      simp only [Live, ProcState.pcbAt, ProcState.setPcb, update_of_ne hdc]
      exact ⟨⟨hat, hlive.2⟩, fun hex => hex⟩

/-! ### The condition, and every step -/

/-- The number of the process that an action removes. -/
def removed (s : ProcState T N) : ProcAction T N → Option Int
  | .run t =>
    match s.pc t with
    | .at (.remove cur) => some cur
    | _ => none
  | _ => none

/-- A process removes itself only while no thread is inside `JoinUpdate` on its number. -/
def NoRemoveInJoin (s : ProcState T N) (a : ProcAction T N) : Prop :=
  ∀ u, ∀ p ∈ (s.pc u).join, s.removed a ≠ some p.1

instance [Fintype T] (s : ProcState T N) (a : ProcAction T N) : Decidable (s.NoRemoveInJoin a) :=
  inferInstanceAs (Decidable (∀ u, ∀ p ∈ (s.pc u).join, s.removed a ≠ some p.1))

omit [DecidableEq T] in
/-- What is known inside `JoinUpdate` carries over to the next point. -/
theorem Good.next_point {q : ProcPc N} (h : s.Good q) (r : SemRef) (k : Point N) (b : Bool)
    (hjoin : k.join = q.join) (hpass : k.released = q.passed)
    (hk : ∀ cur id child, k ≠ .joined cur id child) :
    s.Good (.at k) ∧ s.Good (.inP r k b) := by
  have hinP : (ProcPc.inP r k b).passed = k.released := by
    cases k <;> first | rfl | exact absurd rfl (hk _ _ _)
  refine ⟨⟨fun id hid => h.passed id (hpass ▸ hid), nofun, fun id c hc =>
    h.child id c (hjoin ▸ hc)⟩,
    fun id hid => h.passed id (hpass ▸ hinP ▸ hid), fun r' cur id child b' hq => ?_,
    fun id c hc => h.child id c (hjoin ▸ hc)⟩
  cases hq
  exact absurd rfl (hk cur id child)

omit [DecidableEq T] in
/-- What a call returned to its thread and whether the machine runs is not looked at. -/
theorem JoinInv.setResult (h : s.JoinInv) (result : T → Int) (halted : Bool) :
    ({ s with result := result, halted := halted } : ProcState T N).JoinInv := by
  refine h.congr ?_ rfl rfl
  exact ⟨rfl, rfl, rfl, fun _ => rfl, fun _ => rfl⟩

/-- Going on from a point keeps the invariant, unless it is a removal. -/
theorem JoinInv.run [DecidableEq N] (h : s.JoinInv) {k : Point N} (hpc : s.pc t = .at k)
    (hremove : ∀ cur, k ≠ .remove cur) (hs : s.run t k = .next s') : s'.JoinInv := by
  have hgood := h.good t
  rw [hpc] at hgood
  cases k <;> simp only [ProcState.run] at hs
  case user => cases hs
  case fork => cases hs
  case load => cases hs
  case start c => exact h.p hs (.of_join rfl)
  case loadFailed c =>
    rw [loadFailed_eq_next hs]
    refine h.congr ?_ rfl rfl
    exact ⟨rfl, rfl, rfl, fun _ => rfl, fun _ => rfl⟩
  case execBody name =>
    obtain ⟨-, -, -, -, -, ⟨-, hv⟩ | ⟨slot, hlt, hclear, hp⟩⟩ := execBody_cases hs
    · exact (h.setResult _ s.halted).v hv (by simp) (.of_join rfl)
    · exact (h.create hlt hclear _).p hp (.of_join rfl)
  case forked c slot => exact h.v hs (by simp) (.of_join rfl)
  case execDone slot =>
    have hdone : ({ s with
        numProcesses := s.numProcesses + 1
        result := update s.result t slot } : ProcState T N).JoinInv :=
      h.congr ⟨rfl, rfl, rfl, fun _ => rfl, fun _ => rfl⟩ rfl rfl
    exact hdone.v hs (by simp) (.of_join rfl)
  case incNumWait me cur id child =>
    obtain ⟨hinv, hkeep⟩ := h.setNumwait me ((s.pcb me).numwait + 1)
    exact hinv.v hs (by simp)
      (hkeep _ (hgood.next_point .table (.joinWait cur id child) false rfl rfl (by simp)).1)
  case joinWait cur id child =>
    obtain ⟨d, hd, hs⟩ := next_of_pcbAt hs
    obtain ⟨x, x', hx, -⟩ := p_cases hs
    refine h.p hs ⟨by simp [ProcPc.passed], fun r cur' id' child' b hq => ?_, hgood.child⟩
    cases hq
    -- `joinsem->P()` used the semaphore, so the PCB has not been deleted.
    refine ⟨d, rfl, hd, ?_⟩
    by_contra hdel
    simp [getSem, hdel] at hx
  case joined cur id child =>
    obtain ⟨me, -, hs⟩ := next_of_pcbAt hs
    exact h.p hs (hgood.next_point (.mutex me) (.decNumWait me id child) false rfl rfl (by simp)).2
  case decNumWait me id child =>
    obtain ⟨hinv, hkeep⟩ := h.setNumwait me ((s.pcb me).numwait - 1)
    exact hinv.v hs (by simp)
      (hkeep _ (hgood.next_point .table (.exitRelease id child) false rfl rfl (by simp)).1)
  case exitRelease id child =>
    obtain ⟨d, -, hs⟩ := next_of_pcbAt hs
    exact h.v hs (by simp)
      (hgood.next_point .table (.getExitCode id child) false rfl rfl (by simp)).1
  case getExitCode id child =>
    obtain ⟨d, -, hs⟩ := next_of_pcbAt hs
    cases hs
    refine h.calm_move (t := t) ⟨?_, fun _ => rfl, fun _ => rfl, fun _ _ _ h0 => h0⟩
      (.of_join (by simp [ProcState.setPc, ProcPc.join, Point.join])) fun u hut => .inl ?_
    · exact ⟨rfl, rfl, rfl, fun _ => rfl, fun _ => rfl⟩
    · simp [ProcState.setPc, hut]
  case exitWait cur =>
    obtain ⟨c, -, hs⟩ := next_of_pcbAt hs
    exact h.p hs (.of_join rfl)
  case remove cur => exact absurd rfl (hremove cur)

/-- `JoinUpdate` begins with a child that is in the table, or it remembers none. -/
theorem JoinInv.callJoin (h : s.JoinInv) {id : Int} (hs : s.callJoin t id = .next s') :
    s'.JoinInv := by
  rcases callJoin_cases hs with ⟨x, rfl⟩ | ⟨c, me, hc, hp⟩
  · exact h.setResult _ _
  · refine h.p hp ⟨nofun, nofun, fun id' d hd => ?_⟩
    simp only [ProcPc.join, Point.join, Option.some.injEq, Prod.mk.injEq] at hd
    obtain ⟨rfl, hd⟩ := hd
    split at hd
    · cases hd
    · rename_i hdel
      cases hd
      exact ⟨hc, by simpa using hdel⟩

/-- `ExitUpdate` sets the exit code before it raises `joinsem`. -/
theorem JoinInv.callExit (h : s.JoinInv) {code : Int} (hs : s.callExit t code = .next s') :
    s'.JoinInv := by
  rcases callExit_cases hs with rfl | ⟨c, cur, -, hv⟩
  · exact h.setResult _ _
  · refine (h.setExit c code).v hv (fun d hd => ?_) (.of_join rfl)
    cases hd
    simp [ProcState.setPcb]

/-- Neither thread of a `Fork` is in `JoinUpdate`. -/
theorem JoinInv.fork [DecidableEq N] (h : s.JoinInv) {u : T} {c slot : ℕ} {name : N}
    (hs : s.fork t u c slot name = .next s') : s'.JoinInv := by
  obtain ⟨-, rfl⟩ := fork_cases hs
  have hcalm : Calm s (s.setPcb c { s.pcb c with
      pid := slot, file := some name, thread := some u }) :=
    .setPcb s c rfl rfl rfl rfl fun _ _ h0 => h0
  refine h.calm ((hcalm.setPc u _).setPc t _) fun w => ?_
  by_cases hwt : w = t
  · subst hwt
    exact .inr (by simpa [ProcState.setPc] using Good.of_join (s := s) rfl)
  · by_cases hwu : w = u
    · subst hwu
      exact .inr (by simpa [ProcState.setPc, hwt] using Good.of_join (s := s) rfl)
    · exact .inl (.inl (by simp [ProcState.setPc, ProcState.setPcb, hwt, hwu]))

/-- Being woken does not change what is known, so neither does going back to sleep. -/
theorem JoinInv.resume (h : s.JoinInv) {r : SemRef} {k : Point N} (hpc : s.pc t = .inP r k true)
    (hs : s.p t r k = .next s') : s'.JoinInv := by
  have hgood := h.good t
  rw [hpc] at hgood
  refine h.p hs ⟨fun id hid => hgood.passed id ?_, fun r' cur id child b hq => ?_, hgood.child⟩
  · cases k <;> exact hid
  · cases hq
    exact hgood.waiting r cur id child true rfl

/-- The invariant survives every action that meets the condition. -/
theorem JoinInv.next [DecidableEq N] (h : s.JoinInv) {a : ProcAction T N} (hs : s.next a = .next s')
    (ha : s.NoRemoveInJoin a) : s'.JoinInv := by
  cases next_takes hs with
  | callExec hr => exact h.p hr (.of_join rfl)
  | execFailed hr => rw [hr]; exact h.setResult _ _
  | callJoin hr => exact h.callJoin hr
  | callExit hr => exact h.callExit hr
  | @run t k hpc hr =>
    by_cases hremove : ∃ cur, k = .remove cur
    · obtain ⟨cur, rfl⟩ := hremove
      refine h.remove hr fun u child hj => ha u (cur, child) hj ?_
      simp only [removed, hpc]
    · exact h.run hpc (fun cur hk => hremove ⟨cur, hk⟩) hr
  | fork hpc hr => exact h.fork hr
  | openFailed hpc hr => rw [loadFailed_eq_next hr]; exact h.setResult _ _
  | @load t ok c hpc hr =>
    refine h.v hr nofun (.of_join ?_)
    cases ok <;> rfl
  | resume hpc hr => exact h.resume hpc hr

theorem JoinInv.init (name : N) (main : T) :
    (booted name main).JoinInv := by
  refine ⟨.init name main, fun c => ?_, fun t => .of_join ?_⟩
  · rw [booted_pcb]
    split <;> exact ⟨nofun, fun _ _ => rfl⟩
  · rw [booted_pc]
    split <;> rfl

end ProcState

/-! ### The handshake -/

variable [DecidableEq T] [DecidableEq N]

/-- The handshake of a thread that is about to return from `JoinUpdate` on a child that was
alive when it was called: the PCB the code is read from is the child's and has not been
deleted, and what is returned is the code the child passed to `Exit`. -/
def Handshake (s : ProcState T N) : Prop :=
  ∀ t id c s', s.pc t = .at (.getExitCode id (some c)) → s.next (.run t) = .next s' →
    s.pcbAt id = some c ∧ (s.pcb c).deleted = false ∧ (s.pcb c).exited = some (s'.result t)

/-- The invariant gives the handshake. -/
theorem ProcState.JoinInv.handshake {s : ProcState T N} (h : s.JoinInv) : Handshake s := by
  intro t id c s' hpc hs
  have hgood := h.good t
  rw [hpc] at hgood
  obtain ⟨hat, hdel⟩ := hgood.child id c rfl
  -- Having passed `joinsem`, the thread knows that the process in the entry has exited.
  obtain ⟨d, ⟨hd, -⟩, hex⟩ := hgood.passed id rfl
  obtain rfl : c = d := Option.some.inj (hat.symm.trans hd)
  obtain ⟨x, hx⟩ := Option.ne_none_iff_exists'.mp hex
  refine ⟨hat, hdel, ?_⟩
  cases ProcState.next_takes hs with
  | run hpc' hr =>
    rw [hpc] at hpc'
    cases hpc'
    simp only [ProcState.run, hat] at hr
    cases hr
    simp only [ProcState.setPc, update_self]
    rw [(h.records c).exitcode x hx, hx]

/-- **The handshake of `Join` and `Exit`.** In every state of every run in which no process
removes itself while another thread is inside `JoinUpdate` on its number, a `JoinUpdate`
that returns reads the PCB of the child, which has not been deleted, and returns the code
that the child passed to `Exit`. -/
theorem join_returns_exit_code [∀ s : ProcState T N, DecidablePred s.NoRemoveInJoin] (main : T)
    (s : ProcState T N)
    (h : ((procSystem T N main).restrict ProcState.NoRemoveInJoin).Reachable s) : Handshake s := by
  refine (h.invariant (I := ProcState.JoinInv) ?_ ?_).handshake
  · rintro s ⟨name, rfl⟩
    exact .init name main
  · intro s a s' hi hs
    obtain ⟨ha, hs⟩ := LTS.restrict_next hs
    exact hi.next hs ha

/-- The first process executes a program, joins it and reads its code while the child waits in
`ExitWait` or has just been let go. -/
theorem join_returns_exit_code_seven :
    ∃ s : ProcState (Fin 2) Bool, s.pc 0 = .at (.getExitCode 1 (some 1)) ∧
      (s.pcb 1).exited = some 7 ∧ Handshake s := by
  obtain ⟨s, h, hpc, hexited⟩ :=
    ((procSystem (Fin 2) Bool 0).restrict ProcState.NoRemoveInJoin).reaches ⟨false, rfl⟩
      (joinRun.take 18) (fun s => s.pc 0 = .at (.getExitCode 1 (some 1)) ∧
      (s.pcb 1).exited = some 7) (by decide +kernel)
  exact ⟨s, hpc, hexited, join_returns_exit_code 0 s h⟩

/-- The child may remove itself after `exitsem->V()` and before the code is read: then the code
is read from a PCB that has been deleted. -/
theorem join_reads_deleted_pcb :
    ¬ ∀ s : ProcState (Fin 2) Bool, (procSystem (Fin 2) Bool 0).Reachable s → Handshake s := by
  intro hall
  obtain ⟨s, h, hhalt, hpc, hat, hdel⟩ := (procSystem (Fin 2) Bool 0).reaches ⟨false, rfl⟩ joinRun
    (fun s => s.halted = false ∧ s.pc 0 = .at (.getExitCode 1 (some 1)) ∧ s.pcbAt 1 = some 1 ∧
      (s.pcb 1).deleted = true) (by decide +kernel)
  have hstep : s.next (.run 0) = .next ({ s with
      result := update s.result 0 (s.pcb 1).exitcode }.setPc 0 (.at .user)) := by
    simp [ProcState.next, hhalt, hpc, ProcState.run, hat]
  have := (hall s h 0 1 1 _ hpc hstep).2.1
  rw [hdel] at this
  cases this

end Nachos.Threads
