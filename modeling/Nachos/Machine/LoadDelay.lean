import Nachos.Machine.CpuSafety

namespace Nachos.Machine

open Base

/-!
# Machine — interrupts and the load delay

A load takes effect one instruction late, and an interrupt between the two instructions does it
early: `CheckIfDue` calls `DelayedLoad(0, 0)`. A program cannot tell as long as no instruction
reads or writes the register of the load before it (`DelaySafe`).

Doing a pending load early overwrites three registers (`committed`). An instruction whose footprint
has none of them does the same before and after (`Within.commutes`), and its own `DelayedLoad`
writes the same values again (`afterLoad_early`). `LWL` and `LWR` look at a pending load
themselves, so they need their own argument (`forwarded_early`): they find the same value, except
for a load into register 0, whose value is never used. So two runs that differ in the interrupts
only are in the same state, up to the pending load (`run_commit`).
-/

/-! ### Doing a load early -/

/-- What `DelayedLoad(0, 0)` leaves. -/
def MachineState.commit (m : MachineState) : MachineState := m.afterLoad 0 0

/-- What is overwritten when a load of `v` into register `r` is done early. -/
def committed (r v : BitVec 32) (j : ℕ) : Option (BitVec 32) :=
  if j = loadReg ∨ j = loadValueReg then some 0
  else if j = r.toNat ∧ j ≠ 0 then some v
  else none

/-- Do the load early that is pending in `m`. -/
abbrev MachineState.early (m : MachineState) : MachineState → MachineState :=
  regCells.patch (committed (m.at loadReg) (m.at loadValueReg))

/-- A machine with the load pending that was pending in `m`. -/
structure MachineState.SameLoad (m m' : MachineState) : Prop where
  reg : m'.at loadReg = m.at loadReg
  value : m'.at loadValueReg = m.at loadValueReg

section Commit

variable {m m₁ : MachineState} {A B : Set ℕ} {r v : BitVec 32}

theorem committed_zero (r v : BitVec 32) : committed r v 0 = none := by
  simp [committed, loadReg, loadValueReg]

theorem getD_committed {j : ℕ} (h0 : j ≠ 0) (hl : j ≠ loadReg) (hlv : j ≠ loadValueReg)
    (w : BitVec 32) : (committed r v j).getD w = if j = r.toNat then v else w := by
  rw [committed, if_neg (by rintro (h | h) <;> contradiction)]
  by_cases hj : j = r.toNat
  · rw [if_pos ⟨hj, h0⟩, if_pos hj, Option.getD_some]
  · rw [if_neg (fun h => hj h.1), if_neg hj, Option.getD_none]

theorem MachineState.Boundary.commit_eq (h : m.Boundary) :
    m.commit = m.early m := by
  refine MachineState.ext_at (fun j hj => ?_) (by simp [commit, afterLoad])
    (by simp [commit, afterLoad])
  rw [commit, at_afterLoad m 0 0 hj, at_patch, if_pos hj]
  by_cases h0 : j = 0
  · rw [if_pos h0, h0, committed_zero, Option.getD_none, h.zero]
  · rw [if_neg h0]
    by_cases hlv : j = loadValueReg
    · rw [if_pos hlv, committed, if_pos (.inr hlv), Option.getD_some]
    · rw [if_neg hlv]
      by_cases hl : j = loadReg
      · rw [if_pos hl, committed, if_pos (.inl hl), Option.getD_some]
        rfl
      · rw [if_neg hl, getD_committed h0 hl hlv]

/-- A footprint without the pending register and without the registers of the load. -/
theorem apart_committed (hl : loadReg ∉ A ∪ B) (hlv : loadValueReg ∉ A ∪ B)
    (hr : r.toNat = 0 ∨ r.toNat ∉ A ∪ B) : Apart A B (committed r v) := by
  intro j hj
  have hj' : j = loadReg ∨ j = loadValueReg ∨ j = r.toNat ∧ j ≠ 0 := by
    by_contra hno
    refine hj ?_
    rw [committed, if_neg (fun h => hno (h.imp_right .inl)), if_neg (fun h => hno (.inr (.inr h)))]
  have hmem : j ∉ A ∪ B := by
    rcases hj' with rfl | rfl | ⟨rfl, h0⟩
    · exact hl
    · exact hlv
    · exact hr.resolve_left h0
  exact ⟨fun hA => hmem (.inl hA), fun hB => hmem (.inr hB)⟩

theorem at_loadReg_early (m m₁ : MachineState) : (m.early m₁).at loadReg = 0 := by
  rw [at_patch, if_pos (by decide), committed, if_pos (.inl rfl), Option.getD_some]

/-- What a register has once the pending load is done. -/
def MachineState.loaded (m : MachineState) (j : ℕ) : BitVec 32 :=
  if j = (m.at loadReg).toNat then m.at loadValueReg else m.at j

/-- `DelayedLoad` leads to the same machine from two machines with the same registers once the
pending load is done. -/
theorem afterLoad_congr (hmem : m₁.mainMemory = m.mainMemory) (htab : m₁.tables = m.tables)
    (hreg : ∀ j < numTotalRegs, j ≠ 0 → j ≠ loadReg → j ≠ loadValueReg → m₁.loaded j = m.loaded j)
    (n : ℕ) (x : BitVec 32) : m₁.afterLoad n x = m.afterLoad n x := by
  refine MachineState.ext_at (fun j hj => ?_) (by simpa [MachineState.afterLoad])
    (by simpa [MachineState.afterLoad])
  rw [at_afterLoad _ n x hj, at_afterLoad _ n x hj]
  by_cases h0 : j = 0
  · rw [if_pos h0, if_pos h0]
  · rw [if_neg h0, if_neg h0]
    by_cases hlv : j = loadValueReg
    · rw [if_pos hlv, if_pos hlv]
    · rw [if_neg hlv, if_neg hlv]
      by_cases hl : j = loadReg
      · rw [if_pos hl, if_pos hl]
      · rw [if_neg hl, if_neg hl]
        exact hreg j hj h0 hl hlv

/-- Behind `DelayedLoad`, it makes no difference whether the load was done before. -/
theorem afterLoad_early (hm : m.SameLoad m₁) (n : ℕ) (x : BitVec 32) :
    (m.early m₁).afterLoad n x = m₁.afterLoad n x := by
  refine afterLoad_congr (by simp) (by simp) (fun j hj h0 hl hlv => ?_) n x
  have hnot : j ≠ (0 : BitVec 32).toNat := h0
  rw [MachineState.loaded, at_loadReg_early, if_neg hnot, at_patch, if_pos hj,
    getD_committed h0 hl hlv, MachineState.loaded, hm.reg, hm.value]

end Commit

/-! ### One instruction -/

/-- An instruction that may stand behind a load into register `r`. -/
def Instruction.AllowsPending (i : Instruction) (r : ℕ) : Prop :=
  r = 0 ∨ r ∉ i.reads ∧ r ∉ i.writes

instance (i : Instruction) (r : ℕ) : Decidable (i.AllowsPending r) :=
  inferInstanceAs (Decidable (_ ∨ _ ∧ _))

/-- The next instruction, if it can be fetched. -/
def MachineState.fetched (m : MachineState) : Option Instruction :=
  match fetch m with
  | .ok i _ => some i
  | .error _ _ => none

theorem fetched_eq_some {m : MachineState} {i : Instruction} :
    m.fetched = some i ↔ ∃ m₁, fetch m = .ok i m₁ := by
  unfold MachineState.fetched
  cases fetch m <;> simp

/-- The next instruction neither reads nor writes the register of the pending load, other than as
the target of a load. -/
def MachineState.DelaySafe (m : MachineState) : Prop :=
  ∀ i ∈ m.fetched, i.AllowsPending (m.at loadReg).toNat

instance (m : MachineState) : Decidable m.DelaySafe :=
  inferInstanceAs (Decidable (∀ i ∈ m.fetched, _))

/-- The next instruction is `LWL` or `LWR` into register 0, behind a load into register 0. -/
def MachineState.MergesZero (m : MachineState) : Prop :=
  ∃ i ∈ m.fetched, i.merges = true ∧ i.rt = 0 ∧ m.at loadReg = 0

section Step

variable {m m₁ : MachineState} {i : Instruction} {pcAfter : BitVec 32}

theorem MachineState.SameLoad.of_sameOff {B : Set ℕ} (h : SameOff regCells B m m₁)
    (hl : loadReg ∉ B) (hlv : loadValueReg ∉ B) : m.SameLoad m₁ :=
  ⟨h loadReg hl, h loadValueReg hlv⟩

theorem forwarded_eq {rt : ℕ} (h : rt < numTotalRegs) (m : MachineState) : forwarded rt m =
    .ok (if m.at loadReg = BitVec.ofNat 32 rt then m.at loadValueReg else m.at rt) m := by
  rw [forwarded, bind_ok (reg_eq (by decide) m)]
  split
  · exact reg_eq (by decide) m
  · exact reg_eq h m

theorem eq_ofNat_iff {r : BitVec 32} {rt : ℕ} (hrt : rt < numGPRegs) :
    r = BitVec.ofNat 32 rt ↔ rt = r.toNat := by
  have hmod : rt % 2 ^ 32 = rt := Nat.mod_eq_of_lt (hrt.trans (by decide))
  rw [← BitVec.toNat_inj, BitVec.toNat_ofNat, hmod, eq_comm]

/-- `LWL` and `LWR` find the same value in their register whether a load into it was done
before or not, unless the register is 0. -/
theorem forwarded_early (hm : m.SameLoad m₁) (h0 : m₁.at 0 = 0) {rt : ℕ} (hrt : rt < numGPRegs)
    (hne : rt ≠ 0 ∨ m.at loadReg ≠ 0) :
    forwarded rt (m.early m₁) = mapState m.early (forwarded rt m₁) := by
  have hlt := lt_total hrt
  rw [forwarded_eq hlt, forwarded_eq hlt, mapState_ok, at_loadReg_early]
  congr 1
  by_cases hz : rt = 0
  · -- Both find zero: a load into another register is pending.
    subst hz
    have hpend : m₁.at loadReg ≠ BitVec.ofNat 32 0 := by
      rw [hm.reg]
      exact hne.resolve_left (by simp)
    rw [if_pos (show (0 : BitVec 32) = BitVec.ofNat 32 0 from rfl), if_neg hpend, h0, at_patch,
      if_pos (by decide), committed, if_pos (.inr rfl), Option.getD_some]
  · have hl : rt ≠ loadReg := fun heq => absurd (heq ▸ hrt) (by decide)
    have hlv : rt ≠ loadValueReg := fun heq => absurd (heq ▸ hrt) (by decide)
    have hzero : (0 : BitVec 32) ≠ BitVec.ofNat 32 rt := fun heq => hz ((eq_ofNat_iff hrt).mp heq)
    rw [if_neg hzero, at_patch, if_pos hlt, getD_committed hz hl hlv, hm.reg, hm.value]
    simp only [eq_ofNat_iff hrt]

/-- `LWL` and `LWR` do the same whether a pending load was done before or not. Only the value of a
load into register 0 may differ. -/
theorem loadPart_early (h : m.Boundary) (hv : i.Valid)
    (hr : (m.at loadReg).toNat = 0 ∨ (m.at loadReg).toNat ≠ i.rs) (hm : SameOff regCells ∅ m m₁)
    (f : ℕ → BitVec 32 → BitVec 32 → BitVec 32) :
    loadPart i pcAfter f (m.early m₁) = mapState m.early (loadPart i pcAfter f m₁) ∨
    (i.rt = 0 ∧ m.at loadReg = 0) ∧ ∃ x y m', loadPart i pcAfter f m₁ = .ok ⟨0, x, pcAfter⟩ m' ∧
      loadPart i pcAfter f (m.early m₁) = .ok ⟨0, y, pcAfter⟩ (m.early m') := by
  have huses : Uses { i.rs } ∅ (fun _ => True) (loadAligned i) := uses_loadAligned hv rfl
  have hapart : Apart { i.rs } ∅ (committed (m.at loadReg) (m.at loadValueReg)) := by
    have hl : loadReg ≠ i.rs := fun heq => absurd (heq ▸ hv.rs) (by decide)
    have hlv : loadValueReg ≠ i.rs := fun heq => absurd (heq ▸ hv.rs) (by decide)
    exact apart_committed (by simpa using hl) (by simpa using hlv)
      (hr.imp_right fun hne => by simpa using hne)
  have hal := huses.commutes hapart m₁
  cases hs : loadAligned i m₁ with
  | error t m₂ =>
    rw [hs] at hal
    left
    rw [loadPart, bind_error hal, bind_error hs]
    rfl
  | ok a m₂ =>
    rw [hs] at hal
    have hsame : SameOff regCells ∅ m m₂ := fun j hj => ((huses.ok hs).1 j hj).trans (hm j hj)
    have hload : m.SameLoad m₂ := .of_sameOff hsame (by simp) (by simp)
    have h0 : m₂.at 0 = 0 := (hsame 0 (by simp)).trans h.zero
    simp only [loadPart, bind_ok hal, bind_ok hs]
    by_cases hne : i.rt ≠ 0 ∨ m.at loadReg ≠ 0
    · left
      have hfwd := forwarded_early hload h0 hv.rt hne
      rw [forwarded_eq (lt_total hv.rt) m₂] at hfwd
      rw [bind_ok hfwd, bind_ok (forwarded_eq (lt_total hv.rt) m₂)]
      rfl
    · simp only [not_or, not_not] at hne
      refine .inr ⟨hne, ?_⟩
      rw [bind_ok (forwarded_eq (lt_total hv.rt) _),
        bind_ok (forwarded_eq (lt_total hv.rt) _), hne.1]
      exact ⟨_, _, m₂, rfl, rfl⟩

/-- A register that is neither an operand nor a result of an instruction without forwarding. -/
theorem not_mem_footprint {j : ℕ} (hmerge : i.merges ≠ true) (hreads : j ∉ i.reads)
    (hwrites : j ∉ i.writes) (hj : j ∉ [hiReg, loReg, nextPCReg]) : j ∉ i.sources ∪ i.targets := by
  rintro ((h | h | h) | (h | h))
  · exact hreads h
  · exact hj h
  · exact hmerge h.1
  · exact hwrites h
  · rcases List.mem_pair.mp h with rfl | rfl <;> simp at hj

theorem execute_early (pcAfter : BitVec 32) (h : m.Boundary) (hv : i.Valid)
    (hi : i.AllowsPending (m.at loadReg).toNat) (hm : SameOff regCells ∅ m m₁) :
    execute i pcAfter (m.early m₁) = mapState m.early (execute i pcAfter m₁) ∨
    (i.merges = true ∧ i.rt = 0 ∧ m.at loadReg = 0) ∧ ∃ x y m',
      execute i pcAfter m₁ = .ok ⟨0, x, pcAfter⟩ m' ∧
      execute i pcAfter (m.early m₁) = .ok ⟨0, y, pcAfter⟩ (m.early m') := by
  by_cases hmerge : i.merges = true
  · obtain ⟨f, hf, hreads⟩ : ∃ f, execute i pcAfter = loadPart i pcAfter f ∧ i.reads = [i.rs] := by
      simp only [Instruction.merges, Bool.or_eq_true, beq_iff_eq] at hmerge
      rcases hmerge with hop | hop
      · exact ⟨lwlValue, by simp only [execute, hop], by simp only [Instruction.reads, hop]⟩
      · exact ⟨lwrValue, by simp only [execute, hop], by simp only [Instruction.reads, hop]⟩
    rw [hf]
    refine (loadPart_early h hv ?_ hm f).imp_right fun hz => ⟨⟨hmerge, hz.1⟩, hz.2⟩
    exact hi.imp_right fun hno => by simpa [hreads] using hno.1
  · left
    refine (uses_execute hv pcAfter).commutes (apart_committed ?_ ?_ ?_) m₁
    · exact not_mem_footprint hmerge (fun hj => absurd (hv.reads_lt hj) (by decide))
        (fun hj => absurd (hv.writes_lt hj) (by decide)) (by decide)
    · exact not_mem_footprint hmerge (fun hj => absurd (hv.reads_lt hj) (by decide))
        (fun hj => absurd (hv.writes_lt hj) (by decide)) (by decide)
    · refine hi.imp_right fun hno => not_mem_footprint hmerge hno.1 hno.2 fun hj => ?_
      have hlt := h.pending
      simp only [List.mem_cons, List.not_mem_nil, or_false, hiReg, loReg, nextPCReg] at hj
      unfold numGPRegs at hlt
      omega

/-- Up to the end of the switch, the next instruction does the same whether the pending load was
done before or not. -/
theorem perform_early (h : m.Boundary) (hsafe : m.DelaySafe) :
    perform (m.early m) = mapState m.early (perform m) ∨
    m.MergesZero ∧ ∃ x y pcAfter m', perform m = .ok ⟨0, x, pcAfter⟩ m' ∧
      perform (m.early m) = .ok ⟨0, y, pcAfter⟩ (m.early m') := by
  have hlt := h.pending
  have hapart : ∀ pc, numGPRegs ≤ pc → pc ≠ loadReg → pc ≠ loadValueReg →
      Apart { pc } ∅ (committed (m.at loadReg) (m.at loadValueReg)) := by
    intro pc hpc hl hlv
    refine apart_committed (by simpa using hl.symm) (by simpa using hlv.symm) (.inr ?_)
    simp only [Set.union_empty, Set.mem_singleton_iff]
    omega
  have hfetch := uses_fetch.commutes (hapart pcReg (by decide) (by decide) (by decide)) m
  cases hs : fetch m with
  | error t m₁ =>
    rw [hs] at hfetch
    left
    rw [perform, bind_error hfetch, bind_error hs]
    rfl
  | ok i m₁ =>
    rw [hs] at hfetch
    have hi : m.fetched = some i := fetched_eq_some.mpr ⟨m₁, hs⟩
    obtain ⟨hsame, hv⟩ := uses_fetch.ok hs
    have hpc := (uses_reg (E := Trap.Expected) (by decide) (Set.mem_singleton nextPCReg)).commutes
      (hapart nextPCReg (by decide) (by decide) (by decide)) m₁
    rw [reg_eq (by decide) m₁] at hpc
    have hnext : reg nextPCReg m₁ = .ok _ m₁ := reg_eq (by decide) m₁
    simp only [perform, bind_ok hfetch, bind_ok hs, bind_ok hpc, bind_ok hnext]
    rcases execute_early (m₁.at nextPCReg + 4) h hv (hsafe i hi) hsame with
      heq | ⟨hz, x, y, m', hx, hy⟩
    · exact .inl heq
    · exact .inr ⟨⟨i, hi, hz⟩, x, y, _, m', hx, hy⟩

theorem complete_early (hm : m.SameLoad m₁) (hlt : (m.at loadReg).toNat < numGPRegs) (e : Effect) :
    complete e (m.early m₁) = complete e m₁ := by
  have hlt₁ : (m₁.at loadReg).toNat < numTotalRegs := by rw [hm.reg]; exact lt_total hlt
  have hzero : ((m.early m₁).at loadReg).toNat < numTotalRegs := by
    rw [at_loadReg_early]
    decide
  rw [complete, bind_ok (delayedLoad_eq hzero _ _), bind_ok (delayedLoad_eq hlt₁ _ _),
    afterLoad_early hm]

theorem raised_early (hm : m.SameLoad m₁) (hlt : (m.at loadReg).toNat < numGPRegs)
    (badVAddr : BitVec 32) : (m.early m₁).raised badVAddr = m₁.raised badVAddr := by
  have hnone : committed (m.at loadReg) (m.at loadValueReg) badVAddrReg = none := by
    rw [committed, if_neg (by decide), if_neg]
    rintro ⟨heq, -⟩
    rw [← heq] at hlt
    exact absurd hlt (by decide)
  have hput : m.SameLoad (m₁.put badVAddrReg badVAddr (by decide)) :=
    ⟨by rw [at_put, if_neg (by decide), hm.reg], by rw [at_put, if_neg (by decide), hm.value]⟩
  rw [MachineState.raised, put_patch m₁ hnone, afterLoad_early hput, MachineState.raised]

/-- The same machine, up to the value of a load into register 0. -/
def MachineState.Alike (m m' : MachineState) : Prop :=
  m' = m ∨ m.at loadReg = 0 ∧ m'.at loadReg = 0 ∧ m'.commit = m.commit

/-- The value of a load into register 0 is overwritten. -/
theorem alike_patch {p : ℕ → Option (BitVec 32)} (hp : ∀ j, j ≠ loadValueReg → p j = none)
    (hl : m.at loadReg = 0) : m.Alike (regCells.patch p m) := by
  have hsame : ∀ j < numTotalRegs, j ≠ loadValueReg → (regCells.patch p m).at j = m.at j := by
    intro j hj hlv
    rw [at_patch, if_pos hj, hp j hlv, Option.getD_none]
  have hl' : (regCells.patch p m).at loadReg = 0 := (hsame loadReg (by decide) (by decide)).trans hl
  refine .inr ⟨hl, hl', afterLoad_congr (by simp) (by simp) (fun j hj h0 _ hlv => ?_) 0 0⟩
  have hnot : j ≠ (0 : BitVec 32).toNat := h0
  rw [MachineState.loaded, MachineState.loaded, hl, hl', if_neg hnot, if_neg hnot, hsame j hj hlv]

/-- Two loads into register 0 leave machines that are alike. -/
theorem complete_alike (hlt : (m₁.at loadReg).toNat < numGPRegs) (x y pcAfter : BitVec 32) :
    ∃ m' m'', complete ⟨0, x, pcAfter⟩ m₁ = .ok () m' ∧ complete ⟨0, y, pcAfter⟩ m₁ = .ok () m'' ∧
      m'.Alike m'' := by
  let p : ℕ → Option (BitVec 32) := fun j => if j = loadValueReg then some y else none
  have hp : ∀ j, j ≠ loadValueReg → p j = none := fun j hj => if_neg hj
  have hload : m₁.afterLoad 0 y = regCells.patch p (m₁.afterLoad 0 x) := by
    refine MachineState.ext_at (fun j hj => ?_) (by simp [MachineState.afterLoad])
      (by simp [MachineState.afterLoad])
    rw [at_patch, if_pos hj, at_afterLoad _ 0 y hj, at_afterLoad _ 0 x hj]
    by_cases hlv : j = loadValueReg
    · subst hlv
      rfl
    · rw [hp j hlv, Option.getD_none, if_neg hlv, if_neg hlv]
  obtain ⟨_, m', hadv, hsame, -⟩ := (uses_advance pcAfter).toBounded.total (m₁.afterLoad 0 x)
  have hadv' := (uses_advance pcAfter).commutes (p := p) ?_ (m₁.afterLoad 0 x)
  · rw [← hload, hadv] at hadv'
    refine ⟨m', _, ?_, ?_, alike_patch hp ?_⟩
    · rw [complete, bind_ok (delayedLoad_eq (lt_total hlt) _ _)]
      exact hadv
    · rw [complete, bind_ok (delayedLoad_eq (lt_total hlt) _ _)]
      exact hadv'
    · exact (hsame loadReg (by decide)).trans (at_afterLoad _ _ _ (by decide))
  · intro j hj
    obtain rfl : j = loadValueReg := by
      by_contra hne
      exact hj (hp j hne)
    exact ⟨by decide, by decide⟩

/-- Two results of an instruction that agree: the same exception and the same machine, or, if
`merges` holds and there is no exception, machines that are alike; or the same fault. -/
inductive Agree (merges : Prop) : EStateM.Result Trap MachineState (Option ExceptionType) →
    EStateM.Result Trap MachineState (Option ExceptionType) → Prop where
  | same {which m} : Agree merges (.ok which m) (.ok which m)
  | alike {m m'} : merges → m.Alike m' → Agree merges (.ok none m) (.ok none m')
  | fault {f m m'} : Agree merges (.error (.fault f) m) (.error (.fault f) m')

/-- **One instruction behind an interrupt.** From a boundary, the next instruction does the same
whether the pending load was done before or not. -/
theorem agree_oneInstruction_commit (h : m.Boundary) (hsafe : m.DelaySafe) :
    Agree m.MergesZero (oneInstruction m) (oneInstruction m.commit) := by
  have hlt := h.pending
  have hload : ∀ {m₁}, SameOff regCells { j | j < numGPRegs ∨ j = hiReg ∨ j = loReg } m m₁ →
      m.SameLoad m₁ := fun hsame => .of_sameOff hsame (by decide) (by decide)
  rw [h.commit_eq]
  rcases perform_early h hsafe with heq | ⟨hz, x, y, pcAfter, m₁, hx, hy⟩
  · cases hp : perform m with
    | ok e m₁ =>
      rw [hp] at heq
      obtain ⟨hsame, he⟩ := uses_perform.ok hp
      have hl := hload hsame
      obtain ⟨m', hc, -⟩ := complete_spec (by rw [hl.reg]; exact hlt) he
      have hi : instruction m = .ok () m' := by rw [instruction, bind_ok hp, hc]
      have hi' : instruction (m.early m) = .ok () m' := by
        rw [instruction, bind_ok heq, complete_early hl hlt, hc]
      rw [oneInstruction_of_ok hi, oneInstruction_of_ok hi']
      exact .same
    | error t m₁ =>
      rw [hp] at heq
      have hl := hload (uses_perform.error hp).1
      have hi : instruction m = .error t m₁ := by rw [instruction, bind_error hp]
      have hi' : instruction (m.early m) = .error t (m.early m₁) := by
        rw [instruction, bind_error heq]
      cases t with
      | exception which badVAddr =>
        rw [oneInstruction_of_exception hi (by rw [hl.reg]; exact hlt),
          oneInstruction_of_exception hi' (by rw [at_loadReg_early]; decide), raised_early hl hlt]
        exact .same
      | fault f =>
        rw [oneInstruction_of_fault hi, oneInstruction_of_fault hi']
        exact .fault
  · -- A load into register 0 is merged into register 0.
    have hl := hload (uses_perform.ok hx).1
    obtain ⟨m', m'', hm', hm'', halike⟩ := complete_alike (by rw [hl.reg]; exact hlt) x y pcAfter
    have hi : instruction m = .ok () m' := by rw [instruction, bind_ok hx, hm']
    have hi' : instruction (m.early m) = .ok () m'' := by
      rw [instruction, bind_ok hy, complete_early hl hlt, hm'']
    rw [oneInstruction_of_ok hi, oneInstruction_of_ok hi']
    exact .alike hz halike

end Step

/-! ### Runs with interrupts -/

/-- `DelayedLoad(0, 0)` for each of `n` interrupts. -/
def interrupts : ℕ → Cpu Unit
  | 0 => pure ()
  | n + 1 => do
    delayedLoad 0 0
    interrupts n

section Run

variable {K : Type} (handler : ExceptionType → K × MachineState → K × MachineState)

/-- One round of `Machine::Run`: a number of interrupts, an instruction, and the kernel if there is
an exception. -/
def round (extra : ℕ) (s : K × MachineState) : Option (K × MachineState) :=
  match (interrupts extra >>= fun _ => oneInstruction) s.2 with
  | .ok none m => some (s.1, m)
  | .ok (some which) m => some (handler which (s.1, m))
  | .error _ _ => none

/-- `n` rounds, with `extra k` interrupts in round `k`. -/
def runRounds (extra : ℕ → ℕ) : ℕ → K × MachineState → Option (K × MachineState)
  | 0, s => some s
  | n + 1, s => (runRounds extra n s).bind (round handler (extra n))

variable {handler} {m m' : MachineState}

theorem at_loadReg_commit (m : MachineState) : m.commit.at loadReg = 0 :=
  at_afterLoad _ _ _ (by decide)

theorem boundary_commit (m : MachineState) : m.commit.Boundary := boundary_afterLoad m (by decide) 0

theorem MachineState.Boundary.commit_commit (h : m.Boundary) : m.commit.commit = m.commit := by
  rw [h.commit_eq]
  exact (afterLoad_early ⟨rfl, rfl⟩ 0 0).trans h.commit_eq

/-- Interrupts do the pending load, if there are any. -/
theorem interrupts_eq (h : m.Boundary) (n : ℕ) :
    interrupts n m = .ok () m ∨ interrupts n m = .ok () m.commit := by
  induction n generalizing m with
  | zero => exact .inl rfl
  | succ n ih =>
    right
    rw [interrupts, bind_ok (delayedLoad_eq (lt_total h.pending) 0 0)]
    rcases ih (boundary_commit m) with heq | heq
    · exact heq
    · rw [h.commit_commit] at heq
      exact heq

/-- The other run is in the same state, or the pending load has been done there. -/
def MachineState.Ahead (m m' : MachineState) : Prop :=
  m' = m ∨ m'.at loadReg = 0 ∧ m'.commit = m.commit

/-- Two machines that are like a third one. -/
theorem MachineState.Alike.join {m₂ : MachineState} (h : m.Alike m₂) (h' : m'.Alike m₂) :
    m.Alike m' := by
  rcases h with rfl | ⟨hl, hl₂, hc⟩
  · rcases h' with rfl | ⟨hl', hl₂, hc⟩
    · exact .inl rfl
    · exact .inr ⟨hl₂, hl', hc.symm⟩
  · rcases h' with rfl | ⟨hl', -, hc'⟩
    · exact .inr ⟨hl, hl₂, hc⟩
    · exact .inr ⟨hl, hl', hc'.symm.trans hc⟩

/-- Two results that agree with a third one. -/
theorem Agree.join {p q : Prop} {r r' r₂ : EStateM.Result Trap MachineState (Option ExceptionType)}
    (h : Agree p r r₂) (h' : Agree q r' r₂) : Agree True r r' := by
  cases h with
  | same =>
    cases h' with
    | same => exact .same
    | alike _ ha => exact .alike trivial (MachineState.Alike.join (.inl rfl) ha)
  | alike _ ha =>
    cases h' with
    | same => exact .alike trivial (ha.join (.inl rfl))
    | alike _ ha' => exact .alike trivial (ha.join ha')
  | fault =>
    cases h' with
    | fault => exact .fault

theorem MachineState.Ahead.commit_eq (h : m.Ahead m') : m'.commit = m.commit := by
  rcases h with rfl | ⟨-, hc⟩
  · rfl
  · exact hc

theorem delaySafe_of_zero (h : m.at loadReg = 0) : m.DelaySafe :=
  fun _ _ => .inl (by rw [h]; rfl)

theorem MachineState.Ahead.delaySafe (h : m.Ahead m') (hsafe : m.DelaySafe) : m'.DelaySafe := by
  rcases h with rfl | ⟨hl, -⟩
  · exact hsafe
  · exact delaySafe_of_zero hl

/-- The next instruction does the same in both runs. -/
theorem MachineState.Ahead.agree (ha : m.Ahead m') (h : m.Boundary) (h' : m'.Boundary)
    (hsafe : m.DelaySafe) : Agree True (oneInstruction m) (oneInstruction m') := by
  have hc := agree_oneInstruction_commit h' (ha.delaySafe hsafe)
  rw [ha.commit_eq] at hc
  exact (agree_oneInstruction_commit h hsafe).join hc

theorem MachineState.Alike.ahead (h : m.Alike m') : m.Ahead m' :=
  h.imp_right fun hz => ⟨hz.2.1, hz.2.2⟩

/-- Two runs after the same number of rounds. -/
inductive Related : Option (K × MachineState) → Option (K × MachineState) → Prop where
  | stopped : Related none none
  | running {k m m'} : m.Boundary → m'.Boundary → m.Ahead m' → Related (some (k, m)) (some (k, m'))

/-- One round, without interrupts and with them. -/
theorem related_round (hkernel : ∀ which s, s.2.Boundary → (handler which s).2.Boundary)
    (h : m.Boundary) (h' : m'.Boundary) (hsafe : m.DelaySafe) (ha : m.Ahead m') (k : K) (n : ℕ) :
    Related (round handler 0 (k, m)) (round handler n (k, m')) := by
  obtain ⟨m₂, hint, h₂, ha₂⟩ : ∃ m₂, interrupts n m' = .ok () m₂ ∧ m₂.Boundary ∧ m.Ahead m₂ := by
    rcases interrupts_eq h' n with hint | hint
    · exact ⟨m', hint, h', ha⟩
    · refine ⟨m'.commit, hint, boundary_commit m', .inr ⟨at_loadReg_commit m', ?_⟩⟩
      rw [h'.commit_commit, ha.commit_eq]
  have hzero : interrupts 0 m = .ok () m := rfl
  have hagree := ha₂.agree h h₂ hsafe
  have hb : ∀ {m : MachineState}, m.Boundary → ∀ {which m₁}, oneInstruction m = .ok which m₁ →
      m₁.Boundary := by
    intro m hm which m₁ heq
    rcases hm.oneInstruction with ⟨w, m₃, heq', hb⟩ | ⟨f, m₃, heq', -⟩
    · rw [heq] at heq'
      cases heq'
      exact hb
    · rw [heq] at heq'
      cases heq'
  simp only [round, bind_ok hzero, bind_ok hint]
  generalize hr : oneInstruction m = r at hagree
  generalize hr₂ : oneInstruction m₂ = r₂ at hagree
  cases hagree with
  | @same which m₁ =>
    have hm₁ := hb h hr
    cases which with
    | none => exact .running hm₁ hm₁ (.inl rfl)
    | some which =>
      exact .running (hkernel which (k, m₁) hm₁) (hkernel which (k, m₁) hm₁) (.inl rfl)
  | alike _ halike => exact .running (hb h hr) (hb h₂ hr₂) halike.ahead
  | fault => exact .stopped

/-- Runs that differ in their interrupts only. -/
theorem related_runRounds (hkernel : ∀ which s, s.2.Boundary → (handler which s).2.Boundary)
    {s : K × MachineState} (h : s.2.Boundary) (n : ℕ)
    (hsafe : ∀ k < n, ∀ s', runRounds handler (fun _ => 0) k s = some s' → s'.2.DelaySafe)
    (extra : ℕ → ℕ) :
    Related (runRounds handler (fun _ => 0) n s) (runRounds handler extra n s) := by
  induction n with
  | zero => exact .running h h (.inl rfl)
  | succ n ih =>
    have ih := ih fun k hk => hsafe k (by omega)
    simp only [runRounds]
    have hn := hsafe n (by omega)
    generalize runRounds handler (fun _ => 0) n s = r at ih hn ⊢
    generalize runRounds handler extra n s = r' at ih ⊢
    cases ih with
    | stopped => exact .stopped
    | @running k m m' hb hb' ha =>
      simp only [Option.bind_some]
      exact related_round hkernel hb hb' (hn (k, m) rfl) ha k (extra n)

end Run

/-- **Interrupts and the load delay.** From a boundary, an instruction that neither reads nor writes
the register of the pending load does the same as after `DelayedLoad(0, 0)`; only where `LWL` or
`LWR` merges a load into register 0 into register 0, the value of that load may differ. So a run
of such instructions and any run with interrupts in between are in the same state after every
round, up to the pending load. The kernel is any function that leaves the registers in a
state for the next instruction. -/
theorem load_delay_transparent {K : Type}
    (handler : ExceptionType → K × MachineState → K × MachineState)
    (hkernel : ∀ which s, s.2.Boundary → (handler which s).2.Boundary) :
    (∀ m : MachineState, m.Boundary → m.DelaySafe →
      Agree m.MergesZero (oneInstruction m) (oneInstruction m.commit)) ∧
    ∀ (s : K × MachineState) (n : ℕ), s.2.Boundary →
      (∀ k < n, ∀ s', runRounds handler (fun _ => 0) k s = some s' → s'.2.DelaySafe) →
      ∀ extra : ℕ → ℕ, (runRounds handler extra n s).map (Prod.map id MachineState.commit) =
        (runRounds handler (fun _ => 0) n s).map (Prod.map id MachineState.commit) := by
  refine ⟨fun m h hsafe => agree_oneInstruction_commit h hsafe, fun s n h hsafe extra => ?_⟩
  have hrel := related_runRounds hkernel h n hsafe extra
  generalize runRounds handler (fun _ => 0) n s = r at hrel ⊢
  generalize runRounds handler extra n s = r' at hrel ⊢
  cases hrel with
  | stopped => rfl
  | running hb hb' ha => simp [ha.commit_eq]

/-- A machine with one page that holds the given words. -/
def onePage (words : List ℕ) : MachineState :=
  { addToZero with
    mainMemory := fun a => UInt8.ofNat (words.getD (a / 4) 0 / 256 ^ (a % 4)) }

/-- `lw $2, 12($0)`, `nop` and `addu $3, $2, $2`, with an interrupt before each of them. -/
theorem load_delay_transparent_interrupted :
    let run := fun extra => runRounds (fun _ s => s) extra 3
      ((), onePage [0x8C02000C, 0, 0x00421821, 7])
    (run fun _ => 0).map (fun s => s.2.at 3) = some 14 ∧
    (run fun _ => 1).map (Prod.map id MachineState.commit) =
      (run fun _ => 0).map (Prod.map id MachineState.commit) := by
  refine ⟨by decide +kernel, ?_⟩
  have hb : (onePage [0x8C02000C, 0, 0x00421821, 7]).Boundary := ⟨by decide, by decide⟩
  have hsafe : ∀ k < 3, ((runRounds (fun _ s => s) (fun _ => 0) k
      ((), onePage [0x8C02000C, 0, 0x00421821, 7])).all fun s => s.2.DelaySafe) = true := by
    decide +kernel
  refine (load_delay_transparent (fun _ s => s) fun _ _ h => h).2 _ 3 hb (fun k hk s' hs => ?_)
    fun _ => 1
  simpa [hs] using hsafe k hk

/-- The value of the load that is pending after an instruction. -/
def pendingValue (r : EStateM.Result Trap MachineState (Option ExceptionType)) :
    Option (BitVec 32) :=
  match r with
  | .ok none m => some (m.at loadValueReg)
  | _ => none

theorem pendingValue_eq_some {r : EStateM.Result Trap MachineState (Option ExceptionType)}
    {v : BitVec 32} (h : pendingValue r = some v) :
    ∃ m, r = .ok none m ∧ m.at loadValueReg = v := by
  unfold pendingValue at h
  split at h
  · exact ⟨_, rfl, Option.some.inj h⟩
  · cases h

/-- `lw $0, 8($1)` and `lwl $0, 1($1)`: the second instruction merges into register 0, for which a
load is pending, and finds another value after an interrupt. -/
theorem load_delay_visible : ∃ m, cpuSystem.Reachable m ∧
    (∃ i ∈ m.fetched, i.merges = true ∧ i.rt = (m.at loadReg).toNat ∧
      (m.at loadReg).toNat ∉ i.reads ∧ (m.at loadReg).toNat ∉ i.writes) ∧
    ∃ m' m'', oneInstruction m = .ok none m' ∧ oneInstruction m.commit = .ok none m'' ∧
      m''.at loadValueReg ≠ m'.at loadValueReg := by
  obtain ⟨m, hm, hi, hl, hv, hv'⟩ := cpuSystem.reaches (s := onePage [0x8C200008, 0x88200001, 7])
    ⟨Vector.replicate numTotalRegs 0, 1, Registers.initRegisters_eq _ _⟩ [.instruction]
    (fun m => m.fetched = some ⟨.lwl, 1, 0, 0, 1⟩ ∧ m.at loadReg = 0 ∧
      pendingValue (oneInstruction m) = some 0x00080007 ∧
      pendingValue (oneInstruction m.commit) = some 0x00080000) (by decide +kernel)
  obtain ⟨m', hm', hval⟩ := pendingValue_eq_some hv
  obtain ⟨m'', hm'', hval'⟩ := pendingValue_eq_some hv'
  refine ⟨m, hm, ⟨_, hi, ?_⟩, m', m'', hm', hm'', by rw [hval, hval']; decide⟩
  rw [hl]
  decide

end Nachos.Machine
