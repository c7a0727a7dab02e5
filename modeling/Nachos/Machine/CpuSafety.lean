import Nachos.Base.Footprint
import Nachos.Base.Transition
import Nachos.Machine.MipsSim

namespace Nachos.Machine

open Base

/-!
# Machine — the simulated processor runs any code

Whatever bytes a program consists of, the simulator stays inside its register file and its tables,
and every word decodes to an opcode that the switch has a case for.

The argument has three parts. `decode_eq_some`: the two tables and the cases of `BCOND` give handled
opcodes and register numbers below `NumGPRegs`. `uses_execute`: each case of the switch reads and
writes the registers its operands name, and of the registers of the simulation it writes `HiReg` and
`LoReg` only. So `LoadReg` holds a general register when `DelayedLoad` uses it as an index, and
what `DelayedLoad` leaves is such a state again (`Boundary`).
-/

/-! ### Footprints in the register file -/

/-- The registers as cells. -/
def regCells : Cells MachineState ℕ (BitVec 32) where
  get m i := m.registers[i]?.getD 0
  patch p m := { m with registers := Vector.ofFn fun i => (p i).getD m.registers[i] }

/-- The register `i` of a machine. -/
abbrev MachineState.at (m : MachineState) (i : ℕ) : BitVec 32 := regCells.get m i

/-- The faults that depend on memory and on the operands of a division. -/
def CpuFault.External (f : CpuFault) : Prop := f = .memory ∨ f = .divide

instance : DecidablePred CpuFault.External := fun _ => inferInstanceAs (Decidable (_ ∨ _))

/-- What an instruction may stop at. -/
def Trap.Expected : Trap → Prop
  | .exception _ _ => True
  | .fault f => f.External

/-- The computation reads registers in `A` and writes registers in `B`. -/
abbrev Uses {α : Type} (A B : Set ℕ) (Q : α → Prop) (c : Cpu α) : Prop :=
  Within regCells A B Trap.Expected Q c

section Access

variable {A B : Set ℕ} {i : ℕ} {m : MachineState}

theorem at_of_lt (m : MachineState) (hi : i < numTotalRegs) : m.at i = m.registers[i] := by
  simp [MachineState.at, regCells, hi]

/-- The machine after a write to register `i`. -/
def MachineState.put (m : MachineState) (i : ℕ) (v : BitVec 32) (hi : i < numTotalRegs) :
    MachineState :=
  { m with registers := m.registers.set i v hi }

@[simp] theorem put_mainMemory (m : MachineState) (v : BitVec 32) (hi : i < numTotalRegs) :
    (m.put i v hi).mainMemory = m.mainMemory := rfl

@[simp] theorem put_tables (m : MachineState) (v : BitVec 32) (hi : i < numTotalRegs) :
    (m.put i v hi).tables = m.tables := rfl

@[simp] theorem at_put (m : MachineState) (v : BitVec 32) (hi : i < numTotalRegs) (j : ℕ) :
    (m.put i v hi).at j = if i = j then v else m.at j := by
  simp only [MachineState.put, MachineState.at, regCells, Vector.getElem?_set]
  by_cases hij : i = j
  · subst hij; simp
  · simp [hij]

@[simp] theorem at_patch (p : ℕ → Option (BitVec 32)) (m : MachineState) (i : ℕ) :
    (regCells.patch p m).at i = if i < numTotalRegs then (p i).getD (m.at i) else 0 := by
  by_cases hi : i < numTotalRegs
  · simp [MachineState.at, regCells, hi]
  · simp [MachineState.at, regCells, hi]

@[simp] theorem patch_mainMemory (p : ℕ → Option (BitVec 32)) (m : MachineState) :
    (regCells.patch p m).mainMemory = m.mainMemory := by
  simp only [regCells]

@[simp] theorem patch_tables (p : ℕ → Option (BitVec 32)) (m : MachineState) :
    (regCells.patch p m).tables = m.tables := by
  simp only [regCells]

/-- Two machines with the same registers and the same memory are the same. -/
theorem MachineState.ext_at {m m' : MachineState} (hreg : ∀ i < numTotalRegs, m.at i = m'.at i)
    (hmem : m.mainMemory = m'.mainMemory) (htab : m.tables = m'.tables) : m = m' := by
  obtain ⟨r, mem, tab⟩ := m
  obtain ⟨r', mem', tab'⟩ := m'
  obtain rfl : mem = mem' := hmem
  obtain rfl : tab = tab' := htab
  congr 1
  ext i hi : 1
  have h := hreg i hi
  rwa [at_of_lt _ hi, at_of_lt _ hi] at h

theorem reg_eq (hi : i < numTotalRegs) (m : MachineState) : reg i m = .ok (m.at i) m := by
  simp [reg, MachineState.at, regCells, hi]

theorem setReg_eq (hi : i < numTotalRegs) (v : BitVec 32) (m : MachineState) :
    setReg i v m = .ok () (m.put i v hi) := by
  simp [setReg, hi, MachineState.put]

/-- A write to a register that is not overwritten. -/
theorem put_patch {p : ℕ → Option (BitVec 32)} (m : MachineState) {v : BitVec 32}
    {hi : i < numTotalRegs} (hp : p i = none) :
    (regCells.patch p m).put i v hi = regCells.patch p (m.put i v hi) := by
  refine MachineState.ext_at (fun j hj => ?_) (by simp) (by simp)
  simp only [at_put, at_patch, if_pos hj]
  by_cases hij : i = j
  · subst hij; simp [hp]
  · simp [hij]

theorem uses_reg {E : Trap → Prop} (hi : i < numTotalRegs) (hA : i ∈ A) :
    Within regCells A B E (fun _ => True) (reg i) where
  ok hs := by
    rw [reg_eq hi] at hs
    cases hs
    exact ⟨fun _ _ => rfl, trivial⟩
  error hs := by
    rw [reg_eq hi] at hs
    cases hs
  commutes {p} hp m := by
    have hnone : p i = none := by
      by_contra hne
      exact (hp i hne).1 hA
    rw [reg_eq hi, reg_eq hi, mapState_ok, at_patch, if_pos hi, hnone, Option.getD_none]

theorem uses_setReg {E : Trap → Prop} (hi : i < numTotalRegs) (hB : i ∈ B) (v : BitVec 32) :
    Within regCells A B E (fun _ => True) (setReg i v) where
  ok hs := by
    rw [setReg_eq hi] at hs
    cases hs
    refine ⟨fun j hj => ?_, trivial⟩
    have hij : i ≠ j := by
      rintro rfl
      exact hj hB
    exact (at_put _ v hi j).trans (if_neg hij)
  error hs := by
    rw [setReg_eq hi] at hs
    cases hs
  commutes {p} hp m := by
    have hnone : p i = none := by
      by_contra hne
      exact (hp i hne).2 hB
    rw [setReg_eq hi, setReg_eq hi, mapState_ok, put_patch m hnone]

theorem uses_load (addr : BitVec 32) (size : ℕ) : Uses A B (fun _ => True) (load addr size) where
  ok hs := by
    unfold load at hs
    split at hs <;> cases hs
    exact ⟨fun _ _ => rfl, trivial⟩
  error hs := by
    unfold load at hs
    split at hs <;> cases hs
    · exact ⟨fun _ _ => rfl, .inl rfl⟩
    · exact ⟨fun _ _ => rfl, trivial⟩
  commutes {p} _ m := by
    simp only [load, patch_tables, patch_mainMemory]
    split <;> simp [regCells]

theorem uses_store (addr : BitVec 32) (size : ℕ) (v : BitVec 32) :
    Uses A B (fun _ => True) (store addr size v) where
  ok hs := by
    unfold store at hs
    split at hs <;> cases hs
    exact ⟨fun _ _ => rfl, trivial⟩
  error hs := by
    unfold store at hs
    split at hs <;> cases hs
    · exact ⟨fun _ _ => rfl, .inl rfl⟩
    · exact ⟨fun _ _ => rfl, trivial⟩
  commutes {p} _ m := by
    simp only [store, patch_tables, patch_mainMemory]
    split <;> simp [regCells]

end Access

/-! ### What the cases of the switch use -/

/-- The opcode has a case in the switch. -/
def OpCode.Handled (op : OpCode) : Prop := op ≠ .rfe ∧ op ≠ .special ∧ op ≠ .bcond

instance : DecidablePred OpCode.Handled := fun _ => inferInstanceAs (Decidable (_ ∧ _ ∧ _))

namespace Instruction

/-- What `Decode` guarantees. -/
structure Valid (i : Instruction) : Prop where
  handled : i.opCode.Handled
  rs : i.rs < numGPRegs
  rt : i.rt < numGPRegs
  rd : i.rd < numGPRegs

/-- The general registers that an instruction has as operands. -/
def reads (i : Instruction) : List ℕ :=
  match i.opCode with
  | .add | .addu | .and | .beq | .bne | .div | .divu | .mult | .multu | .nor | .or | .sb | .sh
  | .sllv | .slt | .sltu | .srav | .srlv | .sub | .subu | .sw | .swl | .swr | .xor => [i.rs, i.rt]
  | .addi | .addiu | .andi | .bgez | .bgezal | .bgtz | .blez | .bltz | .bltzal | .jalr | .jr
  | .lb | .lbu | .lh | .lhu | .lw | .lwl | .lwr | .mthi | .mtlo | .ori | .slti | .sltiu
  | .xori => [i.rs]
  | .sll | .sra | .srl => [i.rt]
  | .j | .jal | .lui | .mfhi | .mflo | .syscall | .unimp | .res | .rfe | .special | .bcond => []

/-- The general registers that an instruction writes itself, that is not by a delayed load. -/
def writes (i : Instruction) : List ℕ :=
  match i.opCode with
  | .add | .addu | .and | .jalr | .mfhi | .mflo | .nor | .or | .sll | .sllv | .slt | .sltu | .sra
  | .srav | .srl | .srlv | .sub | .subu | .xor => [i.rd]
  | .addi | .addiu | .andi | .lui | .ori | .slti | .sltiu | .xori => [i.rt]
  | .bgezal | .bltzal | .jal => [retAddrReg]
  | _ => []

/-- `LWL` and `LWR` merge what they load into the register, which may be pending itself. -/
def merges (i : Instruction) : Bool := i.opCode == .lwl || i.opCode == .lwr

/-- An instruction has the operands `rs` and `rt`, one of them, or none. -/
theorem reads_cases (i : Instruction) :
    i.reads = [i.rs, i.rt] ∨ i.reads = [i.rs] ∨ i.reads = [i.rt] ∨ i.reads = [] := by
  obtain ⟨op, rs, rt, rd, extra⟩ := i
  cases op
  all_goals first
    | exact .inl rfl
    | exact .inr (.inl rfl)
    | exact .inr (.inr (.inl rfl))
    | exact .inr (.inr (.inr rfl))

/-- An instruction writes `rd`, `rt` or the return address, or nothing. -/
theorem writes_cases (i : Instruction) :
    i.writes = [i.rd] ∨ i.writes = [i.rt] ∨ i.writes = [retAddrReg] ∨ i.writes = [] := by
  obtain ⟨op, rs, rt, rd, extra⟩ := i
  cases op
  all_goals first
    | exact .inl rfl
    | exact .inr (.inl rfl)
    | exact .inr (.inr (.inl rfl))
    | exact .inr (.inr (.inr rfl))

theorem Valid.reads_lt {i : Instruction} (hv : i.Valid) {j : ℕ} (hj : j ∈ i.reads) :
    j < numGPRegs := by
  have hrs := hv.rs
  have hrt := hv.rt
  rcases i.reads_cases with h | h | h | h <;> rw [h] at hj <;> simp at hj <;> omega

theorem Valid.writes_lt {i : Instruction} (hv : i.Valid) {j : ℕ} (hj : j ∈ i.writes) :
    j < numGPRegs := by
  have hrt := hv.rt
  have hrd := hv.rd
  have hra : retAddrReg < numGPRegs := by decide
  rcases i.writes_cases with h | h | h | h <;> rw [h] at hj <;> simp at hj <;> omega

/-- All registers that an instruction reads. -/
def sources (i : Instruction) : Set ℕ :=
  { j | j ∈ i.reads ∨ j ∈ [hiReg, loReg, nextPCReg] ∨
    i.merges = true ∧ j ∈ [loadReg, loadValueReg, i.rt] }

/-- All registers that an instruction writes before its end. -/
def targets (i : Instruction) : Set ℕ := { j | j ∈ i.writes ∨ j ∈ [hiReg, loReg] }

end Instruction

section Cases

variable {A B : Set ℕ} {i : Instruction} {pcAfter : BitVec 32} {Q : Effect → Prop}

/-- The end of a case: the register of a new load is a general one. -/
abbrev Effect.Valid (e : Effect) : Prop := e.nextLoadReg < numGPRegs

theorem valid_zero (v pc : BitVec 32) : Effect.Valid ⟨0, v, pc⟩ := Nat.zero_lt_succ _

theorem lt_total {i : ℕ} (h : i < numGPRegs) : i < numTotalRegs := by
  unfold numGPRegs at h
  unfold numTotalRegs
  omega

theorem uses_thenNext {c : Cpu Unit} (h : Uses A B (fun _ => True) c) :
    Uses A B Effect.Valid (thenNext pcAfter c) :=
  h.bind fun _ _ => .pure (valid_zero _ _)

theorem uses_shift (hv : i.Valid) (ht : i.rt ∈ A) (hd : i.rd ∈ B) (f : BitVec 32 → ℕ → BitVec 32) :
    Uses A B (fun _ => True) (shift i f) := by
  refine (uses_reg (lt_total hv.rt) ht).bind fun rt _ => ?_
  exact uses_setReg (lt_total hv.rd) hd _

theorem uses_move {E : Trap → Prop} {dst src : ℕ} (hdst : dst < numTotalRegs)
    (hsrc : src < numTotalRegs) (hA : src ∈ A) (hB : dst ∈ B) :
    Within regCells A B E (fun _ => True) (move dst src) :=
  (uses_reg hsrc hA).bind fun v _ => uses_setReg hdst hB v

theorem uses_unlessOverflow {dst : ℕ} (hdst : dst < numTotalRegs) (hB : dst ∈ B) (overflow : Bool)
    (v : BitVec 32) : Uses A B (fun _ => True) (unlessOverflow overflow dst v) :=
  .ite (fun _ => .throw trivial) fun _ => uses_setReg hdst hB v

/-- A result that goes to `HiReg` and `LoReg`. -/
theorem uses_setPair {x y : ℕ} (hx : x < numTotalRegs) (hy : y < numTotalRegs) (hxB : x ∈ B)
    (hyB : y ∈ B) (v w : BitVec 32) :
    Uses A B (fun _ => True) (do setReg x v; setReg y w) :=
  (uses_setReg hx hxB v).bind fun _ _ => uses_setReg hy hyB w

theorem uses_link {dst : ℕ} (hdst : dst < numTotalRegs) (hpc : nextPCReg ∈ A) (hB : dst ∈ B) :
    Uses A B (fun _ => True) (link dst) :=
  (uses_reg (by decide) hpc).bind fun _ _ => uses_setReg hdst hB _

theorem uses_branchTo (hpc : nextPCReg ∈ A) (taken : Bool) :
    Uses A B Effect.Valid (branchTo i pcAfter taken) := by
  refine .ite (fun _ => ?_) fun _ => .pure (valid_zero _ _)
  exact (uses_reg (by decide) hpc).bind fun _ _ => .pure (valid_zero _ _)

theorem uses_forwarded (hv : i.Valid) (ht : i.rt ∈ A) (hl : loadReg ∈ A) (hlv : loadValueReg ∈ A) :
    Uses A B (fun _ => True) (forwarded i.rt) := by
  refine (uses_reg (by decide) hl).bind fun pending _ => ?_
  exact .ite (fun _ => uses_reg (by decide) hlv) fun _ => uses_reg (lt_total hv.rt) ht

section Operands

variable (hv : i.Valid) (hs : i.rs ∈ A)

include hv hs

theorem uses_rs : Uses A B (fun _ => True) (reg i.rs) := uses_reg (lt_total hv.rs) hs

theorem uses_immediate (ht : i.rt ∈ B) (f : BitVec 32 → BitVec 32 → BitVec 32) :
    Uses A B (fun _ => True) (immediate i f) :=
  (uses_rs hv hs).bind fun _ _ => uses_setReg (lt_total hv.rt) ht _

theorem uses_addiOverflow (ht : i.rt ∈ B) : Uses A B (fun _ => True) (addiOverflow i) :=
  (uses_rs hv hs).bind fun _ _ => uses_unlessOverflow (lt_total hv.rt) ht _ _

theorem uses_branchIf (hpc : nextPCReg ∈ A) (taken : BitVec 32 → Bool) :
    Uses A B Effect.Valid (branchIf i pcAfter taken) :=
  (uses_rs hv hs).bind fun _ _ => uses_branchTo hpc _

theorem uses_jumpRegister : Uses A B Effect.Valid (jumpRegister i) :=
  (uses_rs hv hs).bind fun _ _ => .pure (valid_zero _ _)

theorem uses_address : Uses A B (fun _ => True) (address i) :=
  (uses_rs hv hs).bind fun _ _ => .pure trivial

theorem uses_loadByte (signed : Bool) : Uses A B Effect.Valid (loadByte i pcAfter signed) := by
  refine (uses_address hv hs).bind fun tmp _ => ?_
  exact (uses_load tmp 1).bind fun _ _ => .pure hv.rt

theorem uses_loadHalf (signed : Bool) : Uses A B Effect.Valid (loadHalf i pcAfter signed) := by
  refine (uses_address hv hs).bind fun tmp _ => ?_
  refine .ite (fun _ => .throw trivial) fun _ => ?_
  exact (uses_load tmp 2).bind fun _ _ => .pure hv.rt

theorem uses_loadWord : Uses A B Effect.Valid (loadWord i pcAfter) := by
  refine (uses_address hv hs).bind fun tmp _ => ?_
  refine .ite (fun _ => .throw trivial) fun _ => ?_
  exact (uses_load tmp 4).bind fun _ _ => .pure hv.rt

theorem uses_loadAligned : Uses A B (fun _ => True) (loadAligned i) := by
  refine (uses_address hv hs).bind fun tmp _ => ?_
  exact (uses_load _ 4).bind fun _ _ => .pure trivial

variable (ht : i.rt ∈ A)

include ht

theorem uses_operands {α : Type} {Q : α → Prop} {g : BitVec 32 → BitVec 32 → Cpu α}
    (h : ∀ rs rt, Uses A B Q (g rs rt)) : Uses A B Q (do g (← reg i.rs) (← reg i.rt)) := by
  refine (uses_rs hv hs).bind fun rs _ => ?_
  exact (uses_reg (lt_total hv.rt) ht).bind fun rt _ => h rs rt

theorem uses_binary (hd : i.rd ∈ B) (f : BitVec 32 → BitVec 32 → BitVec 32) :
    Uses A B (fun _ => True) (binary i f) :=
  uses_operands hv hs ht fun _ _ => uses_setReg (lt_total hv.rd) hd _

theorem uses_addOverflow (hd : i.rd ∈ B) : Uses A B (fun _ => True) (addOverflow i) :=
  uses_operands hv hs ht fun _ _ => uses_unlessOverflow (lt_total hv.rd) hd _ _

theorem uses_subOverflow (hd : i.rd ∈ B) : Uses A B (fun _ => True) (subOverflow i) :=
  uses_operands hv hs ht fun _ _ => uses_unlessOverflow (lt_total hv.rd) hd _ _

theorem uses_divide (hhi : hiReg ∈ B) (hlo : loReg ∈ B) : Uses A B (fun _ => True) (divide i) := by
  refine uses_operands hv hs ht fun rs rt => ?_
  refine .ite (fun _ => uses_setPair (by decide) (by decide) hlo hhi _ _) fun _ => ?_
  refine .ite (fun _ => .throw (.inr rfl)) fun _ => ?_
  exact uses_setPair (by decide) (by decide) hlo hhi _ _

theorem uses_divideUnsigned (hhi : hiReg ∈ B) (hlo : loReg ∈ B) :
    Uses A B (fun _ => True) (divideUnsigned i) := by
  refine uses_operands hv hs ht fun rs rt => .ite (fun _ => ?_) fun _ => ?_
  · exact uses_setPair (by decide) (by decide) hlo hhi _ _
  · exact uses_setPair (by decide) (by decide) hlo hhi _ _

theorem uses_multiply (hhi : hiReg ∈ B) (hlo : loReg ∈ B) (signedArith : Bool) :
    Uses A B (fun _ => True) (multiply i signedArith) :=
  uses_operands hv hs ht fun _ _ => uses_setPair (by decide) (by decide) hhi hlo _ _

theorem uses_branchCompare (hpc : nextPCReg ∈ A) (taken : BitVec 32 → BitVec 32 → Bool) :
    Uses A B Effect.Valid (branchCompare i pcAfter taken) :=
  uses_operands hv hs ht fun _ _ => uses_branchTo hpc _

theorem uses_loadPart (hl : loadReg ∈ A) (hlv : loadValueReg ∈ A)
    (f : ℕ → BitVec 32 → BitVec 32 → BitVec 32) : Uses A B Effect.Valid (loadPart i pcAfter f) := by
  refine (uses_loadAligned hv hs).bind fun r _ => ?_
  exact (uses_forwarded hv ht hl hlv).bind fun _ _ => .pure hv.rt

theorem uses_storeReg (size : ℕ) : Uses A B (fun _ => True) (storeReg i size) := by
  refine (uses_address hv hs).bind fun addr _ => ?_
  exact (uses_reg (lt_total hv.rt) ht).bind fun _ _ => uses_store addr size _

theorem uses_storePart (f : ℕ → BitVec 32 → BitVec 32 → BitVec 32) :
    Uses A B (fun _ => True) (storePart i f) := by
  refine (uses_loadAligned hv hs).bind fun r _ => ?_
  exact (uses_reg (lt_total hv.rt) ht).bind fun _ _ => uses_store _ 4 _

end Operands

end Cases

/-- **Footprint of the switch.** Every case reads its operands and writes its results, and the
default case is not reached. -/
theorem uses_execute {i : Instruction} (hv : i.Valid) (pcAfter : BitVec 32) :
    Uses i.sources i.targets Effect.Valid (execute i pcAfter) := by
  obtain ⟨op, rs, rt, rd, extra⟩ := i
  have hpc : nextPCReg ∈ Instruction.sources ⟨op, rs, rt, rd, extra⟩ := .inr (.inl (by decide))
  have hhi : hiReg ∈ Instruction.targets ⟨op, rs, rt, rd, extra⟩ := .inr (by decide)
  have hlo : loReg ∈ Instruction.targets ⟨op, rs, rt, rd, extra⟩ := .inr (by decide)
  cases op
  case addu | and | nor | or | sllv | slt | sltu | srav | srlv | subu | xor =>
    exact uses_thenNext (uses_binary hv (.inl (.head _)) (.inl (.tail _ (.head _)))
      (.inl (.head _)) _)
  case addiu | andi | ori | slti | sltiu | xori =>
    exact uses_thenNext (uses_immediate hv (.inl (.head _)) (.inl (.head _)) _)
  case sll | sra | srl => exact uses_thenNext (uses_shift hv (.inl (.head _)) (.inl (.head _)) _)
  case add =>
    exact uses_thenNext (uses_addOverflow hv (.inl (.head _)) (.inl (.tail _ (.head _)))
      (.inl (.head _)))
  case sub =>
    exact uses_thenNext (uses_subOverflow hv (.inl (.head _)) (.inl (.tail _ (.head _)))
      (.inl (.head _)))
  case addi => exact uses_thenNext (uses_addiOverflow hv (.inl (.head _)) (.inl (.head _)))
  case div =>
    exact uses_thenNext (uses_divide hv (.inl (.head _)) (.inl (.tail _ (.head _))) hhi hlo)
  case divu =>
    exact uses_thenNext (uses_divideUnsigned hv (.inl (.head _)) (.inl (.tail _ (.head _))) hhi hlo)
  case mult | multu =>
    exact uses_thenNext (uses_multiply hv (.inl (.head _)) (.inl (.tail _ (.head _))) hhi hlo _)
  case beq | bne => exact uses_branchCompare hv (.inl (.head _)) (.inl (.tail _ (.head _))) hpc _
  case bgez | bgtz | blez | bltz => exact uses_branchIf hv (.inl (.head _)) hpc _
  case bgezal | bltzal =>
    refine (uses_link (by decide) hpc (.inl (.head _))).bind fun _ _ => ?_
    exact uses_branchIf hv (.inl (.head _)) hpc _
  case j => exact .pure (valid_zero _ _)
  case jal =>
    refine (uses_link (by decide) hpc (.inl (.head _))).bind fun _ _ => ?_
    exact .pure (valid_zero _ _)
  case jr => exact uses_jumpRegister hv (.inl (.head _))
  case jalr =>
    refine (uses_link (lt_total hv.rd) hpc (.inl (.head _))).bind fun _ _ => ?_
    exact uses_jumpRegister hv (.inl (.head _))
  case lb | lbu => exact uses_loadByte hv (.inl (.head _)) _
  case lh | lhu => exact uses_loadHalf hv (.inl (.head _)) _
  case lw => exact uses_loadWord hv (.inl (.head _))
  case lwl | lwr =>
    exact uses_loadPart hv (.inl (.head _)) (.inr (.inr ⟨rfl, by simp⟩))
      (.inr (.inr ⟨rfl, by simp⟩)) (.inr (.inr ⟨rfl, by simp⟩)) _
  case lui => exact uses_thenNext (uses_setReg (lt_total hv.rt) (.inl (.head _)) _)
  case mfhi | mflo =>
    exact uses_thenNext (uses_move (lt_total hv.rd) (by decide) (.inr (.inl (by decide)))
      (.inl (.head _)))
  case mthi => exact uses_thenNext (uses_move (by decide) (lt_total hv.rs) (.inl (.head _)) hhi)
  case mtlo => exact uses_thenNext (uses_move (by decide) (lt_total hv.rs) (.inl (.head _)) hlo)
  case sb | sh | sw =>
    exact uses_thenNext (uses_storeReg hv (.inl (.head _)) (.inl (.tail _ (.head _))) _)
  case swl | swr =>
    exact uses_thenNext (uses_storePart hv (.inl (.head _)) (.inl (.tail _ (.head _))) _)
  case syscall | unimp | res => exact .throw trivial
  case rfe => exact absurd rfl hv.handled.1
  case special => exact absurd rfl hv.handled.2.1
  case bcond => exact absurd rfl hv.handled.2.2

/-! ### Every word decodes -/

theorem field_lt (field : BitVec 32) {n : ℕ} {mask : BitVec 32} (hmask : mask.toNat < n) :
    (field &&& mask).toNat < n :=
  Nat.lt_of_le_of_lt (by rw [BitVec.toNat_and]; exact Nat.and_le_right) hmask

theorem bcondOp_handled (i : BitVec 32) : (bcondOp i).Handled := by
  unfold bcondOp
  repeat' split
  all_goals decide

theorem opCodeOf_eq_some {op : OpCode} (h : op ≠ .rfe) (value : BitVec 32) :
    ∃ opCode, opCodeOf op value = some opCode ∧ opCode.Handled := by
  have hspecial : ∀ op ∈ specialTable, op.Handled := by decide
  unfold opCodeOf
  split
  · have hlt : (value &&& 0x3f#32).toNat < specialTable.length := field_lt value (by decide)
    exact ⟨_, List.getElem?_eq_getElem hlt, hspecial _ (List.getElem_mem hlt)⟩
  · exact ⟨_, rfl, bcondOp_handled _⟩
  · rename_i hs hb
    exact ⟨op, rfl, h, hs, hb⟩

/-- **Decoding.** Every word is an instruction with a case in the switch and with register numbers
below `NumGPRegs`. -/
theorem decode_eq_some (value : BitVec 32) : ∃ i, decode value = some i ∧ i.Valid := by
  have hop : ∀ e ∈ opTable, e.1 ≠ .rfe := by decide
  obtain ⟨⟨op, format⟩, hentry⟩ : ∃ e, opTable[((value >>> 26) &&& 0x3f#32).toNat]? = some e :=
    ⟨_, List.getElem?_eq_getElem (field_lt _ (by decide))⟩
  obtain ⟨opCode, hcode, hhandled⟩ := opCodeOf_eq_some (hop _ (List.mem_of_getElem? hentry)) value
  have hdecode : decode value = some ⟨opCode, ((value >>> 21) &&& 0x1f#32).toNat,
      ((value >>> 16) &&& 0x1f#32).toNat, ((value >>> 11) &&& 0x1f#32).toNat,
      extraOf format value⟩ := by
    simp only [decode, hentry, Option.bind_eq_bind, Option.bind_some, hcode, Option.pure_def]
  refine ⟨_, hdecode, hhandled, ?_, ?_, ?_⟩
  · exact field_lt (value >>> 21) (by decide)
  · exact field_lt (value >>> 16) (by decide)
  · exact field_lt (value >>> 11) (by decide)

/-! ### Between two instructions -/

/-- What holds between two instructions: register 0 is zero, and a load that is still to be done
goes to a general register. -/
structure MachineState.Boundary (m : MachineState) : Prop where
  zero : m.at 0 = 0
  pending : (m.at loadReg).toNat < numGPRegs

/-- What `DelayedLoad` leaves. -/
def MachineState.afterLoad (m : MachineState) (nextReg : ℕ) (nextValue : BitVec 32) :
    MachineState :=
  { m with registers := Vector.ofFn fun j =>
      if (j : ℕ) = 0 then 0
      else if (j : ℕ) = loadValueReg then nextValue
      else if (j : ℕ) = loadReg then BitVec.ofNat 32 nextReg
      else if (j : ℕ) = (m.at loadReg).toNat then m.at loadValueReg
      else m.at j }

theorem at_afterLoad (m : MachineState) (nextReg : ℕ) (nextValue : BitVec 32) {j : ℕ}
    (hj : j < numTotalRegs) : (m.afterLoad nextReg nextValue).at j =
      if j = 0 then 0
      else if j = loadValueReg then nextValue
      else if j = loadReg then BitVec.ofNat 32 nextReg
      else if j = (m.at loadReg).toNat then m.at loadValueReg
      else m.at j := by
  rw [at_of_lt _ hj, MachineState.afterLoad, Vector.getElem_ofFn]

/-- `DelayedLoad` does not leave the register file if the pending register is in it. -/
theorem delayedLoad_eq {m : MachineState} (h : (m.at loadReg).toNat < numTotalRegs) (nextReg : ℕ)
    (nextValue : BitVec 32) :
    delayedLoad nextReg nextValue m = .ok () (m.afterLoad nextReg nextValue) := by
  have hl : loadReg < numTotalRegs := by decide
  have hlv : loadValueReg < numTotalRegs := by decide
  have h0 : 0 < numTotalRegs := by decide
  unfold delayedLoad
  rw [bind_ok (reg_eq hl m), bind_ok (reg_eq hlv m), bind_ok (setReg_eq h _ m),
    bind_ok (setReg_eq hl _ _), bind_ok (setReg_eq hlv _ _), setReg_eq h0]
  refine congrArg (EStateM.Result.ok ()) ?_
  refine MachineState.ext_at (fun j hj => ?_)
    (by simp only [MachineState.afterLoad, put_mainMemory])
    (by simp only [MachineState.afterLoad, put_tables])
  rw [at_afterLoad m nextReg nextValue hj, at_put, at_put, at_put, at_put]
  simp only [eq_comm (b := j)]

theorem boundary_afterLoad (m : MachineState) {nextReg : ℕ} (h : nextReg < numGPRegs)
    (nextValue : BitVec 32) : (m.afterLoad nextReg nextValue).Boundary := by
  constructor
  · rw [at_afterLoad _ _ _ (by decide), if_pos rfl]
  · rw [at_afterLoad _ _ _ (by decide), if_neg (by decide), if_neg (by decide), if_pos rfl,
      BitVec.toNat_ofNat]
    exact Nat.lt_of_le_of_lt (Nat.mod_le _ _) h

theorem uses_fetch : Uses { pcReg } ∅ Instruction.Valid fetch := by
  refine (uses_reg (by decide) (Set.mem_singleton pcReg)).bind fun pc _ => ?_
  refine (uses_load pc 4).bind fun raw _ => ?_
  obtain ⟨i, hi, hv⟩ := decode_eq_some raw
  rw [hi]
  exact .pure hv

/-- Up to the end of the switch an instruction writes general registers, `HiReg` and `LoReg`. -/
theorem uses_perform : Uses Set.univ { j | j < numGPRegs ∨ j = hiReg ∨ j = loReg } Effect.Valid
    perform := by
  refine (uses_fetch.mono (Set.subset_univ _) (Set.empty_subset _)).bind fun i hv => ?_
  refine (uses_reg (i := nextPCReg) (by decide) (Set.mem_univ _)).bind fun nextPC _ => ?_
  refine (uses_execute hv _).mono (Set.subset_univ _) fun j hj => ?_
  rcases hj with hj | hj
  · exact .inl (hv.writes_lt hj)
  · exact .inr (List.mem_pair.mp hj)

theorem uses_advance (pcAfter : BitVec 32) :
    Within regCells { j | j = pcReg ∨ j = nextPCReg }
      { j | j = prevPCReg ∨ j = pcReg ∨ j = nextPCReg }
      (fun _ => False) (fun _ => True) (advance pcAfter) := by
  refine (uses_move (by decide) (by decide) (.inl rfl) (.inl rfl)).bind fun _ _ => ?_
  refine (uses_move (by decide) (by decide) (.inr rfl) (.inr (.inl rfl))).bind fun _ _ => ?_
  exact uses_setReg (by decide) (.inr (.inr rfl)) pcAfter

section Boundary

variable {m : MachineState}

/-- A change of registers other than 0 and `LoadReg` does not matter. -/
theorem MachineState.Boundary.sameOff {m' : MachineState} {B : Set ℕ} (h : m.Boundary)
    (hsame : SameOff regCells B m m') (h0 : 0 ∉ B) (hl : loadReg ∉ B) : m'.Boundary :=
  ⟨(hsame 0 h0).trans h.zero, by rw [MachineState.at, hsame loadReg hl]; exact h.pending⟩

theorem move_eq {dst src : ℕ} (hdst : dst < numTotalRegs) (hsrc : src < numTotalRegs)
    (m : MachineState) : move dst src m = .ok () (m.put dst (m.at src) hdst) := by
  rw [move, bind_ok (reg_eq hsrc m), setReg_eq hdst]

/-- The end of `OneInstruction`: the pending load and the program counters. -/
theorem complete_at (h : (m.at loadReg).toNat < numGPRegs) (e : Effect) :
    ∃ m', complete e m = .ok () m' ∧ m'.mainMemory = m.mainMemory ∧ m'.tables = m.tables ∧
      ∀ j, m'.at j =
        if j = nextPCReg then e.pcAfter
        else if j = pcReg then (m.afterLoad e.nextLoadReg e.nextLoadValue).at nextPCReg
        else if j = prevPCReg then (m.afterLoad e.nextLoadReg e.nextLoadValue).at pcReg
        else (m.afterLoad e.nextLoadReg e.nextLoadValue).at j := by
  have hpc : pcReg < numTotalRegs := by decide
  have hnext : nextPCReg < numTotalRegs := by decide
  have hprev : prevPCReg < numTotalRegs := by decide
  have hne : prevPCReg ≠ nextPCReg := by decide
  rw [complete, bind_ok (delayedLoad_eq (lt_total h) _ _), advance, bind_ok (move_eq hprev hpc _),
    bind_ok (move_eq hpc hnext _), setReg_eq hnext]
  refine ⟨_, rfl, ?_, ?_, fun j => ?_⟩
  · simp only [put_mainMemory, MachineState.afterLoad]
  · simp only [put_tables, MachineState.afterLoad]
  · simp only [at_put, if_neg hne, eq_comm (b := j)]

/-- What the next instruction finds. -/
theorem complete_spec (h : (m.at loadReg).toNat < numGPRegs) {e : Effect} (he : e.Valid) :
    ∃ m', complete e m = .ok () m' ∧ m'.Boundary ∧ m'.mainMemory = m.mainMemory ∧
      m'.tables = m.tables ∧ m'.at loadReg = BitVec.ofNat 32 e.nextLoadReg ∧
      m'.at loadValueReg = e.nextLoadValue := by
  obtain ⟨m', hc, hmem, htab, hat⟩ := complete_at h e
  have hb := boundary_afterLoad m he e.nextLoadValue
  have hload : m'.at loadReg = _ := hat loadReg
  refine ⟨m', hc, ⟨(hat 0).trans hb.zero, ?_⟩, hmem, htab, ?_, ?_⟩
  · rw [hload]
    exact hb.pending
  · exact hload.trans (at_afterLoad _ _ _ (by decide))
  · exact (hat loadValueReg).trans (at_afterLoad _ _ _ (by decide))

/-- What the kernel finds after an exception. -/
def MachineState.raised (m : MachineState) (badVAddr : BitVec 32) : MachineState :=
  (m.put badVAddrReg badVAddr (by decide)).afterLoad 0 0

theorem raiseException_eq (h : (m.at loadReg).toNat < numGPRegs) (badVAddr : BitVec 32) :
    raiseException badVAddr m = .ok () (m.raised badVAddr) := by
  have hl : (m.put badVAddrReg badVAddr (by decide)).at loadReg = m.at loadReg := by
    rw [at_put, if_neg (by decide)]
  rw [raiseException, bind_ok (setReg_eq (by decide) badVAddr m)]
  exact delayedLoad_eq (by rw [hl]; exact lt_total h) 0 0

theorem boundary_raised (m : MachineState) (badVAddr : BitVec 32) : (m.raised badVAddr).Boundary :=
  boundary_afterLoad _ (by decide) 0

/-- `OneInstruction` by what stops it. -/
theorem oneInstruction_eq (m : MachineState) : oneInstruction m =
    match instruction m with
    | .ok () m' => .ok none m'
    | .error (.exception which badVAddr) m' =>
      (raiseException badVAddr >>= fun _ => pure (some which)) m'
    | .error (.fault f) m' => .error (.fault f) m' := by
  simp only [oneInstruction, tryCatch, tryCatchThe, MonadExceptOf.tryCatch, EStateM.tryCatch]
  cases hi : instruction m with
  | ok a m' =>
    rw [bind_ok hi]
    rfl
  | error t m' =>
    rw [bind_error hi]
    cases t <;> rfl

theorem oneInstruction_of_ok {m' : MachineState} (h : instruction m = .ok () m') :
    oneInstruction m = .ok none m' := by
  rw [oneInstruction_eq, h]

theorem oneInstruction_of_fault {f : CpuFault} {m' : MachineState}
    (h : instruction m = .error (.fault f) m') : oneInstruction m = .error (.fault f) m' := by
  rw [oneInstruction_eq, h]

theorem oneInstruction_of_exception {which : ExceptionType} {badVAddr : BitVec 32}
    {m' : MachineState} (h : instruction m = .error (.exception which badVAddr) m')
    (hlt : (m'.at loadReg).toNat < numGPRegs) :
    oneInstruction m = .ok (some which) (m'.raised badVAddr) := by
  rw [oneInstruction_eq, h]
  simp only [bind_ok (raiseException_eq hlt badVAddr)]
  rfl

/-- **One instruction.** It leads from one boundary to the next, unless memory or a division stops
the simulator. -/
theorem MachineState.Boundary.oneInstruction (h : m.Boundary) :
    (∃ which m', oneInstruction m = .ok which m' ∧ m'.Boundary) ∨
    ∃ f m', oneInstruction m = .error (.fault f) m' ∧ f.External := by
  have hkeep : ∀ {m'}, SameOff regCells { j | j < numGPRegs ∨ j = hiReg ∨ j = loReg } m m' →
      (m'.at loadReg).toNat < numGPRegs := by
    intro m' hsame
    rw [MachineState.at, hsame loadReg (by decide)]
    exact h.pending
  cases hp : perform m with
  | ok e m₁ =>
    obtain ⟨hsame, he⟩ := uses_perform.ok hp
    obtain ⟨m', hc, hb, -⟩ := complete_spec (hkeep hsame) he
    have hi : instruction m = .ok () m' := by rw [instruction, bind_ok hp, hc]
    exact .inl ⟨none, m', oneInstruction_of_ok hi, hb⟩
  | error t m₁ =>
    obtain ⟨hsame, ht⟩ := uses_perform.error hp
    have hi : instruction m = .error t m₁ := by rw [instruction, bind_error hp]
    cases t with
    | fault f => exact .inr ⟨f, m₁, oneInstruction_of_fault hi, ht⟩
    | exception which badVAddr =>
      exact .inl ⟨some which, _, oneInstruction_of_exception hi (hkeep hsame), boundary_raised _ _⟩

end Boundary

/-! ### Runs -/

/-- What can happen next. After an exception the kernel may do any of the others. -/
inductive CpuAction where
  /-- `OneInstruction`. -/
  | instruction
  /-- `DelayedLoad(0, 0)`, called for an interrupt. -/
  | delayedLoad
  /-- The kernel writes the result register or a program counter. -/
  | writeRegister (num : ℕ) (value : BitVec 32)
  /-- The kernel changes the memory and the translation tables. -/
  | setMemory (mainMemory : ℕ → UInt8) (tables : Tables)

/-- The outcome of a computation. Where memory or a division stops the simulator there is no next
state. -/
def outcome {α : Type} : EStateM.Result Trap MachineState α → Outcome MachineState
  | .ok _ m => .next m
  | .error (.fault f) _ => if f.External then .disabled else .fault
  | .error (.exception _ _) _ => .fault

/-- One action. -/
def MachineState.next (m : MachineState) : CpuAction → Outcome MachineState
  | .instruction => outcome (Machine.oneInstruction m)
  | .delayedLoad => outcome (Machine.delayedLoad 0 0 m)
  | .writeRegister num value =>
    if num = 2 ∨ num = pcReg ∨ num = nextPCReg ∨ num = prevPCReg then
      match m.registers.writeRegister num value with
      | some r => .next { m with registers := r }
      | none => .fault
    else .disabled
  | .setMemory mainMemory tables => .next { m with mainMemory := mainMemory, tables := tables }

/-- Any code, from `InitRegisters` on. -/
def cpuSystem : LTS MachineState CpuAction where
  init := fun m => ∃ (r : Registers) (numPages : ℕ), r.initRegisters numPages = some m.registers
  next := MachineState.next

theorem boundary_init {m : MachineState} (h : cpuSystem.init m) : m.Boundary := by
  obtain ⟨r, numPages, hr⟩ := h
  rw [Registers.initRegisters_eq, Option.some.injEq] at hr
  have h0 : m.at 0 = 0 := by
    rw [at_of_lt m (by decide), ← hr]
    simp [pcReg, nextPCReg, stackReg]
  have hl : m.at loadReg = 0 := by
    rw [at_of_lt m (by decide), ← hr]
    simp [pcReg, nextPCReg, stackReg, loadReg]
  exact ⟨h0, by rw [hl]; decide⟩

theorem MachineState.Boundary.next {m : MachineState} (h : m.Boundary) (a : CpuAction) :
    (m.next a).Meets MachineState.Boundary := by
  cases a with
  | instruction =>
    rcases h.oneInstruction with ⟨which, m', heq, hb⟩ | ⟨f, m', heq, hf⟩
    · show (outcome (Machine.oneInstruction m)).Meets _
      rw [heq]
      exact hb
    · show (outcome (Machine.oneInstruction m)).Meets _
      rw [heq, outcome, if_pos hf]
      trivial
  | delayedLoad =>
    show (outcome (Machine.delayedLoad 0 0 m)).Meets _
    rw [delayedLoad_eq (lt_total h.pending) 0 0]
    exact boundary_afterLoad m (by decide) 0
  | writeRegister num value =>
    refine Outcome.Meets.ite fun hnum => ?_
    have hlt : num < numTotalRegs := by
      rcases hnum with rfl | rfl | rfl | rfl <;> decide
    rw [Registers.writeRegister_of_lt _ hlt]
    have hsame : SameOff regCells { num } m (m.put num value hlt) :=
      fun j hj => (at_put m value hlt j).trans (if_neg fun heq => hj heq.symm)
    refine h.sameOff hsame ?_ ?_
    · rcases hnum with rfl | rfl | rfl | rfl <;> decide
    · rcases hnum with rfl | rfl | rfl | rfl <;> decide
  | setMemory mainMemory tables => exact ⟨h.zero, h.pending⟩

/-- **Safety of the simulated processor.** In every run of any code, with kernel writes, changes of
memory and interrupts in between: register 0 is zero and the pending load goes to a general
register; the next instruction and the next `DelayedLoad(0, 0)` stay in the register file and
in the tables; and every word decodes to an instruction with a case in the switch. -/
theorem cpu_safe (m : MachineState) (h : cpuSystem.Reachable m) :
    m.Boundary ∧
    (∀ f m', oneInstruction m = .error (.fault f) m' → f = .memory ∨ f = .divide) ∧
    (∃ m', delayedLoad 0 0 m = .ok () m') ∧
    (∀ raw, ∃ i, decode raw = some i ∧ i.opCode.Handled) := by
  have hb : m.Boundary := by
    refine (h.safe (I := MachineState.Boundary) (fun _ => boundary_init) fun m a hm => hm.next a).1
  refine ⟨hb, fun f m' hf => ?_, ⟨_, delayedLoad_eq (lt_total hb.pending) 0 0⟩, fun raw => ?_⟩
  · rcases hb.oneInstruction with ⟨which, m'', heq, -⟩ | ⟨f', m'', heq, hext⟩
    · rw [heq] at hf
      cases hf
    · rw [heq] at hf
      cases hf
      exact hext
  · obtain ⟨i, hi, hv⟩ := decode_eq_some raw
    exact ⟨i, hi, hv.handled⟩

/-- A program of one page that starts with `addiu $0, $0, 5`. -/
def addToZero : MachineState where
  registers := (((Vector.replicate numTotalRegs 0).set pcReg 0 (by decide)).set
    nextPCReg 4 (by decide)).set stackReg (BitVec.ofNat 32 (1 * pageSize) - 16) (by decide)
  mainMemory := fun a => if a = 0 then 5 else if a = 3 then 0x24 else 0
  tables := ⟨none, some [⟨0, 0, true, false, false, false⟩], 1⟩

/-- The instruction writes 5 to register 0, which is zero again at the next boundary. -/
theorem cpu_safe_addToZero : ∃ m : MachineState, m.at pcReg = 4 ∧ m.Boundary := by
  obtain ⟨m, hm, hpc⟩ := cpuSystem.reaches (s := addToZero)
    ⟨Vector.replicate numTotalRegs 0, 1, Registers.initRegisters_eq _ _⟩
    [.instruction, .delayedLoad] (fun m => m.at pcReg = 4) (by decide +kernel)
  exact ⟨m, hpc, (cpu_safe m hm).1⟩

end Nachos.Machine
