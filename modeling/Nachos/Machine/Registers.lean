import Nachos.Machine.Translate

namespace Nachos.Machine

/-!
# Machine — the register file

`Machine::registers` is an array of `NumTotalRegs` words: the general registers and, behind
them, the registers of the simulation. `readRegister` and `writeRegister` check the register
number, so they return `none` where the `ASSERT` fails.

Three loops write all registers: `Thread::SaveUserState` and `Thread::RestoreUserState` copy a
register file (`copyTo`), and `AddrSpace::InitRegisters` clears it before it sets the few
registers a program starts with (`initRegisters`). `writeLoop_eq` is the one fact about them.
-/

/-- `StackReg`. -/
def stackReg : ℕ := 29

/-- `RetAddrReg`. -/
def retAddrReg : ℕ := 31

/-- `NumGPRegs`. -/
def numGPRegs : ℕ := 32

/-- `HiReg`. -/
def hiReg : ℕ := 32

/-- `LoReg`. -/
def loReg : ℕ := 33

/-- `PCReg`. -/
def pcReg : ℕ := 34

/-- `NextPCReg`. -/
def nextPCReg : ℕ := 35

/-- `PrevPCReg`. -/
def prevPCReg : ℕ := 36

/-- `LoadReg`: the target of a delayed load. -/
def loadReg : ℕ := 37

/-- `LoadValueReg`: the value of a delayed load. -/
def loadValueReg : ℕ := 38

/-- `BadVAddrReg`: the failing address of an exception. -/
def badVAddrReg : ℕ := 39

/-- `NumTotalRegs`. -/
def numTotalRegs : ℕ := 40

/-- The contents of the registers. -/
abbrev Registers := Vector (BitVec 32) numTotalRegs

namespace Registers

/-- `Machine::ReadRegister`. -/
def readRegister (r : Registers) (num : Int) : Option (BitVec 32) :=
  if 0 ≤ num then r[num.toNat]? else none

/-- `Machine::WriteRegister`. -/
def writeRegister (r : Registers) (num : Int) (value : BitVec 32) : Option Registers :=
  if h : 0 ≤ num ∧ num.toNat < numTotalRegs then some (r.set num.toNat value h.2) else none

theorem readRegister_of_lt (r : Registers) {i : ℕ} (h : i < numTotalRegs) :
    r.readRegister i = some r[i] := by
  simp [readRegister, h]

theorem writeRegister_of_lt (r : Registers) {i : ℕ} (h : i < numTotalRegs) (v : BitVec 32) :
    r.writeRegister i v = some (r.set i v h) := by
  simp [writeRegister, h]

/-- The loop `for (i = 0; i < NumTotalRegs; i++)` that writes `value i` to register `i`. -/
def writeLoop (r : Registers) (value : ℕ → Option (BitVec 32)) : Option Registers :=
  (List.range numTotalRegs).foldlM (fun acc (i : ℕ) => (value i).bind (acc.writeRegister i)) r

/-- After `n` rounds the first `n` registers have been written. -/
theorem foldlM_writeRegister (r v : Registers) {value : ℕ → Option (BitVec 32)}
    (hv : ∀ i (h : i < numTotalRegs), value i = some v[i]) (n : ℕ) (hn : n ≤ numTotalRegs) :
    ∃ acc : Registers,
      (List.range n).foldlM (fun acc (i : ℕ) => (value i).bind (acc.writeRegister i)) r = some acc ∧
      ∀ j (hj : j < numTotalRegs), acc[j] = if j < n then v[j] else r[j] := by
  induction n with
  | zero => exact ⟨r, rfl, fun j hj => by simp⟩
  | succ n ih =>
    have hlt : n < numTotalRegs := by omega
    obtain ⟨acc, hacc, hget⟩ := ih (by omega)
    refine ⟨acc.set n v[n] hlt, ?_, fun j hj => ?_⟩
    · rw [List.range_succ, List.foldlM_append, hacc]
      simp [hv n hlt, writeRegister_of_lt acc hlt]
    · rw [Vector.getElem_set]
      by_cases hjn : n = j
      · subst hjn; simp
      · rw [if_neg hjn, hget j hj]
        by_cases hj' : j < n
        · rw [if_pos hj', if_pos (by omega)]
        · rw [if_neg hj', if_neg (by omega)]

/-- The loop writes every register. -/
theorem writeLoop_eq (r v : Registers) {value : ℕ → Option (BitVec 32)}
    (hv : ∀ i (h : i < numTotalRegs), value i = some v[i]) : r.writeLoop value = some v := by
  obtain ⟨acc, hacc, hget⟩ := foldlM_writeRegister r v hv numTotalRegs (Nat.le_refl _)
  rw [writeLoop, hacc, Option.some.injEq]
  ext j hj : 1
  rw [hget j hj, if_pos hj]

/-- The loop of `Thread::SaveUserState` and `Thread::RestoreUserState`. -/
def copyTo (src dst : Registers) : Option Registers :=
  dst.writeLoop fun i => src.readRegister i

theorem copyTo_eq (src dst : Registers) : src.copyTo dst = some src :=
  writeLoop_eq dst src fun _ h => readRegister_of_lt src h

/-- `AddrSpace::InitRegisters` for an address space of `numPages` pages. -/
def initRegisters (r : Registers) (numPages : ℕ) : Option Registers := do
  let r₀ ← r.writeLoop fun _ => some 0
  let r₁ ← r₀.writeRegister pcReg 0
  let r₂ ← r₁.writeRegister nextPCReg 4
  r₂.writeRegister stackReg (BitVec.ofNat 32 (numPages * pageSize) - 16)

/-- The registers a user program starts with. -/
theorem initRegisters_eq (r : Registers) (numPages : ℕ) :
    r.initRegisters numPages =
    some ((((Vector.replicate numTotalRegs 0).set pcReg 0 (by decide)).set
      nextPCReg 4 (by decide)).set stackReg (BitVec.ofNat 32 (numPages * pageSize) - 16)
        (by decide)) := by
  have hzero : r.writeLoop (fun _ => some 0) = some (Vector.replicate numTotalRegs 0) :=
    writeLoop_eq r _ fun i h => by simp
  simp only [initRegisters, hzero, Option.bind_eq_bind, Option.bind_some]
  rw [writeRegister_of_lt _ (by decide), Option.bind_some, writeRegister_of_lt _ (by decide),
    Option.bind_some, writeRegister_of_lt _ (by decide)]

end Registers

end Nachos.Machine
