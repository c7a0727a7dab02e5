import Nachos.Machine.Registers

namespace Nachos.Machine

/-!
# Machine — the MIPS simulator

`Machine::OneInstruction`, `DelayedLoad`, `RaiseException` and `Instruction::Decode` of
`machine/mipssim.cc`, with the tables of `machine/mipssim.h` and with `SIM_FIX`.

The simulator is a computation over the machine (`Cpu`) that stops at an exception for the kernel
or at a fault. A fault is what the code does not check: an index outside of the register file or
of a table, an opcode without a case, an access to memory that trips an assertion or leaves the
page table, and the one division that traps on the host. So every access to a register is one of
`reg` and `setReg`, with the index as the code computes it.

The cases of the switch that differ in an operator only are written with one definition
(`binary`, `immediate`, `shift`, `branchIf`, ...).
-/

/-! ### The machine -/

/-- What user programs run on. -/
structure MachineState where
  registers : Registers
  mainMemory : ℕ → UInt8
  tables : Tables

/-- What the simulator does not check for. -/
inductive CpuFault where
  /-- An index outside of `registers`. -/
  | register
  /-- An index outside of `opTable` or `specialTable`. -/
  | table
  /-- The default case of the switch, `ASSERT(FALSE)`. -/
  | opCode
  /-- A failed assertion or a read past the page table in `Translate`. -/
  | memory
  /-- The quotient of `INT_MIN` and `-1`. -/
  | divide
  deriving DecidableEq

/-- Why an instruction is not completed. -/
inductive Trap where
  /-- `RaiseException(which, badVAddr)`. -/
  | exception (which : ExceptionType) (badVAddr : BitVec 32)
  | fault (f : CpuFault)
  deriving DecidableEq

/-- A computation of the simulator. -/
abbrev Cpu := EStateM Trap MachineState

/-- Read `registers[i]`. -/
def reg (i : ℕ) : Cpu (BitVec 32) := fun m =>
  match m.registers[i]? with
  | some v => .ok v m
  | none => .error (.fault .register) m

/-- Write `registers[i]`. -/
def setReg (i : ℕ) (v : BitVec 32) : Cpu Unit := fun m =>
  if h : i < numTotalRegs then .ok () { m with registers := m.registers.set i v h }
  else .error (.fault .register) m

/-- `ReadMem`, and the return after an exception. -/
def load (addr : BitVec 32) (size : ℕ) : Cpu (BitVec 32) := fun m =>
  match readMem m.tables m.mainMemory addr size with
  | none => .error (.fault .memory) m
  | some (.error e) => .error (.exception e addr) m
  | some (.ok (v, tables)) => .ok (BitVec.ofInt 32 v) { m with tables := tables }

/-- `WriteMem`, and the return after an exception. -/
def store (addr : BitVec 32) (size : ℕ) (value : BitVec 32) : Cpu Unit := fun m =>
  match writeMem m.tables m.mainMemory addr size value.toInt with
  | none => .error (.fault .memory) m
  | some (.error e) => .error (.exception e addr) m
  | some (.ok (mainMemory, tables)) => .ok () { m with mainMemory := mainMemory, tables := tables }

/-! ### Instructions -/

/-- The opcodes of `mipssim.h`, with the two values that ask for further decoding. -/
inductive OpCode where
  | add | addi | addiu | addu | and | andi | beq | bgez | bgezal | bgtz | blez | bltz | bltzal | bne
  | div | divu | j | jal | jalr | jr | lb | lbu | lh | lhu | lui | lw | lwl | lwr
  | mfhi | mflo | mthi | mtlo | mult | multu | nor | or | ori | rfe | sb | sh | sll | sllv
  | slt | slti | sltiu | sltu | sra | srav | srl | srlv | sub | subu | sw | swl | swr
  | xor | xori | syscall | unimp | res | special | bcond
  deriving DecidableEq

/-- The format of an instruction. -/
inductive Format where
  | ifmt | jfmt | rfmt
  deriving DecidableEq

/-- `opTable`, by bits 31 to 26. -/
def opTable : List (OpCode × Format) := [
  (.special, .rfmt), (.bcond, .ifmt), (.j, .jfmt), (.jal, .jfmt),
  (.beq, .ifmt), (.bne, .ifmt), (.blez, .ifmt), (.bgtz, .ifmt),
  (.addi, .ifmt), (.addiu, .ifmt), (.slti, .ifmt), (.sltiu, .ifmt),
  (.andi, .ifmt), (.ori, .ifmt), (.xori, .ifmt), (.lui, .ifmt),
  (.unimp, .ifmt), (.unimp, .ifmt), (.unimp, .ifmt), (.unimp, .ifmt),
  (.res, .ifmt), (.res, .ifmt), (.res, .ifmt), (.res, .ifmt),
  (.res, .ifmt), (.res, .ifmt), (.res, .ifmt), (.res, .ifmt),
  (.res, .ifmt), (.res, .ifmt), (.res, .ifmt), (.res, .ifmt),
  (.lb, .ifmt), (.lh, .ifmt), (.lwl, .ifmt), (.lw, .ifmt),
  (.lbu, .ifmt), (.lhu, .ifmt), (.lwr, .ifmt), (.res, .ifmt),
  (.sb, .ifmt), (.sh, .ifmt), (.swl, .ifmt), (.sw, .ifmt),
  (.res, .ifmt), (.res, .ifmt), (.swr, .ifmt), (.res, .ifmt),
  (.unimp, .ifmt), (.unimp, .ifmt), (.unimp, .ifmt), (.unimp, .ifmt),
  (.res, .ifmt), (.res, .ifmt), (.res, .ifmt), (.res, .ifmt),
  (.unimp, .ifmt), (.unimp, .ifmt), (.unimp, .ifmt), (.unimp, .ifmt),
  (.res, .ifmt), (.res, .ifmt), (.res, .ifmt), (.res, .ifmt)]

/-- `specialTable`, by bits 5 to 0. -/
def specialTable : List OpCode := [
  .sll, .res, .srl, .sra, .sllv, .res, .srlv, .srav,
  .jr, .jalr, .res, .res, .syscall, .unimp, .res, .res,
  .mfhi, .mthi, .mflo, .mtlo, .res, .res, .res, .res,
  .mult, .multu, .div, .divu, .res, .res, .res, .res,
  .add, .addu, .sub, .subu, .and, .or, .xor, .nor,
  .res, .res, .slt, .sltu, .res, .res, .res, .res,
  .res, .res, .res, .res, .res, .res, .res, .res,
  .res, .res, .res, .res, .res, .res, .res, .res]

/-- `Instruction`. -/
structure Instruction where
  opCode : OpCode
  rs : ℕ
  rt : ℕ
  rd : ℕ
  extra : BitVec 32
  deriving DecidableEq

/-- The cases of `BCOND`. -/
def bcondOp (i : BitVec 32) : OpCode :=
  if i = 0 then .bltz
  else if i = 0x10000#32 then .bgez
  else if i = 0x100000#32 then .bltzal
  else if i = 0x110000#32 then .bgezal
  else .unimp

/-- The immediate, shift amount or target of an instruction. -/
def extraOf (format : Format) (value : BitVec 32) : BitVec 32 :=
  match format with
  | .ifmt =>
    let extra := value &&& 0xffff#32
    if extra &&& 0x8000#32 ≠ 0 then extra ||| 0xffff0000#32 else extra
  | .rfmt => (value >>> 6) &&& 0x1f#32
  | .jfmt => value &&& 0x3ffffff#32

/-- The second half of `Decode`: the opcode, if `opTable` has `op`. -/
def opCodeOf (op : OpCode) (value : BitVec 32) : Option OpCode :=
  match op with
  | .special => specialTable[(value &&& 0x3f#32).toNat]?
  | .bcond => some (bcondOp (value &&& 0x1f0000#32))
  | op => some op

/-- `Instruction::Decode`; `none` if an index is outside of its table. -/
def decode (value : BitVec 32) : Option Instruction := do
  let (op, format) ← opTable[((value >>> 26) &&& 0x3f#32).toNat]?
  let opCode ← opCodeOf op value
  return {
    opCode := opCode
    rs := ((value >>> 21) &&& 0x1f#32).toNat
    rt := ((value >>> 16) &&& 0x1f#32).toNat
    rd := ((value >>> 11) &&& 0x1f#32).toNat
    extra := extraOf format value }

/-! ### Arithmetic -/

/-- `SIGN_BIT`. -/
def signBit : BitVec 32 := 0x80000000#32

/-- `IndexToAddr`. -/
def indexToAddr (x : BitVec 32) : BitVec 32 := x <<< 2

/-- The loop of `Mult`, with the rounds that are left: `a` and `bHi:bLo` are shifted, `hi:lo` is
the sum so far. -/
def multLoop : ℕ → (a bHi bLo hi lo : BitVec 32) → BitVec 32 × BitVec 32
  | 0, _, _, _, hi, lo => (hi, lo)
  | n + 1, a, bHi, bLo, hi, lo =>
    let bHi' := if bLo &&& signBit ≠ 0 then (bHi <<< 1) ||| 1#32 else bHi <<< 1
    if a &&& 1#32 ≠ 0 then
      let lo' := lo + bLo
      let hi' := (if lo' < bLo then hi + 1#32 else hi) + bHi
      if a &&& 0xfffffffe#32 = 0 then (hi', lo')
      else multLoop n (a.sshiftRight 1) bHi' (bLo <<< 1) hi' lo'
    else multLoop n (a.sshiftRight 1) bHi' (bLo <<< 1) hi lo

/-- `Mult`: the high and the low word. -/
def mult (a b : BitVec 32) (signedArith : Bool) : BitVec 32 × BitVec 32 :=
  if a = 0 ∨ b = 0 then (0, 0)
  else
    let negative := signedArith && (a.slt 0 != b.slt 0)
    let a' := if signedArith && a.slt 0 then -a else a
    let b' := if signedArith && b.slt 0 then -b else b
    let (hi, lo) := multLoop 32 a' 0 b' 0 0
    if negative then
      let lo' := ~~~lo + 1#32
      (if lo' = 0 then ~~~hi + 1#32 else ~~~hi, lo')
    else (hi, lo)

/-- The word that `LWL` loads into a register with contents `old`, by `3 - byte`. -/
def lwlValue (k : ℕ) (old value : BitVec 32) : BitVec 32 :=
  match k with
  | 0 => value
  | 1 => (old &&& 0xff#32) ||| (value <<< 8)
  | 2 => (old &&& 0xffff#32) ||| (value <<< 16)
  | 3 => (old &&& 0xffffff#32) ||| (value <<< 24)
  | _ => old

/-- The word that `LWR` loads. -/
def lwrValue (k : ℕ) (old value : BitVec 32) : BitVec 32 :=
  match k with
  | 0 => (old &&& 0xffffff00#32) ||| ((value.sshiftRight 24) &&& 0xff#32)
  | 1 => (old &&& 0xffff0000#32) ||| ((value.sshiftRight 16) &&& 0xffff#32)
  | 2 => (old &&& 0xff000000#32) ||| ((value.sshiftRight 8) &&& 0xffffff#32)
  | 3 => value
  | _ => old

/-- The word that `SWL` stores where `value` was. -/
def swlValue (k : ℕ) (value rt : BitVec 32) : BitVec 32 :=
  match k with
  | 0 => rt
  | 1 => (value &&& 0xff000000#32) ||| ((rt.sshiftRight 8) &&& 0xffffff#32)
  | 2 => (value &&& 0xffff0000#32) ||| ((rt.sshiftRight 16) &&& 0xffff#32)
  | 3 => (value &&& 0xffffff00#32) ||| ((rt.sshiftRight 24) &&& 0xff#32)
  | _ => value

/-- The word that `SWR` stores. -/
def swrValue (k : ℕ) (value rt : BitVec 32) : BitVec 32 :=
  match k with
  | 0 => (value &&& 0xffffff#32) ||| (rt <<< 24)
  | 1 => (value &&& 0xffff#32) ||| (rt <<< 16)
  | 2 => (value &&& 0xff#32) ||| (rt <<< 8)
  | 3 => rt
  | _ => value

/-! ### The switch -/

/-- What a case leaves for the end of `OneInstruction`. -/
structure Effect where
  nextLoadReg : ℕ
  nextLoadValue : BitVec 32
  pcAfter : BitVec 32

/-- `registers[rd] = f(registers[rs], registers[rt])`. -/
def binary (i : Instruction) (f : BitVec 32 → BitVec 32 → BitVec 32) : Cpu Unit := do
  let rs ← reg i.rs
  let rt ← reg i.rt
  setReg i.rd (f rs rt)

/-- `registers[rt] = f(registers[rs], extra)`. -/
def immediate (i : Instruction) (f : BitVec 32 → BitVec 32 → BitVec 32) : Cpu Unit := do
  let rs ← reg i.rs
  setReg i.rt (f rs i.extra)

/-- `registers[rd] = f(registers[rt], extra)`. -/
def shift (i : Instruction) (f : BitVec 32 → ℕ → BitVec 32) : Cpu Unit := do
  let rt ← reg i.rt
  setReg i.rd (f rt i.extra.toNat)

/-- `registers[dst] = registers[src]`. -/
def move (dst src : ℕ) : Cpu Unit := do
  let v ← reg src
  setReg dst v

/-- Write a sum or a difference, or raise an overflow. -/
def unlessOverflow (overflow : Bool) (dst : ℕ) (v : BitVec 32) : Cpu Unit :=
  if overflow then throw (.exception .overflowException 0) else setReg dst v

/-- `OP_ADD`. -/
def addOverflow (i : Instruction) : Cpu Unit := do
  let rs ← reg i.rs
  let rt ← reg i.rt
  let sum := rs + rt
  unlessOverflow ((rs ^^^ rt) &&& signBit == 0 && (rs ^^^ sum) &&& signBit != 0) i.rd sum

/-- `OP_ADDI`. -/
def addiOverflow (i : Instruction) : Cpu Unit := do
  let rs ← reg i.rs
  let sum := rs + i.extra
  unlessOverflow ((rs ^^^ i.extra) &&& signBit == 0 && (i.extra ^^^ sum) &&& signBit != 0) i.rt sum

/-- `OP_SUB`. -/
def subOverflow (i : Instruction) : Cpu Unit := do
  let rs ← reg i.rs
  let rt ← reg i.rt
  let diff := rs - rt
  unlessOverflow ((rs ^^^ rt) &&& signBit != 0 && (rs ^^^ diff) &&& signBit != 0) i.rd diff

/-- `OP_DIV`. -/
def divide (i : Instruction) : Cpu Unit := do
  let rs ← reg i.rs
  let rt ← reg i.rt
  if rt = 0 then
    setReg loReg 0
    setReg hiReg 0
  else if rs = signBit ∧ rt = -1 then throw (.fault .divide)
  else
    setReg loReg (rs.sdiv rt)
    setReg hiReg (rs.srem rt)

/-- `OP_DIVU`. -/
def divideUnsigned (i : Instruction) : Cpu Unit := do
  let rs ← reg i.rs
  let rt ← reg i.rt
  if rt = 0 then
    setReg loReg 0
    setReg hiReg 0
  else
    setReg loReg (rs / rt)
    setReg hiReg (rs % rt)

/-- `OP_MULT` and `OP_MULTU`. -/
def multiply (i : Instruction) (signedArith : Bool) : Cpu Unit := do
  let rs ← reg i.rs
  let rt ← reg i.rt
  let (hi, lo) := mult rs rt signedArith
  setReg hiReg hi
  setReg loReg lo

/-- `registers[dst] = registers[NextPCReg] + 4`. -/
def link (dst : ℕ) : Cpu Unit := do
  let nextPC ← reg nextPCReg
  setReg dst (nextPC + 4)

/-- `if (taken) pcAfter = registers[NextPCReg] + IndexToAddr(extra)`. -/
def branchTo (i : Instruction) (pcAfter : BitVec 32) (taken : Bool) : Cpu Effect :=
  if taken then do
    let nextPC ← reg nextPCReg
    return ⟨0, 0, nextPC + indexToAddr i.extra⟩
  else return ⟨0, 0, pcAfter⟩

/-- A branch on `registers[rs]`. -/
def branchIf (i : Instruction) (pcAfter : BitVec 32) (taken : BitVec 32 → Bool) : Cpu Effect := do
  let rs ← reg i.rs
  branchTo i pcAfter (taken rs)

/-- A branch on `registers[rs]` and `registers[rt]`. -/
def branchCompare (i : Instruction) (pcAfter : BitVec 32)
    (taken : BitVec 32 → BitVec 32 → Bool) : Cpu Effect := do
  let rs ← reg i.rs
  let rt ← reg i.rt
  branchTo i pcAfter (taken rs rt)

/-- `OP_JR`. -/
def jumpRegister (i : Instruction) : Cpu Effect := do
  let rs ← reg i.rs
  return ⟨0, 0, rs⟩

/-- The address `registers[rs] + extra`. -/
def address (i : Instruction) : Cpu (BitVec 32) := do
  let rs ← reg i.rs
  return rs + i.extra

/-- `OP_LB` and `OP_LBU`. -/
def loadByte (i : Instruction) (pcAfter : BitVec 32) (signed : Bool) : Cpu Effect := do
  let tmp ← address i
  let value ← load tmp 1
  return ⟨i.rt, if value &&& 0x80#32 != 0 && signed then value ||| 0xffffff00#32
    else value &&& 0xff#32, pcAfter⟩

/-- `OP_LH` and `OP_LHU`. -/
def loadHalf (i : Instruction) (pcAfter : BitVec 32) (signed : Bool) : Cpu Effect := do
  let tmp ← address i
  if tmp &&& 1#32 ≠ 0 then throw (.exception .addressErrorException tmp)
  else
    let value ← load tmp 2
    return ⟨i.rt, if value &&& 0x8000#32 != 0 && signed then value ||| 0xffff0000#32
      else value &&& 0xffff#32, pcAfter⟩

/-- `OP_LW`. -/
def loadWord (i : Instruction) (pcAfter : BitVec 32) : Cpu Effect := do
  let tmp ← address i
  if tmp &&& 3#32 ≠ 0 then throw (.exception .addressErrorException tmp)
  else
    let value ← load tmp 4
    return ⟨i.rt, value, pcAfter⟩

/-- `registers[rt]`, or the value of a load into it that is still to be done. -/
def forwarded (rt : ℕ) : Cpu (BitVec 32) := do
  let pending ← reg loadReg
  if pending = BitVec.ofNat 32 rt then reg loadValueReg else reg rt

/-- The address of `OP_LWL`, `OP_LWR`, `OP_SWL` and `OP_SWR`, and the word it is in. -/
def loadAligned (i : Instruction) : Cpu (BitVec 32 × BitVec 32) := do
  let tmp ← address i
  let value ← load (tmp - (tmp &&& 3#32)) 4
  return (tmp, value)

/-- `OP_LWL` and `OP_LWR`. -/
def loadPart (i : Instruction) (pcAfter : BitVec 32)
    (f : ℕ → BitVec 32 → BitVec 32 → BitVec 32) : Cpu Effect := do
  let (tmp, value) ← loadAligned i
  let old ← forwarded i.rt
  return ⟨i.rt, f (3 - (tmp &&& 3#32).toNat) old value, pcAfter⟩

/-- `OP_SB`, `OP_SH` and `OP_SW`. -/
def storeReg (i : Instruction) (size : ℕ) : Cpu Unit := do
  let addr ← address i
  let rt ← reg i.rt
  store addr size rt

/-- `OP_SWL` and `OP_SWR`. -/
def storePart (i : Instruction) (f : ℕ → BitVec 32 → BitVec 32 → BitVec 32) : Cpu Unit := do
  let (tmp, value) ← loadAligned i
  let rt ← reg i.rt
  store (tmp - (tmp &&& 3#32)) 4 (f (3 - (tmp &&& 3#32).toNat) value rt)

/-- A case that neither loads nor jumps. -/
def thenNext (pcAfter : BitVec 32) (c : Cpu Unit) : Cpu Effect := do
  c
  return ⟨0, 0, pcAfter⟩

/-- The word `1` for `true`. -/
def ofBool (b : Bool) : BitVec 32 := if b then 1 else 0

/-- The switch of `OneInstruction`. -/
def execute (i : Instruction) (pcAfter : BitVec 32) : Cpu Effect :=
  match i.opCode with
  | .add => thenNext pcAfter (addOverflow i)
  | .addi => thenNext pcAfter (addiOverflow i)
  | .addiu => thenNext pcAfter (immediate i fun rs extra => rs + extra)
  | .addu => thenNext pcAfter (binary i fun rs rt => rs + rt)
  | .and => thenNext pcAfter (binary i fun rs rt => rs &&& rt)
  | .andi => thenNext pcAfter (immediate i fun rs extra => rs &&& (extra &&& 0xffff#32))
  | .beq => branchCompare i pcAfter fun rs rt => rs == rt
  | .bgezal => do
    link retAddrReg
    branchIf i pcAfter fun rs => rs &&& signBit == 0
  | .bgez => branchIf i pcAfter fun rs => rs &&& signBit == 0
  | .bgtz => branchIf i pcAfter fun rs => (0#32).slt rs
  | .blez => branchIf i pcAfter fun rs => rs.sle 0
  | .bltzal => do
    link retAddrReg
    branchIf i pcAfter fun rs => rs &&& signBit != 0
  | .bltz => branchIf i pcAfter fun rs => rs &&& signBit != 0
  | .bne => branchCompare i pcAfter fun rs rt => rs != rt
  | .div => thenNext pcAfter (divide i)
  | .divu => thenNext pcAfter (divideUnsigned i)
  | .jal => do
    link retAddrReg
    return ⟨0, 0, (pcAfter &&& 0xf0000000#32) ||| indexToAddr i.extra⟩
  | .j => return ⟨0, 0, (pcAfter &&& 0xf0000000#32) ||| indexToAddr i.extra⟩
  | .jalr => do
    link i.rd
    jumpRegister i
  | .jr => jumpRegister i
  | .lb => loadByte i pcAfter true
  | .lbu => loadByte i pcAfter false
  | .lh => loadHalf i pcAfter true
  | .lhu => loadHalf i pcAfter false
  | .lui => thenNext pcAfter (setReg i.rt (i.extra <<< 16))
  | .lw => loadWord i pcAfter
  | .lwl => loadPart i pcAfter lwlValue
  | .lwr => loadPart i pcAfter lwrValue
  | .mfhi => thenNext pcAfter (move i.rd hiReg)
  | .mflo => thenNext pcAfter (move i.rd loReg)
  | .mthi => thenNext pcAfter (move hiReg i.rs)
  | .mtlo => thenNext pcAfter (move loReg i.rs)
  | .mult => thenNext pcAfter (multiply i true)
  | .multu => thenNext pcAfter (multiply i false)
  | .nor => thenNext pcAfter (binary i fun rs rt => ~~~(rs ||| rt))
  | .or => thenNext pcAfter (binary i fun rs rt => rs ||| rt)
  | .ori => thenNext pcAfter (immediate i fun rs extra => rs ||| (extra &&& 0xffff#32))
  | .sb => thenNext pcAfter (storeReg i 1)
  | .sh => thenNext pcAfter (storeReg i 2)
  | .sll => thenNext pcAfter (shift i fun rt extra => rt <<< extra)
  | .sllv => thenNext pcAfter (binary i fun rs rt => rt <<< (rs &&& 0x1f#32).toNat)
  | .slt => thenNext pcAfter (binary i fun rs rt => ofBool (rs.slt rt))
  | .slti => thenNext pcAfter (immediate i fun rs extra => ofBool (rs.slt extra))
  | .sltiu => thenNext pcAfter (immediate i fun rs extra => ofBool (rs.ult extra))
  | .sltu => thenNext pcAfter (binary i fun rs rt => ofBool (rs.ult rt))
  | .sra => thenNext pcAfter (shift i fun rt extra => rt.sshiftRight extra)
  | .srav => thenNext pcAfter (binary i fun rs rt => rt.sshiftRight (rs &&& 0x1f#32).toNat)
  -- The shifted variable is an `int`, so these two are arithmetic shifts as well.
  | .srl => thenNext pcAfter (shift i fun rt extra => rt.sshiftRight extra)
  | .srlv => thenNext pcAfter (binary i fun rs rt => rt.sshiftRight (rs &&& 0x1f#32).toNat)
  | .sub => thenNext pcAfter (subOverflow i)
  | .subu => thenNext pcAfter (binary i fun rs rt => rs - rt)
  | .sw => thenNext pcAfter (storeReg i 4)
  | .swl => thenNext pcAfter (storePart i swlValue)
  | .swr => thenNext pcAfter (storePart i swrValue)
  | .syscall => throw (.exception .syscallException 0)
  | .xor => thenNext pcAfter (binary i fun rs rt => rs ^^^ rt)
  | .xori => thenNext pcAfter (immediate i fun rs extra => rs ^^^ (extra &&& 0xffff#32))
  | .res | .unimp => throw (.exception .illegalInstrException 0)
  | .rfe | .special | .bcond => throw (.fault .opCode)

/-! ### One instruction -/

/-- `Machine::DelayedLoad`. -/
def delayedLoad (nextReg : ℕ) (nextValue : BitVec 32) : Cpu Unit := do
  let pending ← reg loadReg
  let value ← reg loadValueReg
  setReg pending.toNat value
  setReg loadReg (BitVec.ofNat 32 nextReg)
  setReg loadValueReg nextValue
  setReg 0 0

/-- `Machine::RaiseException`, up to the call of `ExceptionHandler`. -/
def raiseException (badVAddr : BitVec 32) : Cpu Unit := do
  setReg badVAddrReg badVAddr
  delayedLoad 0 0

/-- Fetch and decode. -/
def fetch : Cpu Instruction := do
  let pc ← reg pcReg
  let raw ← load pc 4
  match decode raw with
  | some i => return i
  | none => throw (.fault .table)

/-- `OneInstruction` up to the end of the switch. -/
def perform : Cpu Effect := do
  let i ← fetch
  let nextPC ← reg nextPCReg
  execute i (nextPC + 4)

/-- Advance the program counters. -/
def advance (pcAfter : BitVec 32) : Cpu Unit := do
  move prevPCReg pcReg
  move pcReg nextPCReg
  setReg nextPCReg pcAfter

/-- `OneInstruction` behind the switch. -/
def complete (e : Effect) : Cpu Unit := do
  delayedLoad e.nextLoadReg e.nextLoadValue
  advance e.pcAfter

/-- `Machine::OneInstruction`, if there is no exception. -/
def instruction : Cpu Unit := do
  let e ← perform
  complete e

/-- `Machine::OneInstruction`: the exception the kernel is called for, if there is one, in the
state it finds. -/
def oneInstruction : Cpu (Option ExceptionType) :=
  tryCatch (instruction >>= fun _ => pure none) fun
    | .exception which badVAddr => raiseException badVAddr >>= fun _ => pure (some which)
    | .fault f => throw (.fault f)

end Nachos.Machine
