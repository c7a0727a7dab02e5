import Mathlib.Data.Int.ModEq
import Nachos.Machine.Mult
import Nachos.Machine.Unaligned

namespace Nachos.Machine

open Base

/-!
# Machine — sums that trap, shifts and quotients

The cases of the switch that compute with signed numbers, against the numbers they stand for.

* `trapping_exact` — `ADD`, `ADDI` and `SUB` find an overflow with three different formulas over
  sign bits; each is the overflow of the exact result.
* `shift_iff` — the shifts are multiplication and division by a power of two, but for `SRL` and
  `SRLV`, which shift a variable of type `int` and so drag the sign along.
* `division_iff` — only a divisor of zero is tested for, and the quotient of `INT_MIN` and `-1`
  traps on the host.
* `program_counters_advance` — how the program counters move.

An instruction is taken from memory (`Fetches`), so what `Decode` makes of its fields is a part of
each statement.
-/

/-! ### The fields of an instruction -/

/-- The next instruction is `i`, from the word `raw`; the fetch leaves `m₀`. -/
structure MachineState.Fetches (m : MachineState) (raw : BitVec 32) (i : Instruction)
    (m₀ : MachineState) : Prop where
  word : load (m.at pcReg) 4 m = .ok raw m₀
  decoded : decode raw = some i

/-- The immediate of an instruction, a signed half word. -/
def immediateOf (raw : BitVec 32) : Int := (raw.setWidth 16).toInt

/-- The shift amount in an instruction, bits 10 to 6. -/
def shamtOf (raw : BitVec 32) : ℕ := raw.toNat / 2 ^ 6 % 32

theorem toNat_and_five (x : BitVec 32) : (x &&& 0x1f#32).toNat = x.toNat % 32 := by
  rw [BitVec.toNat_and, show (0x1f#32).toNat = 2 ^ 5 - 1 from rfl, Nat.and_two_pow_sub_one_eq_mod]

/-- `Decode` extends the sign of the immediate. -/
theorem extraOf_ifmt (raw : BitVec 32) : extraOf .ifmt raw = (raw.setWidth 16).signExtend 32 := by
  have hbit : ∀ j : Fin 32, (0xffff#32).getLsbD j = decide (j.val < 16) ∧
      (0xffff0000#32).getLsbD j = decide (16 ≤ j.val) := by decide
  have hsign : (raw &&& 0xffff#32) &&& 0x8000#32 ≠ 0 ↔ raw.getLsbD 15 = true := by
    rw [BitVec.and_assoc, show 0xffff#32 &&& 0x8000#32 = BitVec.twoPow 32 15 by decide,
      BitVec.and_twoPow]
    cases raw.getLsbD 15 <;> decide
  have hmsb : (raw.setWidth 16).msb = raw.getLsbD 15 := by
    rw [BitVec.msb_eq_getLsbD_last, BitVec.getLsbD_setWidth]
    simp
  -- Bit by bit: below bit 16 it is the word itself, and above it is bit 15.
  apply BitVec.eq_of_getLsbD_eq
  intro j hj
  obtain ⟨hlow, hhigh⟩ : (0xffff#32).getLsbD j = decide (j < 16) ∧
      (0xffff0000#32).getLsbD j = decide (16 ≤ j) := hbit ⟨j, hj⟩
  simp only [extraOf, hsign]
  rw [BitVec.getLsbD_signExtend, hmsb, BitVec.getLsbD_setWidth]
  cases h15 : raw.getLsbD 15 with
  | true =>
    rw [if_pos rfl, BitVec.getLsbD_or, BitVec.getLsbD_and, hlow, hhigh]
    by_cases hlt : j < 16
    · simp [hlt, hj]
    · simp [hlt, hj, Nat.not_lt.mp hlt]
  | false =>
    rw [if_neg Bool.false_ne_true, BitVec.getLsbD_and, hlow]
    by_cases hlt : j < 16
    · simp [hlt, hj]
    · simp [hlt]

theorem toInt_extraOf_ifmt (raw : BitVec 32) : (extraOf .ifmt raw).toInt = immediateOf raw := by
  rw [extraOf_ifmt, BitVec.toInt_signExtend]
  exact Int.bmod_eq_of_le (BitVec.le_toInt _) BitVec.toInt_lt

theorem toNat_extraOf_rfmt (raw : BitVec 32) : (extraOf .rfmt raw).toNat = shamtOf raw := by
  show ((raw >>> 6) &&& 0x1f#32).toNat = _
  rw [toNat_and_five, BitVec.toNat_ushiftRight, Nat.shiftRight_eq_div_pow]
  rfl

/-- The shifts by the amount in the instruction. -/
def OpCode.ShiftsByField (op : OpCode) : Prop := op = .sll ∨ op = .srl ∨ op = .sra

instance : DecidablePred OpCode.ShiftsByField := fun _ => inferInstanceAs (Decidable (_ ∨ _ ∨ _))

/-- What `Decode` takes for the immediate and for the shift amount. -/
theorem extra_of_decode {raw : BitVec 32} {i : Instruction} (h : decode raw = some i) :
    (i.opCode = .addi → i.extra.toInt = immediateOf raw) ∧
      (i.opCode.ShiftsByField → i.extra.toNat = shamtOf raw) := by
  unfold decode at h
  obtain ⟨⟨op, format⟩, hop, h⟩ := Option.bind_eq_some_iff.mp h
  obtain ⟨opCode, hcode, h⟩ := Option.bind_eq_some_iff.mp h
  cases h
  -- The opcodes in question come from one of the two tables only, each entry with its format.
  have hformat : ∀ p ∈ opTable, (p.1 = .addi → p.2 = .ifmt) ∧ (p.1 = .special → p.2 = .rfmt) ∧
      ¬ p.1.ShiftsByField := by decide
  have hspecial : ∀ o ∈ specialTable, o ≠ .addi := by decide
  have hbcond : ∀ v, bcondOp v ≠ .addi ∧ ¬ (bcondOp v).ShiftsByField := by
    intro v
    unfold bcondOp
    split_ifs <;> decide
  obtain ⟨hifmt, hrfmt, hshift⟩ : (op = .addi → format = .ifmt) ∧ (op = .special → format = .rfmt) ∧
      ¬ op.ShiftsByField := hformat _ (List.mem_of_getElem? hop)
  have hcases : (op = .special ∧ opCode ≠ .addi) ∨ (op ≠ .special ∧ ¬ opCode.ShiftsByField ∧
      (opCode = .addi → op = .addi)) := by
    unfold opCodeOf at hcode
    split at hcode
    · exact .inl ⟨rfl, hspecial _ (List.mem_of_getElem? hcode)⟩
    · rw [← Option.some.inj hcode]
      exact .inr ⟨by decide, (hbcond _).2, fun heq => absurd heq (hbcond _).1⟩
    · rename_i hne _
      rw [← Option.some.inj hcode]
      exact .inr ⟨hne, hshift, id⟩
  rcases hcases with ⟨hop, hne⟩ | ⟨hop, hno, haddi⟩
  · refine ⟨fun heq => absurd heq hne, fun _ => ?_⟩
    show (extraOf format raw).toNat = _
    rw [hrfmt hop, toNat_extraOf_rfmt]
  · refine ⟨fun heq => ?_, fun hs => absurd hs hno⟩
    show (extraOf format raw).toInt = _
    rw [hifmt (haddi heq), toInt_extraOf_ifmt]

/-! ### One instruction -/

section Step

variable {m m₀ : MachineState} {raw : BitVec 32} {i : Instruction}

theorem MachineState.Fetches.fetch (h : m.Fetches raw i m₀) : fetch m = .ok i m₀ := by
  rw [Machine.fetch, bind_ok (reg_eq (by decide) m), bind_ok h.word, h.decoded]
  rfl

theorem exists_fetches (h : m.fetched = some i) : ∃ raw m₀, m.Fetches raw i m₀ := by
  obtain ⟨m₁, hf⟩ := fetched_eq_some.mp h
  rw [Machine.fetch, bind_ok (reg_eq (by decide) m)] at hf
  obtain ⟨raw, m₀, hload, hf⟩ := bind_eq_ok hf
  obtain ⟨i', hi', -⟩ := decode_eq_some raw
  rw [hi'] at hf
  cases hf
  exact ⟨raw, _, hload, hi'⟩

/-- A fetch leaves the registers, and `OneInstruction` goes on with the switch. -/
theorem MachineState.Fetches.perform (h : m.Fetches raw i m₀) :
    i.Valid ∧ (∀ j, m₀.at j = m.at j) ∧ perform m = execute i (m.at nextPCReg + 4) m₀ := by
  obtain ⟨hv, t, -, rfl⟩ := fetch_eq_ok h.fetch
  refine ⟨hv, fun j => rfl, ?_⟩
  rw [Machine.perform, bind_ok h.fetch, bind_ok (reg_eq (by decide) _)]
  rfl

/-- The switch reads the registers as they have been in front of the fetch. -/
theorem MachineState.Fetches.reg_eq (h : m.Fetches raw i m₀) {j : ℕ} (hj : j < numGPRegs) :
    reg j m₀ = .ok (m.at j) m₀ := by
  rw [Machine.reg_eq (lt_total hj), h.perform.2.1]

/-- The pending load goes to a general register, not to a program counter. -/
theorem at_afterLoad_pc (h : (m.at loadReg).toNat < numGPRegs) (n : ℕ) (v : BitVec 32)
    {j : ℕ} (hj : j ∈ [pcReg, nextPCReg, prevPCReg]) : (m.afterLoad n v).at j = m.at j := by
  have hpc : ∀ k ∈ [pcReg, nextPCReg, prevPCReg], numGPRegs ≤ k ∧ k < numTotalRegs ∧ k ≠ 0 ∧
      k ≠ loadReg ∧ k ≠ loadValueReg := by decide
  obtain ⟨hle, hlt, h0, hl, hlv⟩ := hpc j hj
  rw [at_afterLoad m n v hlt, if_neg h0, if_neg hlv, if_neg hl, if_neg (by omega)]

/-- A case that reads `rs` and `rt` first. -/
theorem MachineState.Fetches.operands (h : m.Fetches raw i m₀)
    (f : BitVec 32 → BitVec 32 → Cpu Unit)
    (pcAfter : BitVec 32) : thenNext pcAfter (reg i.rs >>= fun rs => reg i.rt >>= f rs) m₀ =
      thenNext pcAfter (f (m.at i.rs) (m.at i.rt)) m₀ := by
  obtain ⟨hv, -, -⟩ := h.perform
  rw [thenNext, bind_assoc, bind_ok (h.reg_eq hv.rs), bind_assoc, bind_ok (h.reg_eq hv.rt)]
  rfl

end Step

/-! ### Sums and differences that trap -/

/-- A number is one of the signed 32-bit numbers. -/
def FitsInt (v : Int) : Prop := minInt ≤ v ∧ v ≤ maxInt

instance (v : Int) : Decidable (FitsInt v) := inferInstanceAs (Decidable (_ ∧ _))

/-- The destination of `ADD`, `ADDI` and `SUB` and their exact result. -/
def exactResult (m : MachineState) (raw : BitVec 32) (i : Instruction) : Option (ℕ × Int) :=
  match i.opCode with
  | .add => some (i.rd, (m.at i.rs).toInt + (m.at i.rt).toInt)
  | .addi => some (i.rt, (m.at i.rs).toInt + immediateOf raw)
  | .sub => some (i.rd, (m.at i.rs).toInt - (m.at i.rt).toInt)
  | _ => none

section Trapping

variable (x y : BitVec 32)

theorem and_signBit_beq (b : BitVec 32) : (b &&& signBit == 0) = !b.msb := by
  have h := and_signBit_ne_zero_iff b
  cases hmsb : b.msb with
  | true => exact beq_false_of_ne (h.mpr hmsb)
  | false =>
    refine beq_iff_eq.mpr ?_
    by_contra hne
    rw [h.mp hne] at hmsb
    cases hmsb

theorem and_signBit_bne (b : BitVec 32) : (b &&& signBit != 0) = b.msb := by
  rw [bne, and_signBit_beq, Bool.not_not]

theorem msb_eq_decide (b : BitVec 32) : b.msb = decide (b.toInt < 0) := by
  rw [← BitVec.slt_zero_eq_msb]
  rfl

/-- The sign of a sum or difference is wrong exactly if the number does not fit. -/
theorem msb_ofInt {v : Int} (hlo : -2 ^ 32 ≤ v) (hhi : v < 2 ^ 32) :
    (BitVec.ofInt 32 v).msb = (decide (v < 0) ^^ !decide (FitsInt v)) := by
  rw [msb_eq_decide, BitVec.toInt_ofInt, Int.bmod]
  unfold FitsInt minInt maxInt
  by_cases hneg : v < 0 <;> by_cases hfit : -2147483648 ≤ v ∧ v ≤ 2147483647
  all_goals
    simp only [hneg, hfit, decide_true, decide_false]
    split <;> simp <;> omega

theorem toInt_bounds : -2147483648 ≤ x.toInt ∧ x.toInt < 2147483648 := by
  have hlt := x.toInt_lt
  have hle := x.le_toInt
  norm_num at hlt hle
  exact ⟨hle, hlt⟩

theorem add_eq_ofInt : x + y = BitVec.ofInt 32 (x.toInt + y.toInt) := by
  rw [BitVec.ofInt_add, BitVec.ofInt_toInt, BitVec.ofInt_toInt]

theorem sub_eq_ofInt : x - y = BitVec.ofInt 32 (x.toInt - y.toInt) := by
  apply BitVec.eq_of_toInt_eq
  rw [BitVec.toInt_sub, BitVec.toInt_ofInt]

/-- The overflow that `OP_ADD` finds. -/
theorem addOverflow_flag : ((x ^^^ y) &&& signBit == 0 && (x ^^^ (x + y)) &&& signBit != 0) =
    !decide (FitsInt (x.toInt + y.toInt)) := by
  obtain ⟨hx, hx'⟩ := toInt_bounds x
  obtain ⟨hy, hy'⟩ := toInt_bounds y
  rw [and_signBit_beq, and_signBit_bne, BitVec.msb_xor, BitVec.msb_xor, add_eq_ofInt,
    msb_ofInt (by omega) (by omega), msb_eq_decide, msb_eq_decide]
  unfold FitsInt minInt maxInt
  -- Numbers of different signs have a sum that fits; of equal signs, the sum has this sign too.
  by_cases hx0 : x.toInt < 0 <;> by_cases hy0 : y.toInt < 0
  all_goals simp only [hx0, hy0, decide_true, decide_false]
  all_goals grind

/-- `OP_ADDI` looks at the sign of the other summand. -/
theorem addiOverflow_flag : ((x ^^^ y) &&& signBit == 0 && (y ^^^ (x + y)) &&& signBit != 0) =
    !decide (FitsInt (x.toInt + y.toInt)) := by
  rw [BitVec.xor_comm x y, BitVec.add_comm x y, addOverflow_flag, Int.add_comm]

/-- The overflow that `OP_SUB` finds. -/
theorem subOverflow_flag : ((x ^^^ y) &&& signBit != 0 && (x ^^^ (x - y)) &&& signBit != 0) =
    !decide (FitsInt (x.toInt - y.toInt)) := by
  obtain ⟨hx, hx'⟩ := toInt_bounds x
  obtain ⟨hy, hy'⟩ := toInt_bounds y
  rw [and_signBit_bne, and_signBit_bne, BitVec.msb_xor, BitVec.msb_xor, sub_eq_ofInt,
    msb_ofInt (by omega) (by omega), msb_eq_decide, msb_eq_decide]
  unfold FitsInt minInt maxInt
  by_cases hx0 : x.toInt < 0 <;> by_cases hy0 : y.toInt < 0
  all_goals simp only [hx0, hy0, decide_true, decide_false]
  all_goals grind

variable {m m₀ : MachineState} {raw : BitVec 32} {i : Instruction} {dst : ℕ} {v : Int}

/-- The three cases of the switch: the exact result is written if it fits. -/
theorem execute_trapping (h : m.Fetches raw i m₀) (hi : exactResult m raw i = some (dst, v)) :
    dst < numGPRegs ∧ ∀ pcAfter, execute i pcAfter m₀ =
      thenNext pcAfter (unlessOverflow (!decide (FitsInt v)) dst (BitVec.ofInt 32 v)) m₀ := by
  obtain ⟨hv, -, -⟩ := h.perform
  unfold exactResult at hi
  split at hi
  · rename_i hop
    obtain ⟨rfl, rfl⟩ := Prod.mk.inj (Option.some.inj hi)
    refine ⟨hv.rd, fun pcAfter => ?_⟩
    rw [execute, hop, ← add_eq_ofInt, ← addOverflow_flag]
    exact h.operands _ _
  · rename_i hop
    obtain ⟨rfl, rfl⟩ := Prod.mk.inj (Option.some.inj hi)
    refine ⟨hv.rt, fun pcAfter => ?_⟩
    simp only [execute, hop, thenNext, addiOverflow, bind_assoc]
    rw [bind_ok (h.reg_eq hv.rs), addiOverflow_flag, add_eq_ofInt,
      (extra_of_decode h.decoded).1 hop]
  · rename_i hop
    obtain ⟨rfl, rfl⟩ := Prod.mk.inj (Option.some.inj hi)
    refine ⟨hv.rd, fun pcAfter => ?_⟩
    rw [execute, hop, ← sub_eq_ofInt, ← subOverflow_flag]
    exact h.operands _ _
  · cases hi

/-- A result that does not fit: the kernel finds the machine with the pending load done. -/
theorem oneInstruction_overflow (hl : (m.at loadReg).toNat < numGPRegs) (h : m.Fetches raw i m₀)
    (hi : exactResult m raw i = some (dst, v)) (hv : ¬ FitsInt v) :
    oneInstruction m = .ok (some .overflowException) (m₀.raised 0) := by
  obtain ⟨-, hsame, hperform⟩ := h.perform
  apply oneInstruction_of_exception
  · rw [instruction, bind_error]
    rw [hperform, (execute_trapping h hi).2]
    show (unlessOverflow (!decide (FitsInt v)) dst _ >>= _) m₀ = _
    rw [decide_eq_false hv]
    rfl
  · rw [hsame]
    exact hl

/-- A result that fits: it is written before the pending load is done. -/
theorem oneInstruction_fits (hl : (m.at loadReg).toNat < numGPRegs) (h : m.Fetches raw i m₀)
    (hi : exactResult m raw i = some (dst, v)) (hv : FitsInt v) :
    ∃ m', oneInstruction m = .ok none m' ∧ m'.at nextPCReg = m.at nextPCReg + 4 ∧
      m'.at pcReg = m.at nextPCReg ∧ m'.at dst =
        if dst = 0 then 0
        else if dst = (m.at loadReg).toNat then m.at loadValueReg
        else BitVec.ofInt 32 v := by
  obtain ⟨-, hsame, hperform⟩ := h.perform
  obtain ⟨hdst, hexec⟩ := execute_trapping h hi
  have hne : ∀ j, numGPRegs ≤ j → dst ≠ j := fun j hj heq => absurd (heq ▸ hj) (Nat.not_le.mpr hdst)
  have hat : ∀ j, numGPRegs ≤ j → (m₀.put dst (BitVec.ofInt 32 v) (lt_total hdst)).at j =
    m.at j := by
    intro j hj
    rw [at_put, if_neg (hne j hj), hsame]
  obtain ⟨m', hc, -, -, hregs⟩ := complete_at (m := m₀.put dst (BitVec.ofInt 32 v) (lt_total hdst))
    (by rw [hat loadReg (by decide)]; exact hl) ⟨0, 0, m.at nextPCReg + 4⟩
  have hdo : perform m = .ok ⟨0, 0, m.at nextPCReg + 4⟩
      (m₀.put dst (BitVec.ofInt 32 v) (lt_total hdst)) := by
    rw [hperform, hexec]
    show (unlessOverflow (!decide (FitsInt v)) dst _ >>= _) m₀ = _
    rw [decide_eq_true hv]
    show (setReg dst _ >>= _) m₀ = _
    rw [bind_ok (setReg_eq (lt_total hdst) _ m₀)]
    rfl
  refine ⟨m', oneInstruction_of_ok (by rw [instruction, bind_ok hdo, hc]), ?_, ?_, ?_⟩
  · rw [hregs, if_pos rfl]
  · -- The pending load goes to a general register, so it leaves the program counters.
    rw [hregs, if_neg (by decide), if_pos rfl,
      at_afterLoad_pc (by rwa [hat _ (by decide)]) _ _ (by simp), hat nextPCReg (by decide)]
  · rw [hregs, if_neg (hne _ (by decide)), if_neg (hne _ (by decide)), if_neg (hne _ (by decide)),
      at_afterLoad _ _ _ (lt_total hdst), if_neg (hne loadValueReg (by decide)),
      if_neg (hne loadReg (by decide)), hat loadReg (by decide), hat loadValueReg (by decide),
      at_put, if_pos rfl]

/-- The kernel finds the registers as they are once the pending load is done, but for
`BadVAddrReg`. -/
theorem at_raised (hsame : ∀ j, m₀.at j = m.at j) {j : ℕ} (hj : j < numTotalRegs)
    (hbad : j ≠ badVAddrReg) (badVAddr : BitVec 32) :
    (m₀.raised badVAddr).at j = m.commit.at j := by
  have hput : ∀ k, k ≠ badVAddrReg → (m₀.put badVAddrReg badVAddr (by decide)).at k = m.at k := by
    intro k hk
    rw [at_put, if_neg hk.symm, hsame]
  rw [MachineState.raised, MachineState.commit, at_afterLoad _ _ _ hj, at_afterLoad _ _ _ hj,
    hput loadReg (by decide), hput loadValueReg (by decide), hput j hbad]

/-- **`ADD`, `ADDI` and `SUB` are exact.** They raise an overflow exactly if the result is not a
signed 32-bit number. Then the kernel finds the registers and the program counters as before, with
the pending load done; otherwise the destination holds the result, unless it is register 0 or the
register of the pending load. -/
theorem trapping_exact (m m₀ : MachineState) (hl : (m.at loadReg).toNat < numGPRegs)
    (raw : BitVec 32) (i : Instruction) (h : m.Fetches raw i m₀) (dst : ℕ) (v : Int)
    (hi : exactResult m raw i = some (dst, v)) :
    ((∃ m', oneInstruction m = .ok (some .overflowException) m') ↔ ¬ FitsInt v) ∧
    (¬ FitsInt v → ∃ m', oneInstruction m = .ok (some .overflowException) m' ∧
      m'.at dst = m.commit.at dst ∧ m'.at pcReg = m.at pcReg ∧ m'.at nextPCReg = m.at nextPCReg ∧
      ∀ j < numTotalRegs, j ≠ badVAddrReg → m'.at j = m.commit.at j) ∧
    (FitsInt v → ∃ m', oneInstruction m = .ok none m' ∧
      m'.at pcReg = m.at nextPCReg ∧ m'.at nextPCReg = m.at nextPCReg + 4 ∧
      (dst = 0 → m'.at dst = 0) ∧
      (dst ≠ 0 → dst = (m.at loadReg).toNat → m'.at dst = m.at loadValueReg) ∧
      (dst ≠ 0 → dst ≠ (m.at loadReg).toNat → (m'.at dst).toInt = v)) := by
  have hover := oneInstruction_overflow hl h hi
  have hfits := oneInstruction_fits hl h hi
  obtain ⟨hdst, -⟩ := execute_trapping h hi
  refine ⟨⟨?_, fun hv => ⟨_, hover hv⟩⟩, fun hv => ⟨_, hover hv, ?_⟩, fun hv => ?_⟩
  · rintro ⟨m', hone⟩ hv
    obtain ⟨m'', hone', -⟩ := hfits hv
    rw [hone] at hone'
    cases hone'
  · obtain ⟨-, hsame, -⟩ := h.perform
    have hregs : ∀ j < numTotalRegs, j ≠ badVAddrReg → (m₀.raised 0).at j = m.commit.at j :=
      fun j hj hbad => at_raised hsame hj hbad 0
    refine ⟨hregs dst (lt_total hdst) fun heq => absurd (heq ▸ hdst) (by decide), ?_, ?_, hregs⟩
    · rw [hregs pcReg (by decide) (by decide), MachineState.commit,
        at_afterLoad_pc hl _ _ (by simp)]
    · rw [hregs nextPCReg (by decide) (by decide), MachineState.commit,
        at_afterLoad_pc hl _ _ (by simp)]
  · obtain ⟨m', hone, hnext, hpc, hreg⟩ := hfits hv
    refine ⟨m', hone, hpc, hnext, fun h0 => ?_, fun h0 hpend => ?_, fun h0 hpend => ?_⟩
    · rw [hreg, if_pos h0]
    · rw [hreg, if_neg h0, if_pos hpend]
    · obtain ⟨hlo, hhi⟩ := hv
      unfold minInt at hlo
      unfold maxInt at hhi
      rw [hreg, if_neg h0, if_neg hpend, BitVec.toInt_ofInt]
      exact Int.bmod_eq_of_le (by omega) (by omega)

end Trapping

/-- A page with the given instructions and the first registers. -/
def withRegs (words : List ℕ) (regs : List (BitVec 32)) : MachineState :=
  { onePage words with registers := Vector.ofFn fun j => regs.getD j ((onePage words).at j) }

/-- `add $3, $2, $2` on the largest number traps, and on 21 it does not. -/
theorem trapping_exact_largest :
    (∃ m', oneInstruction (withRegs [0x00421820] [0, 0, 0x7fffffff, 5]) =
      .ok (some .overflowException) m' ∧ m'.at 3 = 5) ∧
    ∃ m', oneInstruction (withRegs [0x00421820] [0, 0, 21, 5]) = .ok none m' ∧
      (m'.at 3).toInt = 42 := by
  obtain ⟨raw, m₀, h⟩ := exists_fetches (m := withRegs [0x00421820] [0, 0, 0x7fffffff, 5])
    (i := ⟨.add, 2, 2, 3, 0⟩) (by decide +kernel)
  obtain ⟨raw', m₀', h'⟩ := exists_fetches (m := withRegs [0x00421820] [0, 0, 21, 5])
    (i := ⟨.add, 2, 2, 3, 0⟩) (by decide +kernel)
  have hsum : ((withRegs [0x00421820] [0, 0, 0x7fffffff, 5]).at 2).toInt
      + ((withRegs [0x00421820] [0, 0, 0x7fffffff, 5]).at 2).toInt = 4294967294 := by decide +kernel
  have hsum' : ((withRegs [0x00421820] [0, 0, 21, 5]).at 2).toInt
      + ((withRegs [0x00421820] [0, 0, 21, 5]).at 2).toInt = 42 := by decide +kernel
  obtain ⟨m', hone, hdst, -⟩ := (trapping_exact _ m₀ (by decide +kernel) raw _ h 3 4294967294
    (congrArg (fun v => some (3, v)) hsum)).2.1 (by decide)
  obtain ⟨m'', hone', -, -, -, -, hdst'⟩ := (trapping_exact _ m₀' (by decide +kernel) raw' _ h' 3 42
    (congrArg (fun v => some (3, v)) hsum')).2.2 (by decide)
  refine ⟨⟨m', hone, ?_⟩, m'', hone', hdst' (by decide) (by decide +kernel)⟩
  rw [hdst]
  decide +kernel

/-! ### Shifts -/

/-- The three shifts of MIPS. -/
inductive ShiftKind where
  | left | rightLogical | rightArithmetic
  deriving DecidableEq

/-- The shift that an opcode stands for. -/
def OpCode.shiftKind : OpCode → Option ShiftKind
  | .sll | .sllv => some .left
  | .srl | .srlv => some .rightLogical
  | .sra | .srav => some .rightArithmetic
  | _ => none

/-- The shift amount: a field of the instruction, or the low five bits of a register. -/
def shiftAmount (m : MachineState) (raw : BitVec 32) (i : Instruction) : ℕ :=
  if i.opCode.ShiftsByField then shamtOf raw else (m.at i.rs).toNat % 32

/-- The word `r` is what MIPS defines for `x`, shifted by `n`. -/
def ShiftKind.Gives (k : ShiftKind) (x : BitVec 32) (n : ℕ) (r : BitVec 32) : Prop :=
  match k with
  | .left => r.toNat = x.toNat * 2 ^ n % 2 ^ 32
  | .rightLogical => r.toNat = x.toNat / 2 ^ n
  | .rightArithmetic => r.toInt = x.toInt / 2 ^ n

/-- Up to the end of the switch, the next instruction gives its destination what MIPS defines. -/
def MachineState.ShiftsAsMips (m : MachineState) (raw : BitVec 32) (i : Instruction)
    (k : ShiftKind) : Prop :=
  ∃ e m₁, perform m = .ok e m₁ ∧ k.Gives (m.at i.rt) (shiftAmount m raw i) (m₁.at i.rd)

/-- What the cases of the switch compute. -/
def ShiftKind.computed (k : ShiftKind) (x : BitVec 32) (n : ℕ) : BitVec 32 :=
  match k with
  | .left => x <<< n
  | .rightLogical | .rightArithmetic => x.sshiftRight n

section Shifts

variable {m m₀ : MachineState} {raw : BitVec 32} {i : Instruction} {k : ShiftKind}

theorem toInt_sshiftRight_eq (x : BitVec 32) (n : ℕ) :
    (x.sshiftRight n).toInt = x.toInt / 2 ^ n := by
  rw [BitVec.toInt_sshiftRight, Int.shiftRight_eq_div_pow]
  push_cast
  rfl

/-- A logical shift of a negative number brings zeros in, an arithmetic one does not. -/
theorem gives_computed_iff (k : ShiftKind) (x : BitVec 32) (n : ℕ) :
    k.Gives x n (k.computed x n) ↔ (k = .rightLogical → 0 ≤ x.toInt ∨ n = 0) := by
  cases k with
  | left =>
    have hleft : ShiftKind.left ≠ .rightLogical := by decide
    refine ⟨fun _ heq => absurd heq hleft, fun _ => ?_⟩
    show (x <<< n).toNat = _
    rw [BitVec.toNat_shiftLeft, Nat.shiftLeft_eq]
  | rightArithmetic =>
    have harith : ShiftKind.rightArithmetic ≠ .rightLogical := by decide
    exact ⟨fun _ heq => absurd heq harith, fun _ => toInt_sshiftRight_eq x n⟩
  | rightLogical =>
    show (x.sshiftRight n).toNat = x.toNat / 2 ^ n ↔ _
    refine ⟨fun heq _ => ?_, fun hcond => ?_⟩
    · -- The computed word has the sign of `x`, the quotient by two or more is not negative.
      by_contra hno
      obtain ⟨hneg, hn⟩ := not_or.mp hno
      have hshift := toInt_sshiftRight_eq x n
      have hlt : (x.sshiftRight n).toInt < 0 := by
        rw [hshift]
        exact Int.ediv_neg_of_neg_of_pos (by omega) (pow_pos (by decide) n)
      have hhalf : x.toNat / 2 ^ n ≤ x.toNat / 2 :=
        Nat.div_le_div_left (Nat.le_self_pow hn 2) (by decide)
      have hx := x.isLt
      rw [BitVec.toInt_eq_toNat_cond] at hlt
      split at hlt <;> omega
    · rcases hcond rfl with hpos | rfl
      · have hmsb : x.msb = false := by
          rw [msb_eq_decide]
          exact decide_eq_false (by omega)
        rw [BitVec.sshiftRight_eq_of_msb_false hmsb, BitVec.toNat_ushiftRight,
          Nat.shiftRight_eq_div_pow]
      · rw [BitVec.sshiftRight_zero, pow_zero, Nat.div_one]

theorem execute_shiftField (hop : i.opCode.ShiftsByField) (hk : i.opCode.shiftKind = some k)
    (pcAfter : BitVec 32) : execute i pcAfter = thenNext pcAfter (shift i k.computed) := by
  unfold execute
  rcases hop with hop | hop | hop
  all_goals
    rw [hop] at hk ⊢
    cases hk
    rfl

theorem execute_shiftRegister (hop : ¬ i.opCode.ShiftsByField) (hk : i.opCode.shiftKind = some k)
    (pcAfter : BitVec 32) : execute i pcAfter =
      thenNext pcAfter (binary i fun rs rt => k.computed rt (rs &&& 0x1f#32).toNat) := by
  obtain hop | hop | hop : i.opCode = .sllv ∨ i.opCode = .srlv ∨ i.opCode = .srav := by
    revert hop hk
    generalize i.opCode = op
    cases op <;> simp [OpCode.ShiftsByField, OpCode.shiftKind]
  all_goals
    unfold execute
    rw [hop] at hk ⊢
    cases hk
    rfl

/-- Both forms of a shift write the same function of the word and the amount. -/
theorem perform_shift (h : m.Fetches raw i m₀) (hk : i.opCode.shiftKind = some k) :
    ∃ m₁, perform m = .ok ⟨0, 0, m.at nextPCReg + 4⟩ m₁ ∧
      m₁.at i.rd = k.computed (m.at i.rt) (shiftAmount m raw i) := by
  obtain ⟨hv, -, hperform⟩ := h.perform
  refine ⟨m₀.put i.rd (k.computed (m.at i.rt) (shiftAmount m raw i)) (lt_total hv.rd), ?_, ?_⟩
  · rw [hperform]
    unfold shiftAmount
    by_cases hop : i.opCode.ShiftsByField
    · rw [execute_shiftField hop hk, if_pos hop, ← (extra_of_decode h.decoded).2 hop,
        thenNext, shift,
        bind_assoc, bind_ok (h.reg_eq hv.rt), bind_ok (setReg_eq (lt_total hv.rd) _ m₀)]
      rfl
    · rw [execute_shiftRegister hop hk, if_neg hop, ← toNat_and_five, binary, h.operands, thenNext,
        bind_ok (setReg_eq (lt_total hv.rd) _ m₀)]
      rfl
  · rw [at_put, if_pos rfl]

/-- **The shifts.** An instruction gives what MIPS defines, unless it is `SRL` or `SRLV`, shifts a
negative number and by more than zero. The forms with the amount in the instruction and in a
register always agree. -/
theorem shift_iff (m m₀ : MachineState) (raw : BitVec 32) (i : Instruction) (h : m.Fetches raw i m₀)
    (k : ShiftKind) (hk : i.opCode.shiftKind = some k) :
    (m.ShiftsAsMips raw i k ↔
      (k = .rightLogical → 0 ≤ (m.at i.rt).toInt ∨ shiftAmount m raw i = 0)) ∧
    ∀ m' m₀' raw' i', m'.Fetches raw' i' m₀' → i'.opCode.shiftKind = some k →
      m'.at i'.rt = m.at i.rt → shiftAmount m' raw' i' = shiftAmount m raw i →
      ∃ e e' m₁ m₁', perform m = .ok e m₁ ∧ perform m' = .ok e' m₁' ∧
      m₁'.at i'.rd = m₁.at i.rd := by
  obtain ⟨m₁, hperform, hrd⟩ := perform_shift h hk
  constructor
  · rw [← gives_computed_iff k, ← hrd]
    constructor
    · rintro ⟨e, m₂, hperform', hgives⟩
      rw [hperform] at hperform'
      cases hperform'
      exact hgives
    · exact fun hgives => ⟨_, m₁, hperform, hgives⟩
  · intro m' m₀' raw' i' h' hk' hrt hamount
    obtain ⟨m₁', hperform', hrd'⟩ := perform_shift h' hk'
    refine ⟨_, _, m₁, m₁', hperform, hperform', ?_⟩
    rw [hrd, hrd', hrt, hamount]

end Shifts

/-- `srl $3, $2, 1` shifts 12 as it should. -/
theorem shift_iff_twelve : ∃ raw, (withRegs [0x00021842] [0, 0, 12]).ShiftsAsMips raw
    ⟨.srl, 0, 2, 3, 1⟩ .rightLogical := by
  obtain ⟨raw, m₀, h⟩ := exists_fetches (m := withRegs [0x00021842] [0, 0, 12])
    (i := ⟨.srl, 0, 2, 3, 1⟩) (by decide +kernel)
  exact ⟨raw, (shift_iff _ m₀ raw _ h .rightLogical rfl).1.mpr fun _ => .inl (by decide +kernel)⟩

/-- A register at the end of the switch. -/
def performed (m : MachineState) (j : ℕ) : Option (BitVec 32) :=
  match perform m with
  | .ok _ m₁ => some (m₁.at j)
  | .error _ _ => none

theorem at_of_performed {m m₁ : MachineState} {j : ℕ} {v : BitVec 32} {e : Effect}
    (h : performed m j = some v) (hp : perform m = .ok e m₁) : m₁.at j = v := by
  rw [performed, hp] at h
  exact Option.some.inj h

/-- `srl $3, $2, 1` makes `0xc0000000` of `0x80000000`, and `srlv $3, $2, $1` does so too. -/
theorem shift_negative :
    (withRegs [0x00021842] [0, 0, 0x80000000]).fetched = some ⟨.srl, 0, 2, 3, 1⟩ ∧
    performed (withRegs [0x00021842] [0, 0, 0x80000000]) 3 = some 0xc0000000 ∧
    ¬ (withRegs [0x00021842] [0, 0, 0x80000000]).ShiftsAsMips 0x00021842 ⟨.srl, 0, 2, 3, 1⟩
      .rightLogical ∧
    (withRegs [0x00221806] [0, 1, 0x80000000]).fetched = some ⟨.srlv, 1, 2, 3, 0⟩ ∧
    ¬ (withRegs [0x00221806] [0, 1, 0x80000000]).ShiftsAsMips 0x00221806 ⟨.srlv, 1, 2, 3, 0⟩
      .rightLogical := by
  have hfield : performed (withRegs [0x00021842] [0, 0, 0x80000000]) 3 = some 0xc0000000 := by
    decide +kernel
  have hreg : performed (withRegs [0x00221806] [0, 1, 0x80000000]) 3 = some 0xc0000000 := by
    decide +kernel
  refine ⟨by decide +kernel, hfield, ?_, by decide +kernel, ?_⟩
  · rintro ⟨e, m₁, hp, hgives⟩
    rw [at_of_performed hfield hp] at hgives
    exact absurd hgives (by unfold ShiftKind.Gives; decide +kernel)
  · rintro ⟨e, m₁, hp, hgives⟩
    rw [at_of_performed hreg hp] at hgives
    exact absurd hgives (by unfold ShiftKind.Gives; decide +kernel)

/-! ### Quotients -/

/-- Quotient and remainder of two words as signed numbers. -/
def SignedQuotient (rs rt lo hi : BitVec 32) : Prop :=
  rs.toInt ≡ lo.toInt * rt.toInt + hi.toInt [ZMOD 2 ^ 32] ∧ |hi.toInt| < |rt.toInt| ∧
    (hi.toInt = 0 ∨ hi.toInt.sign = rs.toInt.sign)

/-- Quotient and remainder of two words as unsigned numbers. -/
def UnsignedQuotient (rs rt lo hi : BitVec 32) : Prop :=
  rs.toNat ≡ lo.toNat * rt.toNat + hi.toNat [MOD 2 ^ 32] ∧ hi.toNat < rt.toNat

/-- The divisions of the next instruction are defined on the host, and unless it divides by zero
they leave quotient and remainder. -/
def MachineState.Divides (m : MachineState) (i : Instruction) : Prop :=
  ∃ e m₁, perform m = .ok e m₁ ∧ (m.at i.rt ≠ 0 →
    if i.opCode = .div then SignedQuotient (m.at i.rs) (m.at i.rt) (m₁.at loReg) (m₁.at hiReg)
    else UnsignedQuotient (m.at i.rs) (m.at i.rt) (m₁.at loReg) (m₁.at hiReg))

section Quotients

variable {m : MachineState} {i : Instruction}

theorem signedQuotient_sdiv {rs rt : BitVec 32} (hrt : rt ≠ 0) (h : ¬ (rs = signBit ∧ rt = -1)) :
    SignedQuotient rs rt (rs.sdiv rt) (rs.srem rt) := by
  have hne : rt.toInt ≠ 0 := fun h0 => hrt (BitVec.eq_of_toInt_eq h0)
  have hdiv : (rs.sdiv rt).toInt = rs.toInt.tdiv rt.toInt :=
    BitVec.toInt_sdiv_of_ne_or_ne _ _ (not_and_or.mp h)
  unfold SignedQuotient
  rw [hdiv, BitVec.toInt_srem]
  refine ⟨?_, ?_, ?_⟩
  · rw [Int.mul_comm, Int.mul_tdiv_add_tmod]
  · rw [Int.abs_eq_natAbs, Int.abs_eq_natAbs, Int.natAbs_tmod]
    exact_mod_cast Nat.mod_lt _ (Int.natAbs_pos.mpr hne)
  · rw [Int.sign_tmod]
    by_cases hdvd : rt.toInt ∣ rs.toInt
    · exact .inl (Int.tmod_eq_zero_of_dvd hdvd)
    · exact .inr (if_neg hdvd)

theorem unsignedQuotient_udiv {rs rt : BitVec 32} (hrt : rt ≠ 0) :
    UnsignedQuotient rs rt (rs / rt) (rs % rt) := by
  have hpos : 0 < rt.toNat := by
    apply Nat.pos_of_ne_zero
    exact fun h0 => hrt (BitVec.eq_of_toNat_eq h0)
  unfold UnsignedQuotient
  rw [BitVec.toNat_udiv, BitVec.toNat_umod]
  refine ⟨?_, Nat.mod_lt _ hpos⟩
  rw [Nat.mul_comm, Nat.div_add_mod]

/-- Two words go to `LoReg` and `HiReg`. -/
theorem setPair_eq (lo hi : BitVec 32) (m : MachineState) (pcAfter : BitVec 32) :
    ∃ m₁, thenNext pcAfter (setReg loReg lo >>= fun _ => setReg hiReg hi) m =
    .ok ⟨0, 0, pcAfter⟩ m₁ ∧
      m₁.at loReg = lo ∧ m₁.at hiReg = hi := by
  have hlo : loReg < numTotalRegs := by decide
  have hhi : hiReg < numTotalRegs := by decide
  rw [thenNext, bind_assoc, bind_ok (setReg_eq hlo _ m), bind_ok (setReg_eq hhi _ _)]
  refine ⟨_, rfl, ?_, ?_⟩
  · rw [at_put, if_neg (by decide), at_put, if_pos rfl]
  · rw [at_put, if_pos rfl]

section Cases

variable {m₀ : MachineState} {raw : BitVec 32}

/-- `OP_DIV` by its three branches. -/
theorem perform_div (h : m.Fetches raw i m₀) (hop : i.opCode = .div) :
    perform m = thenNext (m.at nextPCReg + 4)
      (if m.at i.rt = 0 then setReg loReg 0 >>= fun _ => setReg hiReg 0
      else if m.at i.rs = signBit ∧ m.at i.rt = -1 then throw (.fault .divide)
      else setReg loReg ((m.at i.rs).sdiv (m.at i.rt)) >>= fun _ =>
        setReg hiReg ((m.at i.rs).srem (m.at i.rt))) m₀ := by
  rw [h.perform.2.2, execute, hop]
  exact h.operands _ _

theorem perform_divu (h : m.Fetches raw i m₀) (hop : i.opCode = .divu) :
    perform m = thenNext (m.at nextPCReg + 4)
      (if m.at i.rt = 0 then setReg loReg 0 >>= fun _ => setReg hiReg 0
      else setReg loReg (m.at i.rs / m.at i.rt) >>= fun _ =>
        setReg hiReg (m.at i.rs % m.at i.rt)) m₀ := by
  rw [h.perform.2.2, execute, hop]
  exact h.operands _ _

/-- Zeros for a divisor of zero, and quotient and remainder otherwise. -/
theorem divides_of_pair {lo hi : BitVec 32}
    (hp : perform m = thenNext (m.at nextPCReg + 4)
      (if m.at i.rt = 0 then setReg loReg 0 >>= fun _ => setReg hiReg 0
      else setReg loReg lo >>= fun _ => setReg hiReg hi) m₀)
    (hq : m.at i.rt ≠ 0 → if i.opCode = .div then SignedQuotient (m.at i.rs) (m.at i.rt) lo hi
      else UnsignedQuotient (m.at i.rs) (m.at i.rt) lo hi) : m.Divides i := by
  unfold MachineState.Divides
  rw [hp]
  by_cases hzero : m.at i.rt = 0
  · obtain ⟨m₁, hset, -⟩ := setPair_eq 0 0 m₀ (m.at nextPCReg + 4)
    rw [if_pos hzero]
    exact ⟨_, m₁, hset, fun hne => absurd hzero hne⟩
  · obtain ⟨m₁, hset, hlo, hhi⟩ := setPair_eq lo hi m₀ (m.at nextPCReg + 4)
    rw [if_neg hzero]
    refine ⟨_, m₁, hset, fun hne => ?_⟩
    rw [hlo, hhi]
    exact hq hne

/-- `DIV` on the other pairs. -/
theorem divides_signed (h : m.Fetches raw i m₀) (hop : i.opCode = .div)
    (hok : ¬ (m.at i.rs = signBit ∧ m.at i.rt = -1)) : m.Divides i := by
  have hp := perform_div h hop
  rw [if_neg hok] at hp
  apply divides_of_pair hp
  intro hne
  rw [if_pos hop]
  exact signedQuotient_sdiv hne hok

theorem divides_unsigned (h : m.Fetches raw i m₀) (hop : i.opCode = .divu) : m.Divides i := by
  have hne : i.opCode ≠ .div := by
    rw [hop]
    decide
  apply divides_of_pair (perform_divu h hop)
  intro hzero
  rw [if_neg hne]
  exact unsignedQuotient_udiv hzero

/-- `DIV` of the smallest number by `-1` is a fault. -/
theorem perform_div_traps (h : m.Fetches raw i m₀) (hop : i.opCode = .div)
    (hrs : m.at i.rs = signBit) (hrt : m.at i.rt = -1) :
    perform m = .error (.fault .divide) m₀ := by
  have hzero : m.at i.rt ≠ 0 := by
    rw [hrt]
    decide
  rw [perform_div h hop, if_neg hzero, if_pos ⟨hrs, hrt⟩]
  rfl

end Cases

/-- **The divisions.** They are defined on the host and leave quotient and remainder, unless `DIV`
gets the smallest number and `-1`. -/
theorem division_iff (m : MachineState) (i : Instruction) (hi : m.fetched = some i)
    (hop : i.opCode = .div ∨ i.opCode = .divu) :
    m.Divides i ↔ ¬ (i.opCode = .div ∧ (m.at i.rs).toInt = minInt ∧ (m.at i.rt).toInt = -1) := by
  obtain ⟨raw, m₀, h⟩ := exists_fetches hi
  have hrs : (m.at i.rs).toInt = minInt ↔ m.at i.rs = signBit := by
    rw [← BitVec.toInt_inj]
    rfl
  have hrt : (m.at i.rt).toInt = -1 ↔ m.at i.rt = -1 := by
    rw [← BitVec.toInt_inj]
    rfl
  rw [hrs, hrt]
  constructor
  · rintro ⟨e, m₁, hp, -⟩ ⟨hdiv, hmin, hone⟩
    rw [perform_div_traps h hdiv hmin hone] at hp
    cases hp
  · intro hno
    rcases hop with hop | hop
    · exact divides_signed h hop fun hbad => hno ⟨hop, hbad⟩
    · exact divides_unsigned h hop

end Quotients

/-- `div $1, $2` on -7 and 2. -/
theorem division_iff_seven :
    (withRegs [0x0022001A] [0, 0xfffffff9, 2]).Divides ⟨.div, 1, 2, 0, 0⟩ :=
  (division_iff _ ⟨.div, 1, 2, 0, 0⟩ (by decide +kernel) (.inl rfl)).mpr (by decide +kernel)

/-- `div $1, $2` on the smallest number and `-1` is not defined on the host. -/
theorem division_smallest :
    (withRegs [0x0022001A] [0, 0x80000000, 0xffffffff]).fetched = some ⟨.div, 1, 2, 0, 0⟩ ∧
    (∃ m₁, perform (withRegs [0x0022001A] [0, 0x80000000, 0xffffffff]) =
      .error (.fault .divide) m₁) ∧
    ¬ (withRegs [0x0022001A] [0, 0x80000000, 0xffffffff]).Divides ⟨.div, 1, 2, 0, 0⟩ := by
  have hi : (withRegs [0x0022001A] [0, 0x80000000, 0xffffffff]).fetched =
    some ⟨.div, 1, 2, 0, 0⟩ := by
    decide +kernel
  obtain ⟨raw, m₀, h⟩ := exists_fetches hi
  have htrap := perform_div_traps h rfl (by decide +kernel) (by decide +kernel)
  refine ⟨hi, ⟨m₀, htrap⟩, ?_⟩
  rintro ⟨e, m₁, hp, -⟩
  rw [htrap] at hp
  cases hp

/-! ### The program counters -/

/-- **Program counters.** In every run of any code, the next instruction behind one that ends is the
one at `NextPCReg`, behind a branch too; one that raises an exception leaves the program counters,
so that it can be executed again. -/
theorem program_counters_advance (m : MachineState) (h : cpuSystem.Reachable m)
    {which : Option ExceptionType} {m' : MachineState} (hs : oneInstruction m = .ok which m') :
    if which = none then m'.at prevPCReg = m.at pcReg ∧ m'.at pcReg = m.at nextPCReg
    else ∀ j ∈ [pcReg, nextPCReg, prevPCReg], m'.at j = m.at j := by
  have hb := (h.safe (I := MachineState.Boundary) (fun _ => boundary_init) fun m a hm =>
    hm.next a).1
  -- Up to the end of the switch only general registers, `HiReg` and `LoReg` are written.
  have hkeep : ∀ {m₁}, SameOff regCells { j | j < numGPRegs ∨ j = hiReg ∨ j = loReg } m m₁ →
      (∀ j ∈ [pcReg, nextPCReg, prevPCReg], m₁.at j = m.at j) ∧ m₁.at loadReg = m.at loadReg :=
    fun hsame => ⟨fun j hj => hsame j (by revert j; decide), hsame loadReg (by decide)⟩
  cases hp : perform m with
  | ok e m₁ =>
    obtain ⟨hsame, hload⟩ := hkeep (uses_perform.ok hp).1
    have hlt := hload ▸ hb.pending
    obtain ⟨m₂, hc, -, -, hat⟩ := complete_at hlt e
    have hi : instruction m = .ok () m₂ := by rw [instruction, bind_ok hp, hc]
    rw [oneInstruction_of_ok hi] at hs
    cases hs
    rw [if_pos rfl, hat, hat, if_neg (by decide), if_neg (by decide), if_pos rfl,
      if_neg (by decide),
      if_pos rfl, at_afterLoad_pc hlt _ _ (by simp), at_afterLoad_pc hlt _ _ (by simp)]
    exact ⟨hsame pcReg (by simp), hsame nextPCReg (by simp)⟩
  | error t m₁ =>
    obtain ⟨hsame, hload⟩ := hkeep (uses_perform.error hp).1
    have hlt := hload ▸ hb.pending
    have hi : instruction m = .error t m₁ := by rw [instruction, bind_error hp]
    cases t with
    | fault f =>
      rw [oneInstruction_of_fault hi] at hs
      cases hs
    | exception which badVAddr =>
      rw [oneInstruction_of_exception hi hlt] at hs
      cases hs
      rw [if_neg (by simp)]
      intro j hj
      have hne : badVAddrReg ≠ j := by revert j; decide
      rw [MachineState.raised, at_afterLoad_pc _ _ _ hj, at_put, if_neg hne, hsame j hj]
      rwa [at_put, if_neg (by decide)]

/-- The first instruction of the program ends, and the next one is at 4. -/
theorem program_counters_advance_addToZero :
    ∃ m, oneInstruction addToZero = .ok none m ∧ m.at pcReg = 4 := by
  obtain ⟨m, hm⟩ : ∃ m, oneInstruction addToZero = .ok none m := ⟨_, rfl⟩
  exact ⟨m, hm,
    (program_counters_advance _ (.init ⟨.replicate numTotalRegs 0, 1,
      Registers.initRegisters_eq _ _⟩) hm).2⟩

end Nachos.Machine
