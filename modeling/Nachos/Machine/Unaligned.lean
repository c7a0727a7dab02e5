import Nachos.Machine.LoadDelay
import Nachos.Machine.Mapping

namespace Nachos.Machine

open Base

/-!
# Machine — loads and stores at any address

The MIPS has no load of an unaligned word. A program uses a pair instead: `LWR r,0(A)` takes the
bytes from `A` to the end of its word, `LWL r,3(A)` the ones from the beginning of the next word up
to `A+3`, and `SWR` and `SWL` store them in the same way.

The four merge functions of the switch are two (`swlValue_eq`, `swrValue_eq`), and byte by byte they
are a choice between the two words. So each instruction moves a part of the four bytes, and the
parts of a pair are all of them (`Half.has_or_other`); that the second instruction of a load pair
finds what the first one has loaded is `forwarded`, which sees the pending load, or its register
after an interrupt.
-/

/-! ### The bytes of the merged words -/

section Bytes

variable {old value : BitVec 32} {j k l : ℕ}

/-- Two words have a byte in common if they have its bits in common. -/
theorem wordByte_eq {v w : BitVec 32} (h : ∀ i < 8, v.getLsbD (8 * j + i) = w.getLsbD (8 * l + i)) :
    wordByte v.toNat j = wordByte w.toNat l := by
  have hbit : ∀ (n j i : ℕ), (n / 256 ^ j % 2 ^ 8).testBit i =
    (decide (i < 8) && n.testBit (8 * j + i)) := by
    intro n j i
    rw [Nat.testBit_mod_two_pow, show 256 ^ j = 2 ^ (8 * j) by rw [Nat.pow_mul],
      Nat.testBit_div_two_pow, Nat.add_comm]
  apply UInt8.toNat_inj.mp
  simp only [wordByte, UInt8.toNat_ofNat']
  refine Nat.eq_of_testBit_eq fun i => ?_
  rw [hbit, hbit]
  by_cases hi : i < 8
  · rw [BitVec.testBit_toNat, BitVec.testBit_toNat, h i hi]
  · simp [hi]

theorem getLsbD_mask : ∀ i : Fin 32,
    (0xff#32).getLsbD i = decide ((i : ℕ) < 8) ∧ (0xffff#32).getLsbD i = decide ((i : ℕ) < 16) ∧
    (0xffffff#32).getLsbD i = decide ((i : ℕ) < 24) ∧
    (0xffffff00#32).getLsbD i = !decide ((i : ℕ) < 8) ∧
    (0xffff0000#32).getLsbD i = !decide ((i : ℕ) < 16) ∧
    (0xff000000#32).getLsbD i = !decide ((i : ℕ) < 24) := by
  decide

/-- `LWR` takes the low `k + 1` bytes of the register from the high bytes of the word. -/
theorem getLsbD_lwrValue (hk : k < 4) {i : ℕ} (hi : i < 32) : (lwrValue k old value).getLsbD i =
    if i < 8 * (k + 1) then value.getLsbD (8 * (3 - k) + i) else old.getLsbD i := by
  obtain ⟨h1, h2, h3, h4, h5, h6⟩ := getLsbD_mask ⟨i, hi⟩
  simp only at h1 h2 h3 h4 h5 h6
  obtain rfl | rfl | rfl | rfl : k = 0 ∨ k = 1 ∨ k = 2 ∨ k = 3 := by omega
  all_goals
    simp only [lwrValue, BitVec.getLsbD_or, BitVec.getLsbD_and, BitVec.getLsbD_sshiftRight, h1,
      h2, h3, h4, h5, h6]
  · by_cases h : i < 8
    · simp [h, show ¬ 32 ≤ i by omega, show 24 + i < 32 by omega]
    · simp [h]
  · by_cases h : i < 16
    · simp [h, show ¬ 32 ≤ i by omega, show 16 + i < 32 by omega]
    · simp [h]
  · by_cases h : i < 24
    · simp [h, show ¬ 32 ≤ i by omega, show 8 + i < 32 by omega]
    · simp [h]
  · simp [hi]

/-- `LWL` takes the bytes of the register from `k` on from the low bytes of the word. -/
theorem getLsbD_lwlValue (hk : k < 4) {i : ℕ} (hi : i < 32) : (lwlValue k old value).getLsbD i =
    if 8 * k ≤ i then value.getLsbD (i - 8 * k) else old.getLsbD i := by
  obtain ⟨h1, h2, h3, -⟩ := getLsbD_mask ⟨i, hi⟩
  simp only at h1 h2 h3
  obtain rfl | rfl | rfl | rfl : k = 0 ∨ k = 1 ∨ k = 2 ∨ k = 3 := by omega
  all_goals
    simp only [lwlValue, BitVec.getLsbD_or, BitVec.getLsbD_and, BitVec.getLsbD_shiftLeft, h1,
      h2, h3]
  · simp
  · by_cases h : i < 8
    · simp [h, show ¬ 8 ≤ i by omega]
    · simp [h, hi, show 8 ≤ i by omega]
  · by_cases h : i < 16
    · simp [h, show ¬ 16 ≤ i by omega]
    · simp [h, hi, show 16 ≤ i by omega]
  · by_cases h : i < 24
    · simp [h, show ¬ 24 ≤ i by omega]
    · simp [h, hi, show 24 ≤ i by omega]

theorem wordByte_lwrValue (hk : k < 4) (hj : j < 4) : wordByte (lwrValue k old value).toNat j =
    if j ≤ k then wordByte value.toNat (j + (3 - k)) else wordByte old.toNat j := by
  split
  · refine wordByte_eq fun i hi => ?_
    rw [getLsbD_lwrValue hk (by omega), if_pos (by omega)]
    congr 1
    omega
  · refine wordByte_eq fun i hi => ?_
    rw [getLsbD_lwrValue hk (by omega), if_neg (by omega)]

theorem wordByte_lwlValue (hk : k < 4) (hj : j < 4) : wordByte (lwlValue k old value).toNat j =
    if k ≤ j then wordByte value.toNat (j - k) else wordByte old.toNat j := by
  split
  · refine wordByte_eq fun i hi => ?_
    rw [getLsbD_lwlValue hk (by omega), if_pos (by omega)]
    congr 1
    omega
  · refine wordByte_eq fun i hi => ?_
    rw [getLsbD_lwlValue hk (by omega), if_neg (by omega)]

/-- Storing with `SWL` is loading with `LWR`, with the register and the memory word exchanged. -/
theorem swlValue_eq (hk : k < 4) (rt : BitVec 32) :
    swlValue k value rt = lwrValue (3 - k) value rt := by
  obtain rfl | rfl | rfl | rfl : k = 0 ∨ k = 1 ∨ k = 2 ∨ k = 3 := by omega
  all_goals rfl

theorem swrValue_eq (hk : k < 4) (rt : BitVec 32) :
    swrValue k value rt = lwlValue (3 - k) value rt := by
  obtain rfl | rfl | rfl | rfl : k = 0 ∨ k = 1 ∨ k = 2 ∨ k = 3 := by omega
  all_goals rfl

theorem ofInt_intOfBytes (b : ℕ → UInt8) :
    BitVec.ofInt 32 (intOfBytes b) = BitVec.ofNat 32 (wordOfBytes b) := by
  apply BitVec.eq_of_toInt_eq
  rw [← BitVec.ofInt_natCast, BitVec.toInt_ofInt, BitVec.toInt_ofInt, intOfBytes, wrap32]
  exact Int.bmod_bmod

theorem wordOfBytes_lt (b : ℕ → UInt8) : wordOfBytes b < 2 ^ 32 := by
  have h0 := (b 0).toNat_lt
  have h1 := (b 1).toNat_lt
  have h2 := (b 2).toNat_lt
  have h3 := (b 3).toNat_lt
  unfold wordOfBytes
  omega

theorem wordByte_read (b : ℕ → UInt8) (hj : j < 4) :
    wordByte (BitVec.ofInt 32 (intOfBytes b)).toNat j = b j := by
  rw [ofInt_intOfBytes, BitVec.toNat_ofNat, Nat.mod_eq_of_lt (wordOfBytes_lt b),
    wordByte_wordOfBytes b hj]

/-- The bytes of a word that is written to memory. -/
theorem intByte_toInt (v : BitVec 32) (j : ℕ) : intByte v.toInt j = wordByte v.toNat j := by
  have hmod : v.toInt % 4294967296 = (v.toNat : Int) := by
    have hlt := v.isLt
    rw [BitVec.toInt_eq_toNat_bmod]
    exact (Int.bmod_emod).trans (Int.emod_eq_of_lt (by omega) (by omega))
  rw [intByte, hmod, Int.toNat_natCast]

theorem eq_ofNat_wordOfBytes {v : BitVec 32} {b : ℕ → UInt8}
    (h : ∀ j < 4, wordByte v.toNat j = b j) : v = BitVec.ofNat 32 (wordOfBytes b) := by
  rw [← wordOfBytes_congr h, wordOfBytes_wordByte v.isLt, BitVec.ofNat_toNat, BitVec.setWidth_eq]

end Bytes

/-! ### The two halves of a pair -/

/-- The bytes from `A` to `A+3` may be written; byte `j` is at the physical address `x j`. -/
def MapsWord (t : Tables) (A : BitVec 32) (x : ℕ → ℕ) : Prop :=
  ∀ j < 4, Maps t (A + BitVec.ofNat 32 j) true (x j)

theorem MapsWord.same {t t' : Tables} {A : BitVec 32} {x : ℕ → ℕ} (h : MapsWord t A x)
    (hsame : t.Same t') : MapsWord t' A x := fun j hj => (h j hj).same hsame

/-- The instruction of a pair that is used at `A`, and the one at `A+3`. -/
inductive Half where
  | right
  | left
  deriving DecidableEq

namespace Half

/-- The other instruction of the pair. -/
def other : Half → Half
  | right => left
  | left => right

/-- The address it is used at. -/
def address (A : BitVec 32) : Half → BitVec 32
  | right => A
  | left => A + 3

def loadOp : Half → OpCode
  | right => .lwr
  | left => .lwl

def storeOp : Half → OpCode
  | right => .swr
  | left => .swl

def loadValue : Half → ℕ → BitVec 32 → BitVec 32 → BitVec 32
  | right => lwrValue
  | left => lwlValue

def storeValue : Half → ℕ → BitVec 32 → BitVec 32 → BitVec 32
  | right => swrValue
  | left => swlValue

/-- Byte `j` of the four is one that this instruction moves. -/
def Has (A : BitVec 32) (j : ℕ) : Half → Prop
  | right => j + A.toNat % 4 < 4
  | left => 3 ≤ j + (A + 3).toNat % 4

end Half

section Halves

variable {A w old : BitVec 32} {x : ℕ → ℕ} {t : Tables} {mem mem' mem'' : ℕ → UInt8} {j : ℕ}

theorem toNat_add_mod_four (A : BitVec 32) (j : ℕ) :
    (A + BitVec.ofNat 32 j).toNat % 4 = (A.toNat + j) % 4 := by
  rw [BitVec.toNat_add, BitVec.toNat_ofNat]
  omega

/-- Every byte belongs to one of the two. -/
theorem Half.has_or_other (h : Half) (A : BitVec 32) (hj : j < 4) :
    h.Has A j ∨ h.other.Has A j := by
  have h3 : (A + 3).toNat % 4 = (A.toNat + 3) % 4 := toNat_add_mod_four A 3
  cases h <;> simp only [Half.Has, Half.other, h3] <;> omega

/-- The four bytes are different. -/
theorem MapsWord.injective (hx : MapsWord t A x) {i j : ℕ} (hi : i < 4) (hj : j < 4)
    (h : x i = x j) : i = j := by
  have hoff : ∀ j < 4, x j % pageSize = (A.toNat + j) % pageSize := by
    intro j hj
    rw [(hx j hj).offset, BitVec.toNat_add, BitVec.toNat_ofNat]
    unfold pageSize
    omega
  have hij := hoff i hi
  rw [h, hoff j hj] at hij
  unfold pageSize at hij
  omega

/-- The physical address that an instruction of the pair uses. -/
def Half.base (x : ℕ → ℕ) : Half → ℕ
  | right => x 0
  | left => x 3

theorem MapsWord.half (hx : MapsWord t A x) (h : Half) : Maps t (h.address A) true (h.base x) := by
  cases h with
  | right =>
    have h0 := hx 0 (by omega)
    rwa [show A + BitVec.ofNat 32 0 = A from BitVec.add_zero A] at h0
  | left => exact hx 3 (by omega)

/-- The place of byte `j` in the word that an instruction of the pair accesses. -/
def Half.index (A : BitVec 32) (j : ℕ) : Half → ℕ
  | right => j + A.toNat % 4
  | left => j + (A + 3).toNat % 4 - 3

theorem Half.index_lt {h : Half} (hj : j < 4) (hhas : h.Has A j) : h.index A j < 4 := by
  cases h with
  | right => exact hhas
  | left =>
    have hmod : (A + 3).toNat % 4 < 4 := Nat.mod_lt _ (by omega)
    simp only [Half.index]
    omega

/-- The bytes of a half are in one word. -/
theorem MapsWord.eq_add_index (hx : MapsWord t A x) {h : Half} (hj : j < 4) (hhas : h.Has A j) :
    x j = h.base x - (h.address A).toNat % 4 + h.index A j := by
  have hle := (hx.half h).translate_word.1
  cases h with
  | right =>
    simp only [Half.Has, Half.address, Half.base, Half.index] at *
    have hnext := (hx.half .right).add (j := j) (by simp only [Half.address]; omega)
    have heq : x j = x 0 + j := (hx j hj).unique hnext
    omega
  | left =>
    have h3 : (A + 3).toNat % 4 = (A.toNat + 3) % 4 := toNat_add_mod_four A 3
    simp only [Half.Has, Half.address, Half.base, Half.index] at *
    have hnext := (hx j hj).add (j := 3 - j) (by rw [toNat_add_mod_four A j]; omega)
    have haddr : A + BitVec.ofNat 32 j + BitVec.ofNat 32 (3 - j) = A + BitVec.ofNat 32 3 := by
      rw [BitVec.add_assoc, ← BitVec.ofNat_add, Nat.add_sub_cancel' (by omega)]
    rw [haddr] at hnext
    have heq : x 3 = x j + (3 - j) := (hx 3 (by omega)).unique hnext
    omega

/-- **Load.** The bytes of the register after one instruction of a load pair. -/
theorem Half.wordByte_loadValue (h : Half) (hx : MapsWord t A x) (hj : j < 4) :
    let v := h.loadValue (3 - (h.address A).toNat % 4) old (BitVec.ofInt 32 (intOfBytes fun l =>
      mem (h.base x - (h.address A).toNat % 4 + l)))
    (h.Has A j → wordByte v.toNat j = mem (x j)) ∧
    (¬ h.Has A j → wordByte v.toNat j = wordByte old.toNat j) := by
  have hmod : (h.address A).toNat % 4 < 4 := Nat.mod_lt _ (by omega)
  refine ⟨fun hhas => ?_, fun hhas => ?_⟩
  · rw [hx.eq_add_index hj hhas]
    have hlt := Half.index_lt hj hhas
    cases h with
    | right =>
      simp only [Half.Has, Half.loadValue, Half.index, Half.address] at *
      rw [wordByte_lwrValue (by omega) hj, if_pos (by omega),
        show j + (3 - (3 - A.toNat % 4)) = j + A.toNat % 4 by omega, wordByte_read _ hlt]
    | left =>
      simp only [Half.Has, Half.loadValue, Half.index, Half.address] at *
      rw [wordByte_lwlValue (by omega) hj, if_pos (by omega),
        show j - (3 - (A + 3).toNat % 4) = j + (A + 3).toNat % 4 - 3 by omega, wordByte_read _ hlt]
  · cases h with
    | right =>
      simp only [Half.Has, Half.loadValue, Half.address] at *
      rw [wordByte_lwrValue (by omega) hj, if_neg (by omega)]
    | left =>
      simp only [Half.Has, Half.loadValue, Half.address] at *
      rw [wordByte_lwlValue (by omega) hj, if_neg (by omega)]

/-- The bytes `x j` with `S j` are those of a word, and no others have changed. -/
structure Stored (S : ℕ → Prop) (x : ℕ → ℕ) (w : BitVec 32) (mem mem' : ℕ → UInt8) : Prop where
  part : ∀ j < 4, S j → mem' (x j) = wordByte w.toNat j
  frame : ∀ p, (∀ j < 4, S j → p ≠ x j) → mem' p = mem p

/-- The parts of two stores of one word. -/
theorem Stored.append {S S' : ℕ → Prop} (h : Stored S x w mem mem') (h' : Stored S' x w mem' mem'')
    (hinj : ∀ i < 4, ∀ j < 4, x i = x j → i = j) (hall : ∀ j < 4, S j ∨ S' j) :
    Stored (fun _ => True) x w mem mem'' := by
  refine ⟨fun j hj _ => ?_, fun p hp => ?_⟩
  · by_cases hS' : S' j
    · exact h'.part j hj hS'
    · have hne : ∀ i < 4, S' i → x j ≠ x i := by
        intro i hi hSi heq
        rw [hinj j hj i hi heq] at hS'
        exact hS' hSi
      rw [h'.frame (x j) hne]
      exact h.part j hj ((hall j hj).resolve_right hS')
  · rw [h'.frame p fun j hj _ => hp j hj trivial, h.frame p fun j hj _ => hp j hj trivial]

/-- **Store.** What one instruction of a store pair writes. -/
theorem Half.stored (h : Half) (hx : MapsWord t A x) (mem : ℕ → UInt8) (w : BitVec 32) :
    let y := h.base x - (h.address A).toNat % 4
    let v := h.storeValue (3 - (h.address A).toNat % 4)
      (BitVec.ofInt 32 (intOfBytes fun l => mem (y + l))) w
    Stored (fun j => h.Has A j) x w mem (storeBytes mem y 4 v.toInt) := by
  intro y v
  have hmod : (h.address A).toNat % 4 < 4 := Nat.mod_lt _ (by omega)
  -- The bytes of the word that is written back.
  have hword : ∀ l < 4,
      (∀ j < 4, h.Has A j → l = h.index A j → wordByte v.toNat l = wordByte w.toNat j) ∧
      ((∀ j < 4, h.Has A j → l ≠ h.index A j) → wordByte v.toNat l = mem (y + l)) := by
    intro l hl
    simp only [v]
    cases h with
    | right =>
      simp only [Half.Has, Half.storeValue, Half.index, Half.address] at *
      rw [swrValue_eq (by omega), wordByte_lwlValue (by omega) hl]
      refine ⟨fun j hj hhas hlj => ?_, fun hnot => ?_⟩
      · rw [if_pos (by omega)]
        congr 1
        omega
      · have := hnot (l - A.toNat % 4)
        rw [if_neg (by omega), wordByte_read _ hl]
    | left =>
      simp only [Half.Has, Half.storeValue, Half.index, Half.address] at *
      rw [swlValue_eq (by omega), wordByte_lwrValue (by omega) hl]
      refine ⟨fun j hj hhas hlj => ?_, fun hnot => ?_⟩
      · rw [if_pos (by omega)]
        congr 1
        omega
      · have := hnot (l + 3 - (A + 3).toNat % 4)
        rw [if_neg (by omega), wordByte_read _ hl]
  refine ⟨fun j hj hhas => ?_, fun p hp => ?_⟩
  · have hlt := Half.index_lt hj hhas
    rw [hx.eq_add_index hj hhas, storeBytes, if_pos (by omega), intByte_toInt,
      Nat.add_sub_cancel_left]
    exact (hword _ hlt).1 j hj hhas rfl
  · unfold storeBytes
    by_cases hin : y ≤ p ∧ p < y + 4
    · rw [if_pos hin, intByte_toInt]
      have hother := (hword (p - y) (by omega)).2 fun j hj hhas heq => hp j hj hhas ?_
      · rw [hother, Nat.add_sub_cancel' hin.1]
      · rw [hx.eq_add_index hj hhas, ← heq]
        omega
    · rw [if_neg hin]

end Halves

/-! ### One instruction -/

section Step

variable {m m₀ m₁ : MachineState} {i : Instruction} {v A : BitVec 32} {x : ℕ → ℕ} {r y : ℕ}

theorem load_word (h : Maps m.tables v false y) : ∃ t, m.tables.Same t ∧
    load (v - (v &&& 3#32)) 4 m = .ok (BitVec.ofInt 32 (intOfBytes fun j =>
      m.mainMemory (y - v.toNat % 4 + j))) { m with tables := t } := by
  obtain ⟨-, t, ht, hsame⟩ := h.translate_word
  refine ⟨t, hsame, ?_⟩
  simp only [load, readMem, ht]

theorem store_word (h : Maps m.tables v true y) (w : BitVec 32) : ∃ t, m.tables.Same t ∧
    store (v - (v &&& 3#32)) 4 w m = .ok () { m with
      mainMemory := storeBytes m.mainMemory (y - v.toNat % 4) 4 w.toInt, tables := t } := by
  obtain ⟨-, t, ht, hsame⟩ := h.translate_word
  refine ⟨t, hsame, ?_⟩
  simp [store, writeMem, ht]

theorem load_eq_ok {addr : BitVec 32} {size : ℕ} (h : load addr size m = .ok v m₁) :
    ∃ t, m.tables.Same t ∧ m₁ = { m with tables := t } := by
  unfold load at h
  split at h
  · cases h
  · cases h
  · rename_i t hread
    obtain ⟨x, htr⟩ := translate_of_readMem hread
    cases h
    exact ⟨t, (translate_eq_some_ok htr).2.1, rfl⟩

theorem fetch_eq_ok (h : fetch m = .ok i m₀) :
    i.Valid ∧ ∃ t, m.tables.Same t ∧ m₀ = { m with tables := t } := by
  refine ⟨(uses_fetch.ok h).2, ?_⟩
  unfold fetch at h
  rw [bind_ok (reg_eq (by decide) m)] at h
  obtain ⟨raw, m₁, hload, h⟩ := bind_eq_ok h
  obtain ⟨i', hi', -⟩ := decode_eq_some raw
  rw [hi'] at h
  cases h
  exact load_eq_ok hload

/-- What a general register holds once the pending load is done. -/
theorem at_commit (hr : r < numGPRegs) (h0 : r ≠ 0) (m : MachineState) :
    m.commit.at r = if m.at loadReg = BitVec.ofNat 32 r then m.at loadValueReg else m.at r := by
  have hl : r ≠ loadReg := fun heq => absurd (heq ▸ hr) (by decide)
  have hlv : r ≠ loadValueReg := fun heq => absurd (heq ▸ hr) (by decide)
  rw [MachineState.commit, at_afterLoad _ _ _ (lt_total hr), if_neg h0, if_neg hlv, if_neg hl]
  simp only [eq_ofNat_iff hr]

/-- The next instruction is `op` with the register `r` and the address `v`, which is not computed
from `r`. -/
def MachineState.Next (m : MachineState) (op : OpCode) (r : ℕ) (v : BitVec 32) : Prop :=
  ∃ i, m.fetched = some i ∧ i.opCode = op ∧ i.rt = r ∧ i.rs ≠ r ∧ m.at i.rs + i.extra = v

/-- An instruction whose case of the switch is known. -/
theorem oneInstruction_of_execute (hb : m.Boundary) {t : Tables}
    (hf : fetch m = .ok i { m with tables := t })
    {e : Effect} (he : e.Valid) (hexec : execute i (m.at nextPCReg + 4) { m with tables := t } =
      .ok e m₁)
    (hregs : m₁.registers = m.registers) :
    ∃ m', oneInstruction m = .ok none m' ∧ m'.Boundary ∧ m'.mainMemory = m₁.mainMemory ∧
      m'.tables = m₁.tables ∧ m'.at loadReg = BitVec.ofNat 32 e.nextLoadReg ∧
      m'.at loadValueReg = e.nextLoadValue := by
  have hl : m₁.at loadReg = m.at loadReg := by simp only [MachineState.at, regCells, hregs]
  obtain ⟨m', hc, hrest⟩ := complete_spec (m := m₁) (by rw [hl]; exact hb.pending) he
  have hperform : perform m = .ok e m₁ := by
    rw [perform, bind_ok hf, bind_ok (reg_eq (by decide) _)]
    exact hexec
  refine ⟨m', oneInstruction_of_ok ?_, hrest⟩
  rw [instruction, bind_ok hperform, hc]

theorem Half.execute_load (h : Half) (hop : i.opCode = h.loadOp) (pcAfter : BitVec 32) :
    execute i pcAfter = loadPart i pcAfter h.loadValue := by
  unfold execute
  rw [hop]
  cases h <;> rfl

theorem Half.execute_store (h : Half) (hop : i.opCode = h.storeOp) (pcAfter : BitVec 32) :
    execute i pcAfter = thenNext pcAfter (storePart i h.storeValue) := by
  unfold execute
  rw [hop]
  cases h <;> rfl

section Parts

variable (hv : i.Valid) (haddr : m.at i.rs + i.extra = v)

include hv haddr

theorem loadAligned_eq (hy : Maps m.tables v false y) : ∃ t, m.tables.Same t ∧
    loadAligned i m = .ok (v, BitVec.ofInt 32 (intOfBytes fun j =>
      m.mainMemory (y - v.toNat % 4 + j))) { m with tables := t } := by
  obtain ⟨t, hsame, hload⟩ := load_word hy
  have htmp : address i m = .ok v m := by
    rw [address, bind_ok (reg_eq (lt_total hv.rs) m), ← haddr]
    rfl
  refine ⟨t, hsame, ?_⟩
  rw [loadAligned, bind_ok htmp, bind_ok hload]
  rfl

theorem loadPart_eq (hr : i.rt ≠ 0) (hy : Maps m.tables v false y) (pcAfter : BitVec 32)
    (f : ℕ → BitVec 32 → BitVec 32 → BitVec 32) : ∃ t, m.tables.Same t ∧
    loadPart i pcAfter f m = .ok ⟨i.rt, f (3 - v.toNat % 4) (m.commit.at i.rt)
      (BitVec.ofInt 32 (intOfBytes fun j => m.mainMemory (y - v.toNat % 4 + j))), pcAfter⟩
      { m with tables := t } := by
  obtain ⟨t, hsame, hload⟩ := loadAligned_eq hv haddr hy
  have hfwd := forwarded_eq (lt_total hv.rt) { m with tables := t }
  refine ⟨t, hsame, ?_⟩
  rw [loadPart, bind_ok hload, at_commit hv.rt hr, ← toNat_and_three]
  exact bind_ok hfwd

theorem storePart_eq (hy : Maps m.tables v true y) (f : ℕ → BitVec 32 → BitVec 32 → BitVec 32) :
    ∃ t, m.tables.Same t ∧ storePart i f m = .ok () { m with
      mainMemory := storeBytes m.mainMemory (y - v.toNat % 4) 4 (f (3 - v.toNat % 4)
        (BitVec.ofInt 32 (intOfBytes fun j => m.mainMemory (y - v.toNat % 4 + j)))
        (m.at i.rt)).toInt
      tables := t } := by
  obtain ⟨t, hsame, hload⟩ := loadAligned_eq hv haddr hy.read
  obtain ⟨t', hsame', hstore⟩ := store_word (m := { m with tables := t }) (hy.same hsame)
    (f (3 - v.toNat % 4)
      (BitVec.ofInt 32 (intOfBytes fun j => m.mainMemory (y - v.toNat % 4 + j))) (m.at i.rt))
  refine ⟨t', hsame.trans hsame', ?_⟩
  rw [storePart, bind_ok hload]
  refine (bind_ok (reg_eq (lt_total hv.rt) _)).trans ?_
  rw [toNat_and_three]
  exact hstore

end Parts

/-- **One instruction of a load pair.** It puts its part of the bytes into the register. -/
theorem Half.load (h : Half) (hb : m.Boundary) (hx : MapsWord m.tables A x) (hr : r ≠ 0)
    (hn : m.Next h.loadOp r (h.address A)) :
    ∃ m', oneInstruction m = .ok none m' ∧ m'.Boundary ∧ m.tables.Same m'.tables ∧
      m'.mainMemory = m.mainMemory ∧ r < numGPRegs ∧ ∀ j < 4,
        (h.Has A j → wordByte (m'.commit.at r).toNat j = m.mainMemory (x j)) ∧
        (¬ h.Has A j → wordByte (m'.commit.at r).toNat j = wordByte (m.commit.at r).toNat j) := by
  obtain ⟨i, hi, hop, rfl, -, haddr⟩ := hn
  obtain ⟨m₀, hf⟩ := fetched_eq_some.mp hi
  obtain ⟨hvalid, t, hsame, rfl⟩ := fetch_eq_ok hf
  obtain ⟨t', hsame', hload⟩ := loadPart_eq (m := { m with tables := t }) hvalid haddr hr
    ((hx.same hsame).half h).read (m.at nextPCReg + 4) h.loadValue
  obtain ⟨m', hone, hb', hmem, htab, hl, hlv⟩ :=
    oneInstruction_of_execute hb hf hvalid.rt ((congrFun (h.execute_load hop _) _).trans hload) rfl
  refine ⟨m', hone, hb', ?_, hmem, hvalid.rt, fun j hj => ?_⟩
  · rw [htab]
    exact hsame.trans hsame'
  · rw [at_commit hvalid.rt hr m', hl, if_pos rfl, hlv]
    exact h.wordByte_loadValue hx hj

/-- **One instruction of a store pair.** It writes its part of the bytes of the register. -/
theorem Half.store (h : Half) (hb : m.Boundary) (hx : MapsWord m.tables A x)
    (hn : m.Next h.storeOp r (h.address A)) :
    ∃ m', oneInstruction m = .ok none m' ∧ m'.Boundary ∧ m.tables.Same m'.tables ∧
      Stored (fun j => h.Has A j) x (m.at r) m.mainMemory m'.mainMemory := by
  obtain ⟨i, hi, hop, rfl, -, haddr⟩ := hn
  obtain ⟨m₀, hf⟩ := fetched_eq_some.mp hi
  obtain ⟨hvalid, t, hsame, rfl⟩ := fetch_eq_ok hf
  obtain ⟨t', hsame', hstore⟩ := storePart_eq (m := { m with tables := t }) hvalid haddr
    ((hx.same hsame).half h) h.storeValue
  obtain ⟨m', hone, hb', hmem, htab, -⟩ :=
    oneInstruction_of_execute hb hf (valid_zero 0 (m.at nextPCReg + 4))
      ((congrFun (h.execute_store hop _) _).trans (bind_ok hstore)) rfl
  refine ⟨m', hone, hb', ?_, ?_⟩
  · rw [htab]
    exact hsame.trans hsame'
  · rw [hmem]
    exact h.stored hx m.mainMemory (m.at i.rt)

/-- Interrupts between two instructions change neither memory nor what a register holds once the
pending load is done. -/
theorem interrupts_spec (hb : m.Boundary) {n : ℕ} (h : interrupts n m = .ok () m₁) :
    m₁.Boundary ∧ m₁.tables = m.tables ∧ m₁.mainMemory = m.mainMemory ∧ m₁.commit = m.commit := by
  rcases interrupts_eq hb n with heq | heq
  · rw [heq] at h
    cases h
    exact ⟨hb, rfl, rfl, rfl⟩
  · rw [heq, EStateM.Result.ok.injEq] at h
    obtain ⟨-, rfl⟩ := h
    refine ⟨boundary_commit m, ?_, ?_, hb.commit_commit⟩ <;>
      rw [MachineState.commit, MachineState.afterLoad]

end Step

/-! ### Pairs -/

/-- Two instructions, `op h` and then the other one, are executed where `P` holds for each of them.
None of them raises an exception, and `Q` holds behind them. Any number of interrupts may come in
between. -/
def MachineState.AfterPair (m : MachineState) (op : Half → OpCode) (h : Half) (A : BitVec 32)
    (r : ℕ) (P Q : MachineState → Prop) : Prop :=
  m.Next (op h) r (h.address A) → P m →
  ∃ m₁, oneInstruction m = .ok none m₁ ∧ ∀ n m₁', interrupts n m₁ = .ok () m₁' →
    m₁'.Next (op h.other) r (h.other.address A) → P m₁' →
    ∃ m₂, oneInstruction m₁' = .ok none m₂ ∧ Q m₂

/-- The register holds `v` once the pending load is done, be it by an interrupt or by the next
instruction. -/
def MachineState.Yields (m : MachineState) (r : ℕ) (v : BitVec 32) : Prop :=
  ∀ nextReg nextValue, ∃ m', delayedLoad nextReg nextValue m = .ok () m' ∧ m'.at r = v

section Pairs

variable {m : MachineState} {A : BitVec 32} {x : ℕ → ℕ} {r : ℕ}

theorem yields_of_commit (hb : m.Boundary) (hr : r < numGPRegs) {v : BitVec 32}
    (h : m.commit.at r = v) : m.Yields r v := by
  intro nextReg nextValue
  refine ⟨_, delayedLoad_eq (lt_total hb.pending) nextReg nextValue, ?_⟩
  have hl : r ≠ loadReg := fun heq => absurd (heq ▸ hr) (by decide)
  have hlv : r ≠ loadValueReg := fun heq => absurd (heq ▸ hr) (by decide)
  rw [← h, MachineState.commit, at_afterLoad _ _ _ (lt_total hr), at_afterLoad _ _ _ (lt_total hr),
    if_neg hlv, if_neg hl, if_neg hlv, if_neg hl]

theorem afterPair_load (hb : m.Boundary) (hx : MapsWord m.tables A x) (hr : r ≠ 0) (h : Half) :
    m.AfterPair Half.loadOp h A r (fun _ => True) fun m₂ =>
      m₂.Yields r (BitVec.ofNat 32 (wordOfBytes fun j => m.mainMemory (x j))) := by
  intro hn _
  obtain ⟨m₁, hone, hb₁, hsame₁, hmem₁, -, hbytes₁⟩ := h.load hb hx hr hn
  refine ⟨m₁, hone, fun n m₁' hint hn' _ => ?_⟩
  obtain ⟨hb₁', htab', hmem', hcommit'⟩ := interrupts_spec hb₁ hint
  have hx' : MapsWord m₁'.tables A x := by
    rw [htab']
    exact hx.same hsame₁
  obtain ⟨m₂, hone', hb₂, -, -, hlt, hbytes₂⟩ := h.other.load hb₁' hx' hr hn'
  refine ⟨m₂, hone', yields_of_commit hb₂ hlt (eq_ofNat_wordOfBytes fun j hj => ?_)⟩
  by_cases hhas : h.other.Has A j
  · rw [(hbytes₂ j hj).1 hhas, hmem', hmem₁]
  · rw [(hbytes₂ j hj).2 hhas, hcommit']
    exact (hbytes₁ j hj).1 ((h.has_or_other A hj).resolve_right hhas)

theorem afterPair_store (hb : m.Boundary) (hx : MapsWord m.tables A x) (h : Half) (v : BitVec 32) :
    m.AfterPair Half.storeOp h A r (fun m' => m'.at r = v) fun m₂ => m₂.Boundary ∧
      MapsWord m₂.tables A x ∧ Stored (fun _ => True) x v m.mainMemory m₂.mainMemory := by
  intro hn hv
  obtain ⟨m₁, hone, hb₁, hsame₁, hstored₁⟩ := h.store hb hx hn
  refine ⟨m₁, hone, fun n m₁' hint hn' hv' => ?_⟩
  obtain ⟨hb₁', htab', hmem', -⟩ := interrupts_spec hb₁ hint
  have hx' : MapsWord m₁'.tables A x := by
    rw [htab']
    exact hx.same hsame₁
  obtain ⟨m₂, hone', hb₂, hsame₂, hstored₂⟩ := h.other.store hb₁' hx' hn'
  refine ⟨m₂, hone', hb₂, hx'.same hsame₂, ?_⟩
  rw [hv] at hstored₁
  rw [hv', hmem'] at hstored₂
  exact hstored₁.append hstored₂ (fun i hi j hj => hx.injective hi hj) fun j hj =>
    h.has_or_other A hj

theorem MachineState.AfterPair.imp {op : Half → OpCode} {h : Half} {P Q Q' : MachineState → Prop}
    (hp : m.AfterPair op h A r P Q) (hQ : ∀ m₂, Q m₂ → Q' m₂) : m.AfterPair op h A r P Q' := by
  intro hn hP
  obtain ⟨m₁, hone, hrest⟩ := hp hn hP
  refine ⟨m₁, hone, fun n m₁' hint hn' hP' => ?_⟩
  obtain ⟨m₂, hone', hQm⟩ := hrest n m₁' hint hn' hP'
  exact ⟨m₂, hone', hQ m₂ hQm⟩

/-- **Unaligned words.** At every address whose four bytes may be written, in either order and with
interrupts in between: a load pair yields the little-endian word of the four bytes; a store pair
sets the four bytes to those of the register and no others; and a load pair behind it yields what
was stored. -/
theorem unaligned_pairs (m : MachineState) (hb : m.Boundary) (A : BitVec 32) (x : ℕ → ℕ)
    (hx : MapsWord m.tables A x) (r : ℕ) (hr : r ≠ 0) (h : Half) :
    (m.AfterPair Half.loadOp h A r (fun _ => True) fun m₂ =>
      m₂.Yields r (BitVec.ofNat 32 (wordOfBytes fun j => m.mainMemory (x j)))) ∧
    ∀ v, m.AfterPair Half.storeOp h A r (fun m' => m'.at r = v) fun m₂ =>
      (∀ j < 4, m₂.mainMemory (x j) = wordByte v.toNat j) ∧
      (∀ p, (∀ j < 4, p ≠ x j) → m₂.mainMemory p = m.mainMemory p) ∧
      ∀ n m₂', interrupts n m₂ = .ok () m₂' → ∀ q, q ≠ 0 → ∀ h' : Half,
        m₂'.AfterPair Half.loadOp h' A q (fun _ => True) fun m₄ => m₄.Yields q v := by
  refine ⟨afterPair_load hb hx hr h, fun v => (afterPair_store hb hx h v).imp ?_⟩
  rintro m₂ ⟨hb₂, hx₂, hstored⟩
  refine ⟨fun j hj => hstored.part j hj trivial, fun p hp => hstored.frame p fun j hj _ => hp j hj,
    fun n m₂' hint q hq h' => ?_⟩
  obtain ⟨hb₂', htab', hmem', -⟩ := interrupts_spec hb₂ hint
  have hload := afterPair_load hb₂' (htab' ▸ hx₂) hq h'
  have hword : v = BitVec.ofNat 32 (wordOfBytes fun j => m₂'.mainMemory (x j)) := by
    refine eq_ofNat_wordOfBytes fun j hj => ?_
    rw [hmem', hstored.part j hj trivial]
  rwa [← hword] at hload

end Pairs

/-- `lwr $2, 9($0)` and `lwl $2, 12($0)` on a page with the bytes `0x11` to `0x44` from address 9
on. -/
def loadNine : MachineState := onePage [0x98020009, 0x8802000C, 0x33221100, 0x77665544]

/-- What is executed next, if an instruction has raised no exception. -/
def fetchedAfter (r : EStateM.Result Trap MachineState (Option ExceptionType)) :
    Option (Option Instruction × BitVec 32) :=
  match r with
  | .ok none m => some (m.fetched, m.at 0)
  | _ => none

/-- The pair of `loadNine` loads `0x44332211`. -/
theorem unaligned_pairs_loadNine : ∃ m₁ m₂, oneInstruction loadNine = .ok none m₁ ∧
    oneInstruction m₁ = .ok none m₂ ∧ m₂.Yields 2 0x44332211 := by
  have hb : loadNine.Boundary := ⟨by decide, by decide⟩
  have hx : MapsWord loadNine.tables 9 fun j => 9 + j := by
    intro j hj
    obtain rfl | rfl | rfl | rfl : j = 0 ∨ j = 1 ∨ j = 2 ∨ j = 3 := by omega
    all_goals exact ⟨_, rfl⟩
  have hnext : loadNine.Next .lwr 2 9 :=
    ⟨⟨.lwr, 0, 2, 0, 9⟩, by decide +kernel, rfl, rfl, by decide, by decide⟩
  obtain ⟨m₁, hone, hrest⟩ :=
    (unaligned_pairs loadNine hb 9 _ hx 2 (by decide) .right).1 hnext trivial
  have hobs : fetchedAfter (oneInstruction loadNine) = some (some ⟨.lwl, 0, 2, 0, 12⟩, 0) := by
    decide +kernel
  simp only [fetchedAfter, hone, Option.some.injEq, Prod.mk.injEq] at hobs
  have hnext' : m₁.Next .lwl 2 12 :=
    ⟨⟨.lwl, 0, 2, 0, 12⟩, hobs.1, rfl, rfl, by decide, by simp only [hobs.2]; decide⟩
  obtain ⟨m₂, hone', hyields⟩ := hrest 0 m₁ rfl hnext' trivial
  have hword : BitVec.ofNat 32 (wordOfBytes fun j => loadNine.mainMemory (9 + j)) = 0x44332211 := by
    decide +kernel
  exact ⟨m₁, m₂, hone, hone', hword ▸ hyields⟩

end Nachos.Machine
