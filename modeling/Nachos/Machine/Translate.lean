import Nachos.Base.CInt

namespace Nachos.Machine

open Base Function

/-!
# Machine — address translation

`Machine::Translate`, `ReadMem` and `WriteMem` of `machine/translate.cc`. The machine finds a
virtual page either in a linear page table or in a software-loaded TLB; `Tables` holds the two
pointers and the size register. A result is `none` when a runtime check fails or the code
reads past a table, and otherwise an exception for the kernel or a value.

The results are two frame lemmas: `readMem_congr`, a read depends only on the bytes of the
frames named in the table, and `writeMem_frame`, a write changes bytes of one such frame only.
-/

/-- `PageSize`. -/
def pageSize : ℕ := 128

/-- `NumPhysPages`. -/
def numPhysPages : ℕ := 128

/-- `MemorySize`. -/
def memorySize : ℕ := numPhysPages * pageSize

/-- The exceptions the machine can raise, less `NoException`, which is a successful result. -/
inductive ExceptionType where
  | syscallException
  | pageFaultException
  | readOnlyException
  | busErrorException
  | addressErrorException
  | overflowException
  | illegalInstrException
  deriving DecidableEq

/-- `TranslationEntry`: one virtual page of a page table or a TLB. -/
structure TranslationEntry where
  virtualPage : Int
  physicalPage : Int
  valid : Bool
  readOnly : Bool
  use : Bool
  dirty : Bool
  deriving DecidableEq

namespace TranslationEntry

/-- `pageFrame`: the physical page as an `unsigned int`. -/
def pageFrame (e : TranslationEntry) : ℕ := (e.physicalPage % 4294967296).toNat

/-- Set the use and dirty bits. -/
def touch (e : TranslationEntry) (writing : Bool) : TranslationEntry :=
  { e with use := true, dirty := e.dirty || writing }

end TranslationEntry

/-- The translation registers of the machine. -/
structure Tables where
  tlb : Option (List TranslationEntry)
  pageTable : Option (List TranslationEntry)
  pageTableSize : ℕ

/-- The alignment test at the head of `Translate`. -/
def misaligned (virtAddr : BitVec 32) (size : ℕ) : Bool :=
  (size == 4 && virtAddr &&& 3#32 != 0) || (size == 2 && virtAddr &&& 1#32 != 0)

/-- The second half of `Translate`, once the entry is found: the protection and frame checks,
the use and dirty bits, and the physical address. `put` stores the entry back. -/
def translateEntry (e : TranslationEntry) (offset size : ℕ) (writing : Bool)
    (put : TranslationEntry → Tables) : Option (Except ExceptionType (ℕ × Tables)) :=
  if e.readOnly && writing then some (.error .readOnlyException)
  else if e.pageFrame ≥ numPhysPages then some (.error .busErrorException)
  else
    let physAddr := e.pageFrame * pageSize + offset
    -- `ASSERT((*physAddr >= 0) && ((*physAddr + size) <= MemorySize))`
    if physAddr + size ≤ memorySize then some (.ok (physAddr, put (e.touch writing))) else none

/-- `Machine::Translate`. -/
def translate (m : Tables) (virtAddr : BitVec 32) (size : ℕ) (writing : Bool) :
    Option (Except ExceptionType (ℕ × Tables)) :=
  if misaligned virtAddr size then some (.error .addressErrorException)
  else
    let vpn := virtAddr.toNat / pageSize
    let offset := virtAddr.toNat % pageSize
    match m.tlb, m.pageTable with
    | none, some table =>
      if vpn ≥ m.pageTableSize then some (.error .addressErrorException)
      else
        match table[vpn]? with
        | none => none
        | some e =>
          if e.valid then
            translateEntry e offset size writing fun e' =>
              { m with pageTable := some (table.set vpn e') }
          else some (.error .pageFaultException)
    | some tlb, none =>
      match tlb.findIdx? fun e => e.valid && e.virtualPage == (vpn : Int) with
      | none => some (.error .pageFaultException)
      | some i =>
        match tlb[i]? with
        | none => none
        | some e =>
          translateEntry e offset size writing fun e' => { m with tlb := some (tlb.set i e') }
    -- Neither or both: the two assertions.
    | _, _ => none

/-- `Machine::ReadMem`: sizes 1 (a signed `char`), 2 (an `unsigned short`) and 4. -/
def readMem (m : Tables) (mainMemory : ℕ → UInt8) (addr : BitVec 32) (size : ℕ) :
    Option (Except ExceptionType (Int × Tables)) :=
  match translate m addr size false with
  | none => none
  | some (.error e) => some (.error e)
  | some (.ok (physAddr, m')) =>
    match size with
    | 1 => some (.ok (Int.bmod (mainMemory physAddr).toNat 256, m'))
    | 2 =>
      some (.ok (((mainMemory physAddr).toNat + 256 * (mainMemory (physAddr + 1)).toNat : ℕ), m'))
    | 4 => some (.ok (intOfBytes fun j => mainMemory (physAddr + j), m'))
    | _ => none

/-- Store the low `size` bytes of a value, least significant first. -/
def storeBytes (mainMemory : ℕ → UInt8) (physAddr size : ℕ) (value : Int) : ℕ → UInt8 :=
  fun a =>
    if physAddr ≤ a ∧ a < physAddr + size then intByte value (a - physAddr) else mainMemory a

/-- `Machine::WriteMem`. -/
def writeMem (m : Tables) (mainMemory : ℕ → UInt8) (addr : BitVec 32) (size : ℕ) (value : Int) :
    Option (Except ExceptionType ((ℕ → UInt8) × Tables)) :=
  match translate m addr size true with
  | none => none
  | some (.error e) => some (.error e)
  | some (.ok (physAddr, m')) =>
    if size = 1 ∨ size = 2 ∨ size = 4 then
      some (.ok (storeBytes mainMemory physAddr size value, m'))
    else none

/-! ### What a translation through a page table does -/

variable {size n x : ℕ} {addr : BitVec 32} {writing : Bool} {m m' : Tables} {mem mem' : ℕ → UInt8}
  {table : Option (List TranslationEntry)} {v value : Int}

/-- An aligned access of 1, 2 or 4 bytes does not leave its page. -/
theorem offset_add_size_le {virtAddr : BitVec 32}
    (hsize : size = 1 ∨ size = 2 ∨ size = 4) (h : misaligned virtAddr size = false) :
    virtAddr.toNat % pageSize + size ≤ pageSize := by
  have hmask : ∀ k, k = 1 ∨ k = 2 → (virtAddr &&& BitVec.ofNat 32 (2 ^ k - 1)) = 0 →
      virtAddr.toNat % 2 ^ k = 0 := by
    intro k hk h0
    have hnat := congrArg BitVec.toNat h0
    rcases hk with rfl | rfl <;>
      simpa [BitVec.toNat_and, Nat.and_two_pow_sub_one_eq_mod _ 1,
        Nat.and_two_pow_sub_one_eq_mod _ 2] using hnat
  unfold misaligned at h
  unfold pageSize
  rcases hsize with rfl | rfl | rfl
  · omega
  · have h0 := hmask 1 (.inl rfl) (by simpa using h)
    omega
  · have h0 := hmask 2 (.inr rfl) (by simpa using h)
    omega

theorem translateEntry_eq_ok {e : TranslationEntry} {offset : ℕ} {put : TranslationEntry → Tables} :
    translateEntry e offset size writing put = some (.ok (x, m')) ↔
      (e.readOnly && writing) = false ∧ e.pageFrame < numPhysPages ∧
        x = e.pageFrame * pageSize + offset ∧ x + size ≤ memorySize ∧
        m' = put (e.touch writing) := by
  unfold translateEntry
  constructor
  · intro h
    split at h
    · cases h
    · rename_i hro
      split at h
      · cases h
      · rename_i hframe
        simp only at h
        split at h
        · rename_i hin
          cases h
          exact ⟨by simpa using hro, by omega, rfl, hin, rfl⟩
        · cases h
  · rintro ⟨hro, hframe, rfl, hin, rfl⟩
    rw [if_neg (by simpa using hro), if_neg (by omega)]
    simp only [if_pos hin]

/-- A successful translation through a page table: the entry of the virtual page, which is
valid and names an existing frame, gives the address and has its bits set. -/
theorem translate_eq_ok (h : translate ⟨none, table, n⟩ addr size writing = some (.ok (x, m'))) :
    misaligned addr size = false ∧ ∃ t e, table = some t ∧ t[addr.toNat / pageSize]? = some e ∧
      e.pageFrame < numPhysPages ∧ x = e.pageFrame * pageSize + addr.toNat % pageSize ∧
      m' = ⟨none, some (t.set (addr.toNat / pageSize) (e.touch writing)), n⟩ := by
  unfold translate at h
  split at h
  · cases h
  · rename_i hal
    refine ⟨by simpa using hal, ?_⟩
    cases table with
    | none => cases h
    | some t =>
      simp only at h
      split at h
      · cases h
      · split at h
        · cases h
        · rename_i e he
          split at h
          · obtain ⟨-, hframe, hx, -, hm'⟩ := translateEntry_eq_ok.mp h
            exact ⟨t, e, rfl, he, hframe, hx, hm'⟩
          · cases h

/-- A read that succeeds has been translated. -/
theorem translate_of_readMem (h : readMem m mem addr size = some (.ok (v, m'))) :
    ∃ x, translate m addr size false = some (.ok (x, m')) := by
  unfold readMem at h
  split at h
  · cases h
  · cases h
  · rename_i x m'' htr
    refine ⟨x, htr.trans ?_⟩
    -- The three sizes of the switch differ in the value only.
    split at h
    all_goals simp only [Option.some.injEq, Except.ok.injEq, Prod.mk.injEq, reduceCtorEq] at h
    all_goals rw [h.2]

/-- A write that succeeds has been translated, and stores the bytes. -/
theorem writeMem_eq_ok (h : writeMem m mem addr size value = some (.ok (mem', m'))) :
    (size = 1 ∨ size = 2 ∨ size = 4) ∧ ∃ x, translate m addr size true = some (.ok (x, m')) ∧
      mem' = storeBytes mem x size value := by
  unfold writeMem at h
  split at h
  · cases h
  · cases h
  · rename_i x m'' htr
    split at h
    · rename_i hsize
      cases h
      exact ⟨hsize, x, htr, rfl⟩
    · cases h

/-- A byte is read from its physical address, as a signed number. -/
theorem readMem_byte (h : readMem m mem addr 1 = some (.ok (v, m'))) :
    ∃ x, translate m addr 1 false = some (.ok (x, m')) ∧ v = Int.bmod (mem x).toNat 256 := by
  obtain ⟨x, htr⟩ := translate_of_readMem h
  rw [readMem, htr] at h
  simp only [Option.some.injEq, Except.ok.injEq, Prod.mk.injEq, and_true] at h
  exact ⟨x, htr, h.symm⟩

/-- A byte is written to its physical address. -/
theorem writeMem_byte (h : writeMem m mem addr 1 value = some (.ok (mem', m'))) :
    ∃ x, translate m addr 1 true = some (.ok (x, m')) ∧
      mem' = update mem x (intByte value 0) := by
  obtain ⟨-, x, htr, rfl⟩ := writeMem_eq_ok h
  refine ⟨x, htr, funext fun a => ?_⟩
  unfold storeBytes
  by_cases ha : a = x
  · rw [ha, if_pos (by omega), Nat.sub_self, update_self]
  · rw [if_neg (by omega), update_of_ne ha]

/-- **Frame of a read.** What a read through a page table gives depends only on the bytes of
the frames named in the table. -/
theorem readMem_congr
    (hmem : ∀ e ∈ table.getD [], ∀ j < pageSize,
      mem (e.pageFrame * pageSize + j) = mem' (e.pageFrame * pageSize + j))
    (addr : BitVec 32) (size : ℕ) :
    readMem ⟨none, table, n⟩ mem addr size = readMem ⟨none, table, n⟩ mem' addr size := by
  unfold readMem
  cases htr : translate ⟨none, table, n⟩ addr size false with
  | none => rfl
  | some r =>
    match r, htr with
    | .error e, _ => rfl
    | .ok (physAddr, m'), htr =>
      obtain ⟨hal, t, e, rfl, he, -, rfl, -⟩ := translate_eq_ok htr
      have hbyte : ∀ j, addr.toNat % pageSize + j < pageSize →
          mem (e.pageFrame * pageSize + addr.toNat % pageSize + j)
            = mem' (e.pageFrame * pageSize + addr.toNat % pageSize + j) := by
        intro j hj
        rw [Nat.add_assoc]
        exact hmem e (List.mem_of_getElem? he) _ hj
      -- Only the three sizes of the switch read memory, and none of them leaves the page.
      by_cases h1 : size = 1
      · subst h1
        have hoff := offset_add_size_le (.inl rfl) hal
        have h0 := hbyte 0 (by omega)
        rw [Nat.add_zero] at h0
        simp only [h0]
      · by_cases h2 : size = 2
        · subst h2
          have hoff := offset_add_size_le (.inr (.inl rfl)) hal
          have h0 := hbyte 0 (by omega)
          rw [Nat.add_zero] at h0
          simp only [h0, hbyte 1 (by omega)]
        · by_cases h4 : size = 4
          · subst h4
            have hoff := offset_add_size_le (.inr (.inr rfl)) hal
            simp only [intOfBytes_congr fun j hj => hbyte j (by omega)]
          · simp only

/-- **Frame of a write.** A write through a page table stores into one frame named in the
table and only sets bits of that entry. -/
theorem writeMem_frame (h : writeMem ⟨none, table, n⟩ mem addr size value = some (.ok (mem', m'))) :
    ∃ t e, table = some t ∧ t[addr.toNat / pageSize]? = some e ∧
      m' = ⟨none, some (t.set (addr.toNat / pageSize) (e.touch true)), n⟩ ∧
      ∀ f, f ≠ e.pageFrame → ∀ j < pageSize,
        mem' (f * pageSize + j) = mem (f * pageSize + j) := by
  obtain ⟨hsize, x, htr, rfl⟩ := writeMem_eq_ok h
  obtain ⟨hal, t, e, ht, he, -, rfl, hm'⟩ := translate_eq_ok htr
  refine ⟨t, e, ht, he, hm', fun f hf j hj => ?_⟩
  have hoff := offset_add_size_le hsize hal
  unfold storeBytes
  rw [if_neg]
  -- Two different frames have no address in common.
  rintro ⟨hlo, hhi⟩
  unfold pageSize at *
  omega

end Nachos.Machine
