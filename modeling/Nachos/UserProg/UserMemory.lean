import Mathlib.Data.List.Perm.Subperm
import Nachos.UserProg.Exception
import Nachos.UserProg.Isolation

namespace Nachos.UserProg

open Base Machine UserProg.Exception Function

/-!
# UserProg — user memory as the kernel copies it

A user program sees its memory as bytes at virtual addresses. `PageMap.byteAt` is this view, through
the frames of the installed page table, no two of which are the same
(`MemState.Inv.exists_pageMap`). The kernel reaches user memory with `ReadMem` and `WriteMem` only,
one byte at a time:

* `load_byte`, `store_byte` — one access: a byte of the view is read, or one is replaced;
* `copyIn_spec` — the loop of `User2System`, which stops at the first NUL;
* `copyOut_spec` — the loop of `System2User`, which stops behind the first NUL;
* `user2System_spec`, `increasePC_spec` — the beginning and the end of a call with a buffer.
-/

/-! ### The view through a page table -/

/-- The frames of an address space, by virtual page. -/
structure PageMap where
  frames : List ℕ
  nodup : frames.Nodup
  lt : ∀ f ∈ frames, f < numPhysPages

namespace PageMap

variable (l : PageMap)

/-- The physical address of a virtual one. -/
def physAddr (v : ℕ) : Option ℕ :=
  l.frames[v / pageSize]?.map fun f => f * pageSize + v % pageSize

/-- The user byte at the virtual address `v`; `none` behind the last page. -/
def byteAt (m : MachineState) (v : ℕ) : Option UInt8 := (l.physAddr v).map m.mainMemory

/-- The user bytes from the virtual address `v` on. -/
def bytesFrom (m : MachineState) (v i : ℕ) : Option UInt8 := l.byteAt m (v + i)

/-- The machine translates through these frames. -/
def Installed (m : MachineState) : Prop :=
  ∃ table, m.tables = ⟨none, some table, l.frames.length⟩ ∧
    table.map TranslationEntry.pageFrame = l.frames

variable {l} {m : MachineState}

theorem length_frames_le : l.frames.length ≤ numPhysPages := by
  have hsub : l.frames ⊆ List.range numPhysPages := fun f hf => List.mem_range.mpr (l.lt f hf)
  have hle := (l.nodup.subperm hsub).length_le
  rwa [List.length_range] at hle

/-- Different virtual addresses have different physical ones. -/
theorem physAddr_inj {v w x : ℕ} (hv : l.physAddr v = some x) (hw : l.physAddr w = some x) :
    v = w := by
  obtain ⟨f, hf, hx⟩ := Option.map_eq_some_iff.mp hv
  obtain ⟨g, hg, hy⟩ := Option.map_eq_some_iff.mp hw
  have hv' := Nat.mod_lt v (show 0 < pageSize by decide)
  have hw' := Nat.mod_lt w (show 0 < pageSize by decide)
  have hfg : f = g := by
    unfold pageSize at *
    omega
  have hpage : v / pageSize = w / pageSize := by
    apply (List.getElem?_inj (List.getElem?_eq_some_iff.mp hf).1 l.nodup).mp
    rw [hf, hg, hfg]
  subst hfg
  have hoffset : v % pageSize = w % pageSize := by omega
  rw [← Nat.div_add_mod v pageSize, ← Nat.div_add_mod w pageSize, hpage, hoffset]

/-- There are no user bytes above the size of physical memory. -/
theorem lt_of_byteAt {v : ℕ} {b : UInt8} (h : l.byteAt m v = some b) : v < memorySize := by
  obtain ⟨x, hx, -⟩ := Option.map_eq_some_iff.mp h
  obtain ⟨f, hf, -⟩ := Option.map_eq_some_iff.mp hx
  have hpage := (List.getElem?_eq_some_iff.mp hf).1
  have hle := l.length_frames_le
  unfold memorySize
  unfold pageSize at hpage ⊢
  omega

theorem toNat_succ {addr : BitVec 32} {b : UInt8} (h : l.byteAt m addr.toNat = some b) :
    (addr + 1).toNat = addr.toNat + 1 := by
  have hlt : addr.toNat < 16384 := lt_of_byteAt h
  bv_omega

/-- A translation goes to the physical address of the map and sets bits of the table. -/
theorem Installed.translate (hl : l.Installed m) {addr : BitVec 32} {size : ℕ} {writing : Bool}
    {x : ℕ} {tables : Tables} (h : Machine.translate m.tables addr size writing =
      some (.ok (x, tables))) :
    l.physAddr addr.toNat = some x ∧
      ∀ mem : ℕ → UInt8, l.Installed { m with mainMemory := mem, tables := tables } := by
  obtain ⟨table, htables, hframes⟩ := hl
  rw [htables] at h
  obtain ⟨-, _, e, ⟨⟩, he, -, rfl, rfl⟩ := translate_eq_ok h
  constructor
  · unfold physAddr
    rw [← hframes, List.getElem?_map, he]
    rfl
  · intro mem
    refine ⟨_, rfl, ?_⟩
    rw [← hframes]
    exact AddrSpace.frames_touch (a := ⟨some table, l.frames.length⟩) rfl he writing

end PageMap

/-- The installed page table of a live address space is a map: its frames are its own, and held
once. -/
theorem MemState.Inv.exists_pageMap {P : Type*} [DecidableEq P] {s : MemState P} (h : s.Inv) {p : P}
    (hp : s.pageTable = .table p) :
    ∃ l : PageMap, l.frames = (s.space p).frames ∧
      ∀ m : MachineState, s.tables = some m.tables → l.Installed m := by
  obtain ⟨hlive, hsome, hsize⟩ := h.installed p hp
  obtain ⟨table, htable⟩ := Option.ne_none_iff_exists'.mp hsome
  have hwf := h.wellFormed p hlive
  have hentries : (s.space p).entries = table := by
    unfold AddrSpace.entries
    rw [htable]
    rfl
  -- The frames of the address space differ because it owns each of them once.
  refine ⟨⟨(s.space p).frames, h.owned.nodup p hlive, fun f hf => ?_⟩, rfl, fun m hm => ?_⟩
  · obtain ⟨e, he, rfl⟩ := List.mem_map.mp hf
    exact hwf.pageFrame_lt e he
  · have htables : s.tables = some ⟨none, some table, (s.space p).numPages⟩ := by
      unfold MemState.tables
      rw [hp]
      show some (Tables.mk none (s.space p).pageTable s.pageTableSize) = _
      rw [htable, hsize]
    refine ⟨table, ?_, congrArg (List.map TranslationEntry.pageFrame) hentries.symm⟩
    rw [htables] at hm
    rw [← Option.some.inj hm, ← hwf.length_entries]
    show _ = Tables.mk none _ (List.map TranslationEntry.pageFrame _).length
    rw [List.length_map]

/-! ### One access -/

/-- A byte survives the sign extension of `ReadMem`. -/
theorem ofNat_signed (b : UInt8) :
    UInt8.ofNat (BitVec.ofInt 32 (Int.bmod b.toNat 256)).toNat = b := by
  apply UInt8.toNat_inj.mp
  have hlt := b.toNat_lt
  rw [UInt8.toNat_ofNat', BitVec.toNat_ofInt, Int.bmod]
  split <;> omega

/-- The byte that `WriteMem` stores for a character. -/
theorem intByte_ofNat (b : UInt8) : intByte (BitVec.ofNat 32 b.toNat).toInt 0 = b := by
  apply UInt8.toNat_inj.mp
  have hlt := b.toNat_lt
  have hint : (BitVec.ofNat 32 b.toNat).toInt = b.toNat := by
    have hnat : (BitVec.ofNat 32 b.toNat).toNat = b.toNat := by
      rw [BitVec.toNat_ofNat]
      omega
    rw [BitVec.toInt_eq_toNat_of_lt (by omega), hnat]
  rw [hint]
  unfold intByte wordByte
  rw [UInt8.toNat_ofNat']
  omega

section Access

variable {K : Type} {l : PageMap} {s s' : CallState K}

/-- The kernel has reached user memory and nothing else: the user bytes are now `view`. -/
structure PageMap.Leaves (l : PageMap) (s s' : CallState K) (view : ℕ → Option UInt8) : Prop where
  kernel : s'.kernel = s.kernel
  registers : s'.machine.registers = s.machine.registers
  installed : l.Installed s'.machine
  byteAt : l.byteAt s'.machine = view

theorem PageMap.Leaves.at_eq {view : ℕ → Option UInt8} (h : l.Leaves s s' view) (i : ℕ) :
    s'.at i = s.at i :=
  congrArg (fun regs : Registers => regs[i]?.getD 0) h.registers

theorem load_byte (hl : l.Installed s.machine) {addr v : BitVec 32}
    (h : onMachine (load addr 1) s = .ok v s') :
    (∃ b, l.byteAt s.machine addr.toNat = some b ∧ (v = 0 ↔ b = 0) ∧ UInt8.ofNat v.toNat = b) ∧
      l.Leaves s s' (l.byteAt s.machine) := by
  unfold onMachine load at h
  cases hread : readMem s.machine.tables s.machine.mainMemory addr 1 with
  | none => simp only [hread] at h; cases h
  | some r =>
    cases r with
    | error e => simp only [hread] at h; cases h
    | ok r =>
      simp only [hread, EStateM.Result.ok.injEq] at h
      obtain ⟨rfl, rfl⟩ := h
      obtain ⟨x, htr, hv⟩ := readMem_byte hread
      obtain ⟨hx, hinst⟩ := hl.translate htr
      have hsigned := ofNat_signed (s.machine.mainMemory x)
      rw [hv]
      refine ⟨⟨s.machine.mainMemory x, ?_, ⟨fun h0 => ?_, fun h0 => ?_⟩, hsigned⟩,
        rfl, rfl, hinst _, rfl⟩
      · unfold PageMap.byteAt
        rw [hx]
        rfl
      · rw [h0] at hsigned
        exact hsigned.symm
      · rw [h0]
        decide

/-- `WriteMem` of one byte. No other virtual address has the same physical one. -/
theorem store_byte (hl : l.Installed s.machine) {addr : BitVec 32} {c : UInt8}
    (h : onMachine (store addr 1 (BitVec.ofNat 32 c.toNat)) s = .ok () s') :
    (∃ b, l.byteAt s.machine addr.toNat = some b) ∧
      l.Leaves s s' (update (l.byteAt s.machine) addr.toNat (some c)) := by
  unfold onMachine store at h
  cases hwrite : writeMem s.machine.tables s.machine.mainMemory addr 1
      (BitVec.ofNat 32 c.toNat).toInt with
  | none => simp only [hwrite] at h; cases h
  | some r =>
    cases r with
    | error e => simp only [hwrite] at h; cases h
    | ok r =>
      simp only [hwrite, EStateM.Result.ok.injEq] at h
      obtain ⟨-, rfl⟩ := h
      obtain ⟨x, htr, hmem⟩ := writeMem_byte hwrite
      obtain ⟨hx, hinst⟩ := hl.translate htr
      rw [intByte_ofNat] at hmem
      have hbyte : l.byteAt s.machine addr.toNat = some (s.machine.mainMemory x) := by
        unfold PageMap.byteAt
        rw [hx]
        rfl
      refine ⟨⟨_, hbyte⟩, rfl, rfl, hinst _, funext fun v => ?_⟩
      show (l.physAddr v).map r.1 = _
      rw [hmem]
      by_cases hv : v = addr.toNat
      · rw [hv, update_self, hx, Option.map_some, update_self]
      · rw [update_of_ne hv]
        unfold PageMap.byteAt
        apply Option.map_congr
        rintro y hy
        refine update_of_ne ?_ _ _
        rintro rfl
        exact hv (PageMap.physAddr_inj hy hx)

/-! ### The two loops -/

/-- `str` is what stands in front of the first NUL of `bytes`, or the first `n` bytes. -/
structure ReadsString (bytes : ℕ → Option UInt8) (n : ℕ) (str : List UInt8) : Prop where
  bytes_eq : ∀ i < str.length, bytes i = str[i]?
  ne_zero : 0 ∉ str
  stops : str.length = n ∨ str.length < n ∧ bytes str.length = some 0

section ReadsString

variable {bytes : ℕ → Option UInt8} {n : ℕ} {str rest : List UInt8} {c : UInt8}

theorem readsString_zero : ReadsString bytes 0 str ↔ str = [] := by
  constructor
  · intro h
    rcases h.stops with hlen | ⟨hlt, -⟩
    · exact List.eq_nil_of_length_eq_zero hlen
    · exact absurd hlt (Nat.not_lt_zero _)
  · rintro rfl
    exact ⟨fun i hi => absurd hi (Nat.not_lt_zero i), List.not_mem_nil, .inl rfl⟩

theorem readsString_nil : ReadsString bytes (n + 1) [] ↔ bytes 0 = some 0 := by
  constructor
  · intro h
    rcases h.stops with hlen | ⟨-, hstop⟩
    · cases hlen
    · exact hstop
  · intro h
    exact ⟨fun i hi => absurd hi (Nat.not_lt_zero i), List.not_mem_nil, .inr ⟨Nat.succ_pos n, h⟩⟩

/-- One byte, and the string behind it. -/
theorem readsString_cons : ReadsString bytes (n + 1) (c :: rest) ↔
    bytes 0 = some c ∧ c ≠ 0 ∧ ReadsString (fun i => bytes (i + 1)) n rest := by
  constructor
  · intro h
    refine ⟨h.bytes_eq 0 (Nat.succ_pos _), ?_, fun i hi => h.bytes_eq (i + 1) (Nat.succ_lt_succ hi),
      fun hmem => h.ne_zero (List.mem_cons_of_mem c hmem), ?_⟩
    · rintro rfl
      exact h.ne_zero List.mem_cons_self
    · refine h.stops.imp Nat.succ.inj ?_
      rintro ⟨hlt, hstop⟩
      exact ⟨Nat.lt_of_succ_lt_succ hlt, hstop⟩
  · rintro ⟨hc, hne, hrest⟩
    refine ⟨fun i hi => ?_, ?_, ?_⟩
    · cases i with
      | zero => exact hc
      | succ i => exact hrest.bytes_eq i (Nat.lt_of_succ_lt_succ hi)
    · rw [List.mem_cons, not_or]
      exact ⟨hne.symm, hrest.ne_zero⟩
    · refine hrest.stops.imp (congrArg (· + 1)) ?_
      rintro ⟨hlt, hstop⟩
      exact ⟨Nat.succ_lt_succ hlt, hstop⟩

end ReadsString

/-- **The loop of `User2System`.** -/
theorem copyIn_spec (hl : l.Installed s.machine) {virtAddr : BitVec 32} {n : ℕ} {str : List UInt8}
    (h : copyIn virtAddr n s = .ok str s') :
    ReadsString (l.bytesFrom s.machine virtAddr.toNat) n str ∧
      l.Leaves s s' (l.byteAt s.machine) := by
  -- A round reads one byte, and the rest of the loop starts at the next address.
  induction n generalizing virtAddr str s with
  | zero =>
    cases h
    exact ⟨readsString_zero.mpr rfl, rfl, rfl, hl, rfl⟩
  | succ n ih =>
    obtain ⟨oneChar, s₁, hload, h⟩ := bind_eq_ok h
    obtain ⟨⟨b, hb, hzero, hchar⟩, hs₁⟩ := load_byte hl hload
    by_cases h0 : oneChar = 0
    · rw [if_pos h0] at h
      cases h
      refine ⟨readsString_nil.mpr ?_, hs₁⟩
      rw [← hzero.mp h0]
      exact hb
    · rw [if_neg h0] at h
      obtain ⟨rest, s₂, hrest, h⟩ := bind_eq_ok h
      cases h
      obtain ⟨hread, hs₂⟩ := ih hs₁.installed hrest
      have hnext : l.bytesFrom s₁.machine (virtAddr + 1).toNat
          = fun i => l.bytesFrom s.machine virtAddr.toNat (i + 1) := by
        funext i
        unfold PageMap.bytesFrom
        rw [hs₁.byteAt, PageMap.toNat_succ hb, Nat.add_right_comm, Nat.add_assoc]
      rw [hs₁.byteAt] at hs₂
      rw [hnext] at hread
      rw [hchar]
      refine ⟨readsString_cons.mpr ⟨hb, fun hb0 => h0 (hzero.mpr hb0), hread⟩,
        hs₂.kernel.trans hs₁.kernel, hs₂.registers.trans hs₁.registers, hs₂.installed, hs₂.byteAt⟩

/-- The bytes that the loop of `System2User` writes: up to the first NUL of the buffer, with it, and
at most `n`. -/
def writtenFrom (virtAddr n : ℕ) (buffer : List UInt8) (bytes : ℕ → Option UInt8) :
    ℕ → Option UInt8 := fun v =>
  if virtAddr ≤ v ∧ v - virtAddr < n ∧ v - virtAddr ≤ (buffer.takeWhile (· ≠ 0)).length then
    some (buffer.getD (v - virtAddr) 0)
  else bytes v

theorem writtenFrom_add (virtAddr n : ℕ) (buffer : List UInt8) (bytes : ℕ → Option UInt8) (i : ℕ) :
    writtenFrom virtAddr n buffer bytes (virtAddr + i) =
      if i < n ∧ i ≤ (buffer.takeWhile (· ≠ 0)).length then some (buffer.getD i 0)
      else bytes (virtAddr + i) := by
  unfold writtenFrom
  rw [Nat.add_sub_cancel_left]
  simp only [Nat.le_add_right, true_and]

theorem writtenFrom_succ (virtAddr n : ℕ) (buffer : List UInt8) (bytes : ℕ → Option UInt8) :
    writtenFrom virtAddr (n + 1) buffer bytes =
      if buffer.headD 0 = 0 then update bytes virtAddr (some 0)
      else writtenFrom (virtAddr + 1) n buffer.tail
        (update bytes virtAddr (some (buffer.headD 0))) := by
  funext v
  have hlen : (buffer.takeWhile (· ≠ 0)).length =
      if buffer.headD 0 = 0 then 0 else (buffer.tail.takeWhile (· ≠ 0)).length + 1 := by
    cases buffer with
    | nil => rfl
    | cons c rest =>
      by_cases h0 : c = 0
      · simp [h0]
      · simp [h0]
  have hget : ∀ i, buffer.getD (i + 1) 0 = buffer.tail.getD i 0 := by
    intro i
    cases buffer <;> rfl
  have hhead : buffer.getD 0 0 = buffer.headD 0 := by
    cases buffer <;> rfl
  unfold writtenFrom
  rw [hlen]
  -- The round writes at `virtAddr`; the other addresses are left to the rest of the loop.
  by_cases hv : v = virtAddr
  · subst hv
    rw [if_pos (by omega), Nat.sub_self, hhead]
    by_cases h0 : buffer.headD 0 = 0
    · rw [if_pos h0, h0, update_self]
    · rw [if_neg h0, if_neg (by omega), update_self]
  · by_cases h0 : buffer.headD 0 = 0
    · rw [if_pos h0, if_pos h0, if_neg (by omega), update_of_ne hv]
    · rw [if_neg h0, if_neg h0, update_of_ne hv]
      by_cases hlt : virtAddr < v
      · have hsub : v - virtAddr = v - (virtAddr + 1) + 1 := by omega
        rw [hsub, hget]
        congr 1
        simp only [eq_iff_iff]
        omega
      · rw [if_neg (by omega), if_neg (by omega)]

/-- **The loop of `System2User`.** -/
theorem copyOut_spec (hl : l.Installed s.machine) {virtAddr : BitVec 32} {n : ℕ}
    {buffer : List UInt8} (h : copyOut virtAddr n buffer s = .ok () s') :
    l.Leaves s s' (writtenFrom virtAddr.toNat n buffer (l.byteAt s.machine)) := by
  -- The first round changes the view at `virtAddr`, the others continue from that view.
  induction n generalizing virtAddr buffer s with
  | zero =>
    cases h
    refine ⟨rfl, rfl, hl, funext fun v => ?_⟩
    exact (if_neg fun hv => Nat.not_lt_zero _ hv.2.1).symm
  | succ n ih =>
    obtain ⟨_, s₁, hstore, h⟩ := bind_eq_ok h
    obtain ⟨⟨b, hb⟩, hs₁⟩ := store_byte hl hstore
    rw [writtenFrom_succ]
    by_cases h0 : buffer.headD 0 = 0
    · rw [if_pos h0] at h ⊢
      cases h
      rw [h0] at hs₁
      exact hs₁
    · rw [if_neg h0] at h ⊢
      have hs₂ := ih hs₁.installed h
      rw [PageMap.toNat_succ hb, hs₁.byteAt] at hs₂
      exact ⟨hs₂.kernel.trans hs₁.kernel, hs₂.registers.trans hs₁.registers, hs₂.installed,
        hs₂.byteAt⟩

/-! ### Around the loops -/

variable {S : Services K}

/-- The copy that `User2System` makes. -/
theorem user2System_copied (hl : l.Installed s.machine) {virtAddr : BitVec 32} {limit : Int}
    {str : List UInt8} (h : user2System S virtAddr limit s = .ok str s') :
    ReadsString (l.bytesFrom s.machine virtAddr.toNat) limit.toNat str ∧
      l.Leaves s s' (l.byteAt s.machine) := by
  obtain ⟨_, s₁, halloc, hcopy⟩ := bind_eq_ok h
  unfold allocate at halloc
  split at halloc
  · cases halloc
  · cases halloc
    exact copyIn_spec hl hcopy

/-- `User2System` of a buffer that could be allocated. -/
theorem user2System_spec (hl : l.Installed s.machine) {virtAddr size : BitVec 32} {str : List UInt8}
    (h : user2System S virtAddr size.toInt s = .ok str s') :
    size.toInt + 1 ≤ maxInt ∧
      ReadsString (l.bytesFrom s.machine virtAddr.toNat) size.toInt.toNat str ∧
      l.Leaves s s' (l.byteAt s.machine) :=
  ⟨(fits_of_user2System h).2.trans S.addresses, user2System_copied hl h⟩

theorem toInt_ofInt {x : Int} (hlo : minInt ≤ x) (hhi : x ≤ maxInt) :
    (BitVec.ofInt 32 x).toInt = x := by
  rw [BitVec.toInt_ofInt]
  exact wrap32_eq_self hlo hhi

/-- The end of the calls: the program counters move on. -/
theorem increasePC_spec (h : increasePC s = .ok () s') :
    s'.kernel = s.kernel ∧ s'.at 2 = s.at 2 ∧ l.byteAt s'.machine = l.byteAt s.machine := by
  rw [increasePC_ok] at h
  cases h
  refine ⟨rfl, ?_, rfl⟩
  simp [CallState.at_put, pcReg, nextPCReg, prevPCReg]

end Access

end Nachos.UserProg
