import Nachos.Lib.Bitmap
import Nachos.Machine.Translate

namespace Nachos.UserProg

open Base Lib Machine

/-!
# UserProg — `AddrSpace`

The loader of `userprog/addrspace.cc`: it reads the header of an executable, takes as many free
frames as the program has pages, fills them with zeros, and copies the code and the two data
segments into them. `load` is `AddrSpace::Load` on a fresh object, `destroy` the destructor.
A result `none` means that a runtime check failed, that an allocation got a negative size, or
that the code left a buffer or the page table.

* `load_cases` — a `Load` that fails leaves bitmap and memory alone; one that succeeds marks
  the frames of its page table, which were free and are distinct;
* `load_of_wellFormed` — on a well-formed executable `Load` returns;
* `destroy_eq_some` — the destructor clears the frames of the page table.
-/

/-! ### Executables -/

/-- The contents of a host file. -/
abbrev HostFile := List UInt8

/-- `OpenFile::ReadAt` on a host file: the bytes it delivers. `Lseek` asserts a non-negative
position; the host reads nothing for a negative count. -/
def HostFile.readAt (f : HostFile) (numBytes position : Int) : Option (List UInt8) :=
  if position < 0 then none else some ((f.drop position.toNat).take numBytes.toNat)

/-- `Segment` of a NOFF header. -/
structure Segment where
  virtualAddr : Int
  inFileAddr : Int
  size : Int
  deriving DecidableEq

/-- `NoffHeader`, with the read-only data segment of the `RDATA` build. -/
structure NoffHeader where
  noffMagic : Int
  code : Segment
  initData : Segment
  readonlyData : Segment
  uninitData : Segment
  deriving DecidableEq

/-- `NOFFMAGIC`. -/
def noffMagicNumber : Int := 0xbadfad

/-- `UserStackSize`. -/
def userStackSize : Int := 1024

/-- The three `int`s of a segment stored at `offset`. -/
def Segment.ofBytes (b : ℕ → UInt8) (offset : ℕ) : Segment where
  virtualAddr := intOfBytes fun j => b (offset + j)
  inFileAddr := intOfBytes fun j => b (offset + 4 + j)
  size := intOfBytes fun j => b (offset + 8 + j)

/-- The header stored in 52 bytes. -/
def NoffHeader.ofBytes (b : ℕ → UInt8) : NoffHeader where
  noffMagic := intOfBytes b
  code := .ofBytes b 4
  initData := .ofBytes b 16
  readonlyData := .ofBytes b 28
  uninitData := .ofBytes b 40

/-- The header `Load` reads: where the file is too short the bytes of the local variable stay
what they were. On a little-endian host `SwapHeader` changes nothing. -/
def HostFile.noffHeader (f : HostFile) (junk : ℕ → UInt8) : NoffHeader :=
  .ofBytes fun i => if i < 52 then (f[i]?).getD (junk i) else 0

namespace NoffHeader

variable (noffH : NoffHeader)

/-- `addressSpaceSize`. -/
def addressSpaceSize : Int :=
  wrap32 (noffH.code.size + noffH.readonlyData.size + noffH.initData.size +
    noffH.uninitData.size + userStackSize)

/-- `numPages`, an `unsigned int`. -/
def numPages : ℕ := (divRoundUp noffH.addressSpaceSize pageSize % 4294967296).toNat

/-- `actualSize`: the size of the load buffer. -/
def actualSize : Int :=
  wrap32 (noffH.code.size + noffH.initData.size + noffH.readonlyData.size)

/-- Read one segment into the load buffer, which it must not leave. -/
def loadSegment (file : HostFile) (buffer : List UInt8) (seg : Segment) : Option (List UInt8) :=
  if seg.size = 0 then some buffer
  else
    match file.readAt seg.size seg.inFileAddr with
    | none => none
    | some bytes =>
      -- A file that ends before the segment delivers fewer bytes, or none.
      if bytes = [] then some buffer
      else if 0 ≤ seg.virtualAddr ∧ seg.virtualAddr + bytes.length ≤ buffer.length then
        some (buffer.take seg.virtualAddr.toNat ++ bytes ++
          buffer.drop (seg.virtualAddr.toNat + bytes.length))
      else none

/-- The load buffer with the three segments in place. A negative size cannot be allocated. -/
def loadBuffer (file : HostFile) : Option (List UInt8) :=
  if noffH.actualSize < 0 then none
  else
    [noffH.code, noffH.readonlyData, noffH.initData].foldlM (loadSegment file)
      (List.replicate noffH.actualSize.toNat 0)

end NoffHeader

/-! ### The address space -/

/-- Physical memory and the bitmap of its frames. -/
structure PhysMem where
  mainMemory : ℕ → UInt8
  gPhysPageBitMap : Bitmap numPhysPages

/-- `AddrSpace`; the page table is a pointer that may be `NULL`. -/
structure AddrSpace where
  pageTable : Option (List TranslationEntry)
  numPages : ℕ

/-- `bzero` of one frame. -/
def zeroFrame (mem : ℕ → UInt8) (frame : ℕ) : ℕ → UInt8 :=
  fun a => if frame * pageSize ≤ a ∧ a < frame * pageSize + pageSize then 0 else mem a

/-- `memcpy` of a piece of the load buffer to the start of a frame. -/
def copyToFrame (mem : ℕ → UInt8) (frame : ℕ) (bytes : List UInt8) : ℕ → UInt8 :=
  fun a =>
    if frame * pageSize ≤ a ∧ a < frame * pageSize + bytes.length then
      bytes.getD (a - frame * pageSize) 0
    else mem a

/-- The copy loop: page `i` of the load buffer goes to the frame of page `i`, which must be in
the page table. The last page may be partial. -/
def copyPages (frames : List ℕ) (buffer : List UInt8) (mem : ℕ → UInt8) :
    Option (ℕ → UInt8) :=
  let pages := (buffer.length + pageSize - 1) / pageSize
  (List.range pages).foldlM
    (fun mem i =>
      match frames[i]? with
      | none => none
      | some frame => some (copyToFrame mem frame ((buffer.drop (i * pageSize)).take pageSize)))
    mem

namespace AddrSpace

/-- `AddrSpace::AddrSpace`. -/
def new : AddrSpace := ⟨none, 0⟩

/-- The page table that `Load` builds over the frames it took. -/
def ofFrames (frames : List ℕ) : AddrSpace where
  pageTable := some (frames.mapIdx fun (i frame : ℕ) => ⟨i, frame, true, false, false, false⟩)
  numPages := frames.length

/-- The entries of the page table; none when the pointer is `NULL`. -/
def entries (a : AddrSpace) : List TranslationEntry := a.pageTable.getD []

/-- The frames named in the page table. -/
def frames (a : AddrSpace) : List ℕ := a.entries.map TranslationEntry.pageFrame

/-- `AddrSpace::Load` after the header is read: the result, the object and the memory. -/
def loadProgram (noffH : NoffHeader) (file : HostFile) (s : PhysMem) :
    Option (Bool × AddrSpace × PhysMem) :=
  -- `ASSERT(noffH.noffMagic == NOFFMAGIC)`
  if noffH.noffMagic ≠ noffMagicNumber then none
  -- Not enough free frames: the object keeps no page table.
  else if noffH.numPages > s.gPhysPageBitMap.numClear then some (false, new, s)
  else
    (s.gPhysPageBitMap.findAndSetAll noffH.numPages).bind fun (frames, bm) =>
      (noffH.loadBuffer file).bind fun buffer =>
        (copyPages frames buffer (frames.foldl zeroFrame s.mainMemory)).map fun mem =>
          (true, ofFrames frames, ⟨mem, bm⟩)

/-- `AddrSpace::Load` on a fresh object. `exe` is what opening the file gave. -/
def load (exe : Option HostFile) (junk : ℕ → UInt8) (s : PhysMem) :
    Option (Bool × AddrSpace × PhysMem) :=
  match exe with
  | none => some (false, new, s)
  | some file => loadProgram (file.noffHeader junk) file s

/-- `AddrSpace::~AddrSpace`: the bitmap it leaves. -/
def destroy (a : AddrSpace) (bm : Bitmap numPhysPages) : Option (Bitmap numPhysPages) :=
  bm.clearAll ((a.entries.take a.numPages).map TranslationEntry.physicalPage)

/-! ### What `Load` and the destructor do -/

/-- A page table as `Load` builds it and the machine keeps it: as long as `numPages` says, and
with frames of the machine only. -/
structure WellFormed (a : AddrSpace) : Prop where
  length_entries : a.entries.length = a.numPages
  physicalPage_eq : ∀ e ∈ a.entries, e.physicalPage = e.pageFrame
  pageFrame_lt : ∀ e ∈ a.entries, e.pageFrame < numPhysPages

theorem WellFormed.new : AddrSpace.new.WellFormed :=
  ⟨rfl, by simp [AddrSpace.new, entries], by simp [AddrSpace.new, entries]⟩

/-- A frame of the machine survives the conversion to `unsigned`. -/
private theorem pageFrame_natCast {i f : ℕ} (hf : f < numPhysPages) {v r u d : Bool} :
    (⟨i, f, v, r, u, d⟩ : TranslationEntry).pageFrame = f := by
  show ((f : Int) % 4294967296).toNat = f
  unfold numPhysPages at hf
  omega

@[simp] theorem frames_new : AddrSpace.new.frames = [] := rfl

/-- The page table that `Load` builds names exactly the frames it took. -/
theorem frames_ofFrames {l : List ℕ} (hl : ∀ f ∈ l, f < numPhysPages) :
    (ofFrames l).frames = l := by
  unfold frames entries ofFrames
  apply List.ext_getElem
  · simp
  · intro i h1 h2
    simp only [Option.getD_some, List.getElem_map, List.getElem_mapIdx]
    exact pageFrame_natCast (hl _ (List.getElem_mem h2))

theorem WellFormed.ofFrames {l : List ℕ} (hl : ∀ f ∈ l, f < numPhysPages) :
    (AddrSpace.ofFrames l).WellFormed := by
  have hentry : ∀ e ∈ (AddrSpace.ofFrames l).entries,
      e.pageFrame < numPhysPages ∧ e.physicalPage = e.pageFrame := by
    intro e he
    obtain ⟨i, hi, rfl⟩ := List.mem_mapIdx.mp he
    have hf := hl _ (List.getElem_mem hi)
    rw [pageFrame_natCast hf]
    exact ⟨hf, rfl⟩
  refine ⟨?_, fun e he => (hentry e he).2, fun e he => (hentry e he).1⟩
  simp [entries, AddrSpace.ofFrames]

section Touch

variable {a : AddrSpace} {table : List TranslationEntry} {i : ℕ} {e : TranslationEntry}

/-- Setting the use and dirty bits of an entry changes no frame of the table. -/
theorem frames_touch (htable : a.pageTable = some table) (he : table[i]? = some e)
    (writing : Bool) :
    ({ a with pageTable := some (table.set i (e.touch writing)) } : AddrSpace).frames
      = a.frames := by
  obtain ⟨hi, rfl⟩ := List.getElem?_eq_some_iff.mp he
  have hmap : i < (table.map TranslationEntry.pageFrame).length := by simpa using hi
  have hframe : (table[i].touch writing).pageFrame = (table.map TranslationEntry.pageFrame)[i] := by
    rw [List.getElem_map]; rfl
  simp only [frames, entries, htable, Option.getD_some]
  rw [List.map_set, hframe, List.set_getElem_self]

/-- Setting the use and dirty bits of an entry keeps a page table well formed. -/
theorem WellFormed.touch (ha : a.WellFormed) (htable : a.pageTable = some table)
    (he : table[i]? = some e) (writing : Bool) :
    ({ a with pageTable := some (table.set i (e.touch writing)) } : AddrSpace).WellFormed := by
  have hentries : a.entries = table := by simp [entries, htable]
  -- Every entry of the new table has the physical page of an entry of the old one.
  have hphys : ∀ e' ∈ table.set i (e.touch writing),
      ∃ e'' ∈ a.entries, e'.physicalPage = e''.physicalPage := by
    intro e' he'
    rw [hentries]
    rcases List.mem_or_eq_of_mem_set he' with hm | rfl
    · exact ⟨e', hm, rfl⟩
    · exact ⟨e, List.mem_of_getElem? he, rfl⟩
  refine ⟨?_, fun e' he' => ?_, fun e' he' => ?_⟩
  · have hlen := ha.length_entries
    rw [hentries] at hlen
    show (table.set i (e.touch writing)).length = a.numPages
    rw [List.length_set, hlen]
  · obtain ⟨e'', hm, hpp⟩ := hphys e' he'
    have heq := ha.physicalPage_eq e'' hm
    unfold TranslationEntry.pageFrame at heq ⊢
    rw [hpp]; exact heq
  · obtain ⟨e'', hm, hpp⟩ := hphys e' he'
    have hlt := ha.pageFrame_lt e'' hm
    unfold TranslationEntry.pageFrame at hlt ⊢
    rw [hpp]; exact hlt

end Touch

/-- What a `Load` that returns can do once the header has been read. -/
theorem loadProgram_cases {noffH : NoffHeader} {file : HostFile} {s s' : PhysMem} {ok : Bool}
    {a : AddrSpace} (h : loadProgram noffH file s = some (ok, a, s')) :
    noffH.noffMagic = noffMagicNumber ∧
      ((ok = false ∧ s.gPhysPageBitMap.numClear < noffH.numPages ∧ a = new ∧ s' = s) ∨
      (ok = true ∧ noffH.numPages ≤ s.gPhysPageBitMap.numClear ∧ ∃ l buffer,
        a = ofFrames l ∧ l.length = noffH.numPages ∧ l.Nodup ∧
        (∀ f ∈ l, f < numPhysPages ∧ f ∉ s.gPhysPageBitMap.marked) ∧
        s'.gPhysPageBitMap.marked = s.gPhysPageBitMap.marked ∪ l.toFinset ∧
        noffH.loadBuffer file = some buffer ∧
        copyPages l buffer (l.foldl zeroFrame s.mainMemory) = some s'.mainMemory)) := by
  unfold loadProgram at h
  split at h
  · cases h
  · rename_i hmagic
    refine ⟨not_not.mp hmagic, ?_⟩
    split at h
    · rename_i hclear
      cases h
      exact .inl ⟨rfl, hclear, rfl, rfl⟩
    · rename_i hclear
      obtain ⟨l, bm, hfind, hlen, hnodup, hfresh, hmarked⟩ :=
        Bitmap.findAndSetAll_of_le (Nat.le_of_not_gt hclear)
      rw [hfind, Option.bind_some, Option.bind_eq_some_iff] at h
      obtain ⟨buffer, hbuffer, h⟩ := h
      obtain ⟨mem, hmem, h⟩ := Option.map_eq_some_iff.mp h
      cases h
      exact .inr ⟨rfl, Nat.le_of_not_gt hclear, l, buffer, rfl, hlen, hnodup, hfresh, hmarked,
        hbuffer, hmem⟩

/-- **Everything a `Load` that returns can do.** It fails and changes nothing, or it takes
distinct free frames, as many as the header asks for. -/
theorem load_cases {exe : Option HostFile} {junk : ℕ → UInt8} {s s' : PhysMem} {ok : Bool}
    {a : AddrSpace} (h : load exe junk s = some (ok, a, s')) :
    (ok = false ∧ a = new ∧ s' = s) ∨
    (ok = true ∧ ∃ l, a = ofFrames l ∧ l.Nodup ∧
      (∀ f ∈ l, f < numPhysPages ∧ f ∉ s.gPhysPageBitMap.marked) ∧
      s'.gPhysPageBitMap.marked = s.gPhysPageBitMap.marked ∪ l.toFinset) := by
  cases exe with
  | none =>
    cases h
    exact .inl ⟨rfl, rfl, rfl⟩
  | some file =>
    have hprogram : loadProgram (file.noffHeader junk) file s = some (ok, a, s') := h
    rcases (loadProgram_cases hprogram).2 with ⟨hok, -, ha, hs⟩ |
      ⟨hok, -, l, buffer, ha, -, hnodup, hfresh, hmarked, -⟩
    · exact .inl ⟨hok, ha, hs⟩
    · exact .inr ⟨hok, l, ha, hnodup, hfresh, hmarked⟩

end AddrSpace

/-- The executables that `Load` can handle: the right magic number, sizes that are not negative
and whose total with the stack is an `int`, and segments inside the load buffer. -/
structure NoffHeader.WellFormed (noffH : NoffHeader) : Prop where
  noffMagic : noffH.noffMagic = noffMagicNumber
  size_nonneg : ∀ seg ∈ [noffH.code, noffH.readonlyData, noffH.initData, noffH.uninitData],
    0 ≤ seg.size
  total_le : noffH.code.size + noffH.readonlyData.size + noffH.initData.size +
    noffH.uninitData.size + userStackSize ≤ maxInt
  inBuffer : ∀ seg ∈ [noffH.code, noffH.readonlyData, noffH.initData], seg.size ≠ 0 →
    0 ≤ seg.inFileAddr ∧ 0 ≤ seg.virtualAddr ∧ seg.virtualAddr + seg.size ≤
      noffH.code.size + noffH.readonlyData.size + noffH.initData.size

namespace NoffHeader

theorem WellFormed.sizes {noffH : NoffHeader} (h : noffH.WellFormed) :
    0 ≤ noffH.code.size ∧ 0 ≤ noffH.readonlyData.size ∧ 0 ≤ noffH.initData.size ∧
      0 ≤ noffH.uninitData.size := by
  simpa using h.size_nonneg

/-- The size of the address space does not overflow. -/
theorem WellFormed.addressSpaceSize_eq {noffH : NoffHeader} (h : noffH.WellFormed) :
    noffH.addressSpaceSize = noffH.code.size + noffH.readonlyData.size + noffH.initData.size +
      noffH.uninitData.size + 1024 := by
  have hsizes := h.sizes
  exact wrap32_of_nonneg (by unfold userStackSize; omega) h.total_le

/-- A segment inside the buffer is read without leaving it; nothing is read for a negative size. -/
theorem loadSegment_eq_some (file : HostFile) (buffer : List UInt8) {seg : Segment}
    (hpos : seg.size ≠ 0 → 0 ≤ seg.inFileAddr)
    (hin : 0 < seg.size → 0 ≤ seg.virtualAddr ∧ seg.virtualAddr + seg.size ≤ buffer.length) :
    ∃ buffer', loadSegment file buffer seg = some buffer' ∧ buffer'.length = buffer.length := by
  unfold loadSegment
  by_cases h0 : seg.size = 0
  · exact ⟨buffer, if_pos h0, rfl⟩
  · have hpos := hpos h0
    rw [if_neg h0, HostFile.readAt, if_neg (by omega)]
    set bytes := (file.drop seg.inFileAddr.toNat).take seg.size.toNat with hbytes
    have hlen : bytes.length ≤ seg.size.toNat := List.length_take_le _ _
    by_cases hnil : bytes = []
    · exact ⟨buffer, by simp only [if_pos hnil], rfl⟩
    · have hne : 0 < bytes.length := List.length_pos_iff.mpr hnil
      have hin := hin (by omega)
      have hfits : 0 ≤ seg.virtualAddr ∧ seg.virtualAddr + bytes.length ≤ buffer.length := by omega
      refine ⟨buffer.take seg.virtualAddr.toNat ++ bytes ++
        buffer.drop (seg.virtualAddr.toNat + bytes.length), ?_, ?_⟩
      · simp only [if_neg hnil, if_pos hfits]
      simp only [List.length_append, List.length_take, List.length_drop]
      omega

/-- The load buffer, if the three segments are inside of it. -/
theorem loadBuffer_of_fits {noffH : NoffHeader} (hsize : 0 ≤ noffH.actualSize)
    (hpos : ∀ seg ∈ [noffH.code, noffH.readonlyData, noffH.initData], seg.size ≠ 0 →
      0 ≤ seg.inFileAddr)
    (hin : ∀ seg ∈ [noffH.code, noffH.readonlyData, noffH.initData], 0 < seg.size →
      0 ≤ seg.virtualAddr ∧ seg.virtualAddr + seg.size ≤ noffH.actualSize) (file : HostFile) :
    ∃ buffer, noffH.loadBuffer file = some buffer ∧ (buffer.length : Int) = noffH.actualSize := by
  -- The three segments go in one after the other; each leaves the length as it is.
  have hstep : ∀ seg ∈ [noffH.code, noffH.readonlyData, noffH.initData], ∀ buffer : List UInt8,
      (buffer.length : Int) = noffH.actualSize →
      ∃ buffer', loadSegment file buffer seg = some buffer' ∧
        (buffer'.length : Int) = noffH.actualSize := by
    intro seg hseg buffer hlen
    obtain ⟨buffer', hb, hl⟩ := loadSegment_eq_some file buffer (hpos seg hseg) (fun h0 => by
      rw [hlen]
      exact hin seg hseg h0)
    exact ⟨buffer', hb, by rw [hl]; exact hlen⟩
  obtain ⟨b1, hb1, hl1⟩ := hstep noffH.code (by simp) (List.replicate noffH.actualSize.toNat 0)
    (by rw [List.length_replicate]; omega)
  obtain ⟨b2, hb2, hl2⟩ := hstep noffH.readonlyData (by simp) b1 hl1
  obtain ⟨b3, hb3, hl3⟩ := hstep noffH.initData (by simp) b2 hl2
  refine ⟨b3, ?_, hl3⟩
  rw [loadBuffer, if_neg (by omega)]
  simp [List.foldlM_cons, hb1, hb2, hb3]

theorem loadBuffer_eq_some {noffH : NoffHeader} (h : noffH.WellFormed) (file : HostFile) :
    ∃ buffer, noffH.loadBuffer file = some buffer ∧
      (buffer.length : Int) =
        noffH.code.size + noffH.readonlyData.size + noffH.initData.size := by
  have hsizes := h.sizes
  have htotal := h.total_le
  unfold userStackSize at htotal
  have hactual : noffH.actualSize
      = noffH.code.size + noffH.readonlyData.size + noffH.initData.size := by
    unfold actualSize
    rw [wrap32_of_nonneg (by omega) (by omega)]
    omega
  rw [← hactual]
  apply loadBuffer_of_fits (by omega)
  · exact fun seg hseg h0 => (h.inBuffer seg hseg h0).1
  · intro seg hseg hsize
    rw [hactual]
    exact (h.inBuffer seg hseg (by omega)).2

/-- A well-formed executable has a page for every page of its load buffer. -/
theorem pages_le_numPages {noffH : NoffHeader} (h : noffH.WellFormed) {k : ℕ}
    (hk : (k : Int) = noffH.code.size + noffH.readonlyData.size + noffH.initData.size) :
    (k + pageSize - 1) / pageSize ≤ noffH.numPages := by
  have htotal := h.total_le
  obtain ⟨u, hu⟩ := Int.eq_ofNat_of_zero_le h.sizes.2.2.2
  -- The stack alone makes the address space larger than the load buffer.
  have hsize : noffH.addressSpaceSize = ((k + u + 1024 : ℕ) : Int) := by
    rw [h.addressSpaceSize_eq]
    omega
  unfold userStackSize maxInt at htotal
  unfold numPages
  rw [hsize, divRoundUp_natCast _ _ (by decide)]
  unfold pageSize
  omega

end NoffHeader

/-- The copy loop stays in the page table when the table is long enough. -/
theorem copyPages_eq_some (frames : List ℕ) {buffer : List UInt8} (mem : ℕ → UInt8)
    (h : (buffer.length + pageSize - 1) / pageSize ≤ frames.length) :
    ∃ mem', copyPages frames buffer mem = some mem' := by
  -- Induction over the pages still to be copied; the memory is the accumulator.
  have hloop : ∀ (l : List ℕ) (mem : ℕ → UInt8), (∀ i ∈ l, i < frames.length) →
      ∃ mem', l.foldlM (fun mem i =>
        match frames[i]? with
        | none => none
        | some frame => some (copyToFrame mem frame ((buffer.drop (i * pageSize)).take pageSize)))
        mem = some mem' := by
    intro l
    induction l with
    | nil => exact fun mem _ => ⟨mem, rfl⟩
    | cons i l ih =>
      intro mem hl
      have hi : i < frames.length := hl i List.mem_cons_self
      obtain ⟨mem', hmem'⟩ := ih
        (copyToFrame mem frames[i] ((buffer.drop (i * pageSize)).take pageSize))
        (fun j hj => hl j (List.mem_cons_of_mem i hj))
      refine ⟨mem', ?_⟩
      rw [List.foldlM_cons, List.getElem?_eq_getElem hi]
      exact hmem'
  exact hloop _ mem fun i hi => by
    have := List.mem_range.mp hi
    omega

namespace AddrSpace

/-- **`Load` returns** on every executable with a well-formed header, with `TRUE` exactly when
there are free frames for all of its pages. -/
theorem load_of_wellFormed {file : HostFile} {junk : ℕ → UInt8}
    (h : (file.noffHeader junk).WellFormed) (s : PhysMem) :
    ∃ ok a s', load (some file) junk s = some (ok, a, s') ∧
      (ok = true ↔ (file.noffHeader junk).numPages ≤ s.gPhysPageBitMap.numClear) ∧
      (ok = true → a.numPages = (file.noffHeader junk).numPages) := by
  change ∃ ok a s', loadProgram (file.noffHeader junk) file s = some (ok, a, s') ∧ _
  generalize file.noffHeader junk = noffH at h
  unfold loadProgram
  rw [if_neg (by simpa using h.noffMagic)]
  by_cases hclear : noffH.numPages > s.gPhysPageBitMap.numClear
  · rw [if_pos hclear]
    exact ⟨false, new, s, rfl, by simpa using hclear, by simp⟩
  · obtain ⟨l, bm, hfind, hlen, -⟩ := Bitmap.findAndSetAll_of_le (Nat.le_of_not_gt hclear)
    obtain ⟨buffer, hbuffer, hblen⟩ := noffH.loadBuffer_eq_some h file
    obtain ⟨mem, hmem⟩ := copyPages_eq_some l (l.foldl zeroFrame s.mainMemory)
      (by rw [hlen]; exact noffH.pages_le_numPages h hblen)
    rw [if_neg hclear, hfind, Option.bind_some]
    simp only [hbuffer, Option.bind_some, hmem, Option.map_some]
    exact ⟨true, ofFrames l, ⟨mem, bm⟩, rfl, by simpa using hclear, fun _ => hlen⟩

theorem WellFormed.map_physicalPage {a : AddrSpace} (ha : a.WellFormed) :
    a.entries.map TranslationEntry.physicalPage = a.frames.map (Nat.cast : ℕ → Int) := by
  rw [frames, List.map_map]
  exact List.map_congr_left ha.physicalPage_eq

/-- The destructor of a well-formed address space clears the frames of its page table. -/
theorem destroy_eq_some {a : AddrSpace} (ha : a.WellFormed) (bm : Bitmap numPhysPages) :
    ∃ bm', a.destroy bm = some bm' ∧ bm'.marked = bm.marked \ a.frames.toFinset := by
  unfold destroy
  rw [← ha.length_entries, List.take_length, ha.map_physicalPage]
  refine Bitmap.clearAll_natCast (fun f hf => ?_) bm
  obtain ⟨e, he, rfl⟩ := List.mem_map.mp hf
  exact ha.pageFrame_lt e he

end AddrSpace

end Nachos.UserProg
