import Nachos.Base.CString
import Nachos.Lib.Bitmap

namespace Nachos.FileSys

open Base Lib Function

/-!
# FileSys — sectors and file headers

The disk as the file system sees it through `SynchDisk`, and `FileHeader` of
`filesys/filehdr.cc`: the length of a file and the sectors that hold its data, stored in one
sector of its own.

* `FileHeader.toBytes`, `FileHeader.ofBytes` — the object in memory, written to a sector and
  read back as it is;
* `FileHeader.allocate`, `FileHeader.deallocate` — take sectors from the free map and give them
  back;
* `FileHeader.WellFormed` — a header as `Allocate` leaves it;
* `FileHeader.Covers` — what reading and writing need of it;
* `fileByte` — the byte of a file at an offset, read from the disk through its header.

A runtime check that fails, an index past the end of an array included, gives `none`.
-/

/-! ### The disk -/

/-- `SectorSize`. -/
def sectorSize : ℕ := 128

/-- `NumSectors`. -/
def numDiskSectors : ℕ := 1024

/-- The bytes of each sector. -/
abbrev Disk := ℕ → Buffer

namespace Disk

/-- `SynchDisk::ReadSector`. `ASSERT((sectorNumber >= 0) && (sectorNumber < NumSectors))`. -/
def readSector (d : Disk) (sectorNumber : Int) : Option Buffer :=
  if 0 ≤ sectorNumber ∧ sectorNumber < numDiskSectors then some (d sectorNumber.toNat) else none

/-- `SynchDisk::WriteSector`, with the same assertion. -/
def writeSector (d : Disk) (sectorNumber : Int) (data : Buffer) : Option Disk :=
  if 0 ≤ sectorNumber ∧ sectorNumber < numDiskSectors then
    some (update d sectorNumber.toNat data)
  else none

theorem readSector_natCast (d : Disk) {s : ℕ} (hs : s < numDiskSectors) :
    d.readSector s = some (d s) := by
  rw [readSector, if_pos (by omega), Int.toNat_natCast]

theorem writeSector_natCast (d : Disk) {s : ℕ} (hs : s < numDiskSectors) (data : Buffer) :
    d.writeSector s data = some (update d s data) := by
  rw [writeSector, if_pos (by omega), Int.toNat_natCast]

end Disk

/-! ### File headers -/

/-- `NumDirect`. -/
def numDirect : ℕ := (sectorSize - 2 * 4) / 4

/-- `MaxFileSize`. -/
def maxFileSize : ℕ := numDirect * sectorSize

/-- `FileHeader`. -/
structure FileHeader where
  numBytes : Int
  numSectors : Int
  dataSectors : Vector Int numDirect
  deriving DecidableEq

namespace FileHeader

/-- The object in memory, as an array of `int`. -/
def word (h : FileHeader) : ℕ → Int
  | 0 => h.numBytes
  | 1 => h.numSectors
  | k + 2 => h.dataSectors[k]?.getD 0

/-- The bytes of the object. -/
def toBytes (h : FileHeader) : Buffer := fun o => intByte (h.word (o / 4)) (o % 4)

/-- The object with the given bytes. -/
def ofBytes (b : Buffer) : FileHeader where
  numBytes := b.intAt 0
  numSectors := b.intAt 4
  dataSectors := .ofFn fun k => b.intAt (4 * (k + 2))

/-- `FileHeader::FetchFrom`. -/
def fetchFrom (d : Disk) (sector : Int) : Option FileHeader := (d.readSector sector).map ofBytes

/-- `FileHeader::WriteBack`. -/
def writeBack (h : FileHeader) (d : Disk) (sector : Int) : Option Disk :=
  d.writeSector sector h.toBytes

/-- `FileHeader::FileLength`. -/
def fileLength (h : FileHeader) : Int := h.numBytes

/-- `FileHeader::ByteToSector`. -/
def byteToSector (h : FileHeader) (offset : Int) : Option Int :=
  if 0 ≤ offset.tdiv sectorSize then h.dataSectors[(offset.tdiv sectorSize).toNat]? else none

/-- The array `dataSectors` after its first entries have been set. -/
def fillSectors (old : Vector Int numDirect) (l : List ℕ) : Vector Int numDirect :=
  .ofFn fun k => match l[k.val]? with
    | some s => s
    | none => old.get k

/-- `FileHeader::Allocate` on a new object, whose contents are those of `h`. -/
def allocate (h : FileHeader) (freeMap : Bitmap numDiskSectors) (fileSize : Int) :
    Option (Bool × FileHeader × Bitmap numDiskSectors) :=
  let numSectors := divRoundUp fileSize sectorSize
  if freeMap.numClear < numSectors then
    some (false, { h with numBytes := fileSize, numSectors := numSectors }, freeMap)
  -- The loop writes past the end of `dataSectors`.
  else if numSectors > numDirect then none
  else
    (freeMap.findAndSetAll numSectors.toNat).map fun (l, bm) =>
      (true, ⟨fileSize, numSectors, fillSectors h.dataSectors l⟩, bm)

/-- One round of the loop of `Deallocate`: `ASSERT(freeMap->Test(...))` and `Clear`. -/
def deallocateSector (h : FileHeader) (freeMap : Bitmap numDiskSectors) (i : ℕ) :
    Option (Bitmap numDiskSectors) :=
  match h.dataSectors[i]? with
  | none => none
  | some sector => if freeMap.test sector = some true then freeMap.clear sector else none

/-- `FileHeader::Deallocate`. -/
def deallocate (h : FileHeader) (freeMap : Bitmap numDiskSectors) :
    Option (Bitmap numDiskSectors) :=
  (List.range h.numSectors.toNat).foldlM h.deallocateSector freeMap

/-! ### Layout -/

/-- The fields hold values of type `int`. -/
def InRange (h : FileHeader) : Prop := ∀ k, minInt ≤ h.word k ∧ h.word k ≤ maxInt

/-- The fields, read from bytes. -/
theorem word_ofBytes (b : Buffer) {k : ℕ} (hk : k < numDirect + 2) :
    (ofBytes b).word k = b.intAt (4 * k) := by
  match k with
  | 0 => simp only [word, ofBytes, Nat.mul_zero]
  | 1 => simp only [word, ofBytes, Nat.mul_one]
  | k + 2 =>
    have hk' : k < numDirect := by omega
    simp only [word, ofBytes]
    rw [Vector.getElem?_ofFn, dif_pos hk', Option.getD_some]

/-- What is read from bytes are values of type `int`. -/
theorem inRange_ofBytes (b : Buffer) : (ofBytes b).InRange := by
  intro k
  by_cases hk : k < numDirect + 2
  · rw [word_ofBytes b hk]
    exact b.intAt_mem _
  · obtain ⟨j, rfl⟩ : ∃ j, k = j + 2 := ⟨k - 2, by omega⟩
    have hj : ¬ j < numDirect := by omega
    have hzero : (ofBytes b).word (j + 2) = 0 := by simp [word, hj]
    rw [hzero]
    decide

variable {h : FileHeader}

/-- A header is determined by its fields. -/
theorem ext_word {h' : FileHeader} (heq : ∀ k < numDirect + 2, h.word k = h'.word k) : h = h' := by
  have h0 : h.numBytes = h'.numBytes := heq 0 (by omega)
  have h1 : h.numSectors = h'.numSectors := heq 1 (by omega)
  have hdata : h.dataSectors = h'.dataSectors := by
    ext k hk
    have := heq (k + 2) (by omega)
    simpa [word, hk] using this
  cases h
  cases h'
  simp only [mk.injEq]
  exact ⟨h0, h1, hdata⟩

/-- **Round trip.** A header that is written to a sector is read back as it was. -/
theorem ofBytes_toBytes (hr : h.InRange) : ofBytes h.toBytes = h := by
  apply ext_word
  intro k hk
  rw [word_ofBytes _ hk]
  refine Buffer.intAt_eq (fun j hj => ?_) (hr k).1 (hr k).2
  have hdiv : (4 * k + j) / 4 = k := by omega
  have hmod : (4 * k + j) % 4 = j := by omega
  rw [toBytes, hdiv, hmod]

/-! ### Well-formed headers -/

/-- The length of the file. -/
def length (h : FileHeader) : ℕ := h.numBytes.toNat

/-- The number of sectors that many bytes need. -/
def blocks (h : FileHeader) : ℕ := (h.length + sectorSize - 1) / sectorSize

/-- The sector of block `k`. -/
def sector (h : FileHeader) (k : ℕ) : ℕ := (h.dataSectors[k]?.getD 0).toNat

/-- The sectors of the data. -/
def sectors (h : FileHeader) : List ℕ := (List.range h.blocks).map h.sector

/-- A header as `Allocate` leaves it: as many distinct sectors of the disk as the length
needs. -/
structure WellFormed (h : FileHeader) : Prop where
  numBytes_nonneg : 0 ≤ h.numBytes
  numBytes_le : h.numBytes ≤ maxFileSize
  numSectors_eq : h.numSectors = h.blocks
  dataSectors_eq : ∀ k < h.blocks, h.dataSectors[k]? = some (h.sector k : Int)
  sector_lt : ∀ k < h.blocks, h.sector k < numDiskSectors
  nodup : h.sectors.Nodup

/-- A header whose data sectors are distinct sectors of the disk and cover its length. -/
structure Covers (h : FileHeader) : Prop where
  dataSectors_eq : ∀ k < h.blocks, h.dataSectors[k]? = some (h.sector k : Int)
  sector_lt : ∀ k < h.blocks, h.sector k < numDiskSectors
  nodup : h.sectors.Nodup

theorem WellFormed.covers (hwf : h.WellFormed) : h.Covers :=
  ⟨hwf.dataSectors_eq, hwf.sector_lt, hwf.nodup⟩

theorem mem_sectors {s : ℕ} :
    s ∈ h.sectors ↔ ∃ k < h.blocks, h.sector k = s := by
  simp [sectors]

theorem length_sectors (h : FileHeader) : h.sectors.length = h.blocks := by
  simp [sectors]

theorem WellFormed.numBytes_eq (hwf : h.WellFormed) :
    h.numBytes = (h.length : Int) := by
  have := hwf.numBytes_nonneg
  unfold length
  omega

/-- The array has room for the sectors of the longest file and no others. -/
theorem Covers.length_le (hcov : h.Covers) : h.length ≤ maxFileSize := by
  have hmax : maxFileSize = 3840 := rfl
  have hblocks : h.blocks ≤ numDirect := by
    by_contra hgt
    have hentry := hcov.dataSectors_eq numDirect (by omega)
    simp at hentry
  have hdir : numDirect = 30 := rfl
  unfold blocks sectorSize at hblocks
  omega

theorem WellFormed.length_le (hwf : h.WellFormed) : h.length ≤ maxFileSize :=
  hwf.covers.length_le

theorem Covers.sector_inj (hcov : h.Covers) {j k : ℕ} (hj : j < h.blocks)
    (hk : k < h.blocks) (heq : h.sector j = h.sector k) : j = k :=
  List.inj_on_of_nodup_map hcov.nodup (List.mem_range.mpr hj) (List.mem_range.mpr hk) heq

/-- The length of a file that has bytes is the number in its header. -/
theorem numBytes_eq_of_lt {o : ℕ} (ho : o < h.length) :
    h.numBytes = (h.length : Int) := by
  unfold length at ho ⊢
  omega

theorem div_lt_blocks {o : ℕ} (ho : o < h.length) : o / sectorSize < h.blocks := by
  unfold blocks sectorSize
  omega

/-- The sector of a byte, as `ByteToSector` finds it. -/
theorem Covers.byteToSector_natCast (hcov : h.Covers) {o : ℕ}
    (ho : o / sectorSize < h.blocks) :
    h.byteToSector (o : Int) = some (h.sector (o / sectorSize) : Int) := by
  have hdiv : (o : Int).tdiv sectorSize = (o / sectorSize : ℕ) :=
    Int.tdiv_eq_ediv_of_nonneg (Int.natCast_nonneg o)
  rw [byteToSector, hdiv, if_pos (Int.natCast_nonneg _), Int.toNat_natCast]
  exact hcov.dataSectors_eq _ ho

theorem Covers.byteToSector_eq (hcov : h.Covers) {k : ℕ}
    (hk : k < h.blocks) : h.byteToSector ((k * sectorSize : ℕ) : Int) =
    some (h.sector k : Int) := by
  have hdiv : k * sectorSize / sectorSize = k := Nat.mul_div_cancel k (by decide)
  rw [hcov.byteToSector_natCast (by rw [hdiv]; exact hk), hdiv]

theorem byteToSector_block (h : FileHeader) (b : Int) :
    h.byteToSector (b * sectorSize) = if 0 ≤ b then h.dataSectors[b.toNat]? else none := by
  rw [byteToSector, Int.mul_tdiv_cancel b (by decide)]

/-! ### Taking sectors and giving them back -/

/-- `divRoundUp` of a size, in natural numbers. -/
theorem divRoundUp_sectorSize (n : ℕ) :
    divRoundUp (n : Int) sectorSize = ((n + sectorSize - 1) / sectorSize : ℕ) :=
  divRoundUp_natCast n sectorSize (by decide)

section Filled

variable {old : Vector Int numDirect} {l : List ℕ} {k s n : ℕ}

theorem fillSectors_of_some (hk : l[k]? = some s) (hlen : l.length ≤ numDirect) :
    (fillSectors old l)[k]? = some (s : Int) := by
  have hkl := (List.getElem?_eq_some_iff.mp hk).1
  have hkd : k < numDirect := by omega
  simp [fillSectors, hkd, hk]

/-- The other entries keep the contents of the new object. -/
theorem fillSectors_of_none (hk : l[k]? = none) : (fillSectors old l)[k]? = old[k]? := by
  by_cases hkd : k < numDirect
  · simp [fillSectors, hkd, hk, Vector.get]
  · simp [hkd]

/-- The header of a file of `n` bytes with the sectors that were found for it. -/
def filled (old : Vector Int numDirect) (n : ℕ) (l : List ℕ) : FileHeader :=
  ⟨n, l.length, fillSectors old l⟩

theorem length_filled : (filled old n l).length = n := by
  rw [length, filled, Int.toNat_natCast]

theorem blocks_filled (hlen : l.length = (n + sectorSize - 1) / sectorSize) :
    (filled old n l).blocks = l.length := by
  rw [blocks, length_filled, hlen]

theorem sector_filled (hk : l[k]? = some s) (hle : l.length ≤ numDirect) :
    (filled old n l).sector k = s := by
  simp only [sector, filled, fillSectors_of_some hk hle, Option.getD_some, Int.toNat_natCast]

/-- The sectors of the header are those that were found. -/
theorem sectors_filled (hlen : l.length = (n + sectorSize - 1) / sectorSize)
    (hle : l.length ≤ numDirect) : (filled old n l).sectors = l := by
  apply List.ext_getElem
  · rw [length_sectors, blocks_filled hlen]
  · intro k hk hk'
    simp only [sectors, List.getElem_map, List.getElem_range]
    exact sector_filled (List.getElem?_eq_getElem hk') hle

/-- Distinct sectors of the disk make a well-formed header. -/
theorem wellFormed_filled (hn : n ≤ maxFileSize)
    (hlen : l.length = (n + sectorSize - 1) / sectorSize) (hle : l.length ≤ numDirect)
    (hnodup : l.Nodup) (hlt : ∀ s ∈ l, s < numDiskSectors) : (filled old n l).WellFormed := by
  have hentry : ∀ k < (filled old n l).blocks, ∃ s, l[k]? = some s := by
    intro k hk
    rw [blocks_filled hlen] at hk
    exact ⟨_, List.getElem?_eq_getElem hk⟩
  refine ⟨?_, ?_, ?_, fun k hk => ?_, fun k hk => ?_, ?_⟩
  · simp only [filled]; omega
  · simp only [filled]; omega
  · rw [blocks_filled hlen, filled]
  · obtain ⟨s, hs⟩ := hentry k hk
    rw [sector_filled hs hle]
    exact fillSectors_of_some hs hle
  · obtain ⟨s, hs⟩ := hentry k hk
    rw [sector_filled hs hle]
    exact hlt s (List.mem_of_getElem? hs)
  · rw [sectors_filled hlen hle]
    exact hnodup

/-- The fields of the header are values of type `int`. -/
theorem inRange_filled {h : FileHeader} (hr : h.InRange) (hn : n ≤ maxFileSize)
    (hle : l.length ≤ numDirect) (hlt : ∀ s ∈ l, s < numDiskSectors) :
    (filled h.dataSectors n l).InRange := by
  have hmax : maxFileSize = 3840 := rfl
  have hdir : numDirect = 30 := rfl
  have hnum : numDiskSectors = 1024 := rfl
  intro k
  match k with
  | 0 => simp only [filled, word, minInt, maxInt]; omega
  | 1 => simp only [filled, word, minInt, maxInt]; omega
  | k + 2 =>
    cases hk : l[k]? with
    | some s =>
      have hs := hlt s (List.mem_of_getElem? hk)
      simp only [filled, word, fillSectors_of_some hk hle, Option.getD_some, minInt, maxInt]
      omega
    | none =>
      have hold := hr (k + 2)
      simp only [word] at hold
      simp only [filled, word, fillSectors_of_none hk]
      exact hold

end Filled

/-- **`Allocate`** fails and takes nothing if there are too few free sectors. Otherwise it fills in
as many distinct ones as the size needs, or it writes past the end of `dataSectors`. -/
theorem allocate_cases (h : FileHeader) (hr : h.InRange) (freeMap : Bitmap numDiskSectors) (n : ℕ) :
    (freeMap.numClear < (n + sectorSize - 1) / sectorSize ∧
      ∃ h', h.allocate freeMap n = some (false, h', freeMap)) ∨
    ((n + sectorSize - 1) / sectorSize ≤ freeMap.numClear ∧
      ((n ≤ maxFileSize ∧ ∃ h' bm, h.allocate freeMap n = some (true, h', bm) ∧ h'.WellFormed ∧
        h'.InRange ∧ h'.length = n ∧ (∀ s ∈ h'.sectors, s ∉ freeMap.marked) ∧
        bm.marked = freeMap.marked ∪ h'.sectors.toFinset) ∨
      (maxFileSize < n ∧ h.allocate freeMap n = none))) := by
  have hblocks : n ≤ maxFileSize ↔ (n + sectorSize - 1) / sectorSize ≤ numDirect := by
    have hmax : maxFileSize = 3840 := rfl
    have hdir : numDirect = 30 := rfl
    unfold sectorSize
    omega
  unfold allocate
  rw [divRoundUp_sectorSize]
  by_cases hclear : freeMap.numClear < (n + sectorSize - 1) / sectorSize
  · exact .inl ⟨hclear, _, if_pos (by omega)⟩
  refine .inr ⟨by omega, ?_⟩
  by_cases hn : n ≤ maxFileSize
  · -- The loop finds a sector in every round, because `NumClear` has been checked.
    obtain ⟨l, bm, hl, hlen, hnodup, hfresh, hmarked⟩ :=
      Bitmap.findAndSetAll_of_le (k := (n + sectorSize - 1) / sectorSize) (b := freeMap) (by omega)
    have hle : l.length ≤ numDirect := by omega
    have hlt : ∀ s ∈ l, s < numDiskSectors := fun s hs => (hfresh s hs).1
    have hsectors : (filled h.dataSectors n l).sectors = l := sectors_filled hlen hle
    rw [if_neg (by omega), if_neg (by omega), Int.toNat_natCast, hl, ← hlen]
    refine .inl ⟨hn, filled h.dataSectors n l, bm, rfl, wellFormed_filled hn hlen hle hnodup hlt,
      inRange_filled hr hn hle hlt, length_filled, ?_, ?_⟩
    · rw [hsectors]
      exact fun s hs => (hfresh s hs).2
    · rw [hsectors]
      exact hmarked
  · refine .inr ⟨by omega, ?_⟩
    rw [if_neg (by omega), if_pos (by omega)]

/-- **`Deallocate` of a file whose sectors are marked** passes its assertions and clears them. -/
theorem WellFormed.deallocate_eq (hwf : h.WellFormed)
    (freeMap : Bitmap numDiskSectors) (hmarked : ∀ s ∈ h.sectors, s ∈ freeMap.marked) :
    ∃ bm, h.deallocate freeMap = some bm ∧ bm.marked = freeMap.marked \ h.sectors.toFinset := by
  have hloop : ∀ k ≤ h.blocks, ∃ bm, (List.range k).foldlM h.deallocateSector freeMap = some bm ∧
      bm.marked = freeMap.marked \ ((List.range k).map h.sector).toFinset := by
    intro k
    induction k with
    | zero => exact fun _ => ⟨freeMap, rfl, by simp⟩
    | succ k ih =>
      intro hk
      obtain ⟨bm, hbm, hset⟩ := ih (by omega)
      have hlt := hwf.sector_lt k (by omega)
      -- The sector of this round has not been cleared in an earlier one.
      have hmem : h.sector k ∈ bm.marked := by
        rw [hset, Finset.mem_sdiff]
        refine ⟨hmarked _ (mem_sectors.mpr ⟨k, by omega, rfl⟩), fun hin => ?_⟩
        obtain ⟨j, hj, heq⟩ := List.mem_map.mp (List.mem_toFinset.mp hin)
        rw [List.mem_range] at hj
        have := hwf.covers.sector_inj (by omega) (by omega) heq
        omega
      refine ⟨bm.resetBit (h.sector k), ?_, ?_⟩
      · rw [List.range_succ, List.foldlM_append, hbm]
        have htest : bm.test (h.sector k : Int) = some true := by
          rw [Bitmap.test_natCast _ hlt, decide_eq_true hmem]
        simp [deallocateSector, hwf.dataSectors_eq k (by omega), htest,
          Bitmap.clear_natCast _ hlt]
      · have hinsert : ((List.range (k + 1)).map h.sector).toFinset
            = insert (h.sector k) ((List.range k).map h.sector).toFinset := by
          rw [List.range_succ, List.map_append, List.toFinset_append, Finset.union_comm]
          rfl
        rw [Bitmap.marked_resetBit _ hlt, hset, hinsert, Finset.sdiff_insert]
  unfold deallocate
  rw [hwf.numSectors_eq, Int.toNat_natCast]
  exact hloop h.blocks le_rfl

end FileHeader

/-! ### The bytes of a file -/

/-- The byte of a file at an offset, as its header and the disk have it. -/
def fileByte (d : Disk) (h : FileHeader) (o : ℕ) : UInt8 :=
  d (h.sector (o / sectorSize)) (o % sectorSize)

theorem fileByte_congr {d d' : Disk} {h : FileHeader} (heq : ∀ s ∈ h.sectors, d' s = d s) {o : ℕ}
    (ho : o < h.length) : fileByte d' h o = fileByte d h o := by
  unfold fileByte
  rw [heq]
  exact FileHeader.mem_sectors.mpr ⟨_, FileHeader.div_lt_blocks ho, rfl⟩

end Nachos.FileSys
