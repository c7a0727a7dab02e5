import Nachos.FileSys.FileHeader

namespace Nachos.FileSys

open Base Lib Function

/-!
# FileSys — reading and writing open files

`OpenFile` of `filesys/openfile.cc` (the version on the simulated disk). `ReadAt` reads the
sectors that hold the requested bytes into a buffer and copies the part that was asked for;
`WriteAt` first reads the sectors that are only partly written.

The requests are checked with `int` arithmetic that may wrap around; what `new` and an array
access do with the numbers that come out of it is a fault. For a request that does not
overflow (`Fits`), `readAt_eq` and `writeAt_eq` say what is transferred in terms of `fileByte`.
-/

/-- `OpenFile`. -/
structure OpenFile where
  hdr : FileHeader
  seekPosition : Int
  deriving DecidableEq

namespace OpenFile

/-- `OpenFile::OpenFile`. -/
def new (d : Disk) (sector : Int) : Option OpenFile :=
  (FileHeader.fetchFrom d sector).map fun hdr => ⟨hdr, 0⟩

/-- `OpenFile::Seek`. -/
def seek (f : OpenFile) (position : Int) : OpenFile := { f with seekPosition := position }

/-- `OpenFile::Length`. -/
def fileLength (f : OpenFile) : Int := f.hdr.fileLength

/-- `numBytes` after the check against the end of the file. -/
def clip (f : OpenFile) (numBytes position : Int) : Int :=
  -- The sum is an `int`; when it wraps around, the request is not clipped.
  if wrap32 (position + numBytes) > f.hdr.fileLength then f.hdr.fileLength - position
  else numBytes

/-- `firstSector`: the block of the first byte. -/
def firstSector (position : Int) : Int := position.tdiv sectorSize

/-- `lastSector`: the block of the last byte. -/
def lastSector (numBytes position : Int) : Int :=
  (wrap32 (wrap32 (position + numBytes) - 1)).tdiv sectorSize

/-- The loop of `ReadAt`: `k` blocks from the block `first` on, into a buffer. -/
def readSectors (f : OpenFile) (d : Disk) (first : Int) : ℕ → Option Buffer
  | 0 => some fun _ => 0
  | k + 1 =>
    (f.readSectors d first k).bind fun buf =>
      (f.hdr.byteToSector ((first + k) * sectorSize)).bind fun s =>
        (d.readSector s).map fun data => buf.copy (k * sectorSize) sectorSize data

/-- `OpenFile::ReadAt`: the number of bytes read, and the bytes. -/
def readAt (f : OpenFile) (d : Disk) (numBytes position : Int) : Option (ℕ × Buffer) :=
  if numBytes ≤ 0 ∨ position ≥ f.hdr.fileLength then some (0, fun _ => 0)
  else
    let numBytes := f.clip numBytes position
    let first := firstSector position
    let numSectors := 1 + lastSector numBytes position - first
    -- A negative position is an index before the start of an array; a size of `buf` that is
    -- not positive makes `new` throw, or has no room for the bytes.
    if position < 0 ∨ wrap32 (numSectors * sectorSize) ≤ 0 then none
    else
      (f.readSectors d first numSectors.toNat).map fun buf =>
        (numBytes.toNat, fun i => buf ((position - first * sectorSize).toNat + i))

/-- The buffer of `WriteAt` before the new bytes are copied into it: the first and the last
sector are read if they are only partly written. `junk` is what `new` returns. -/
def readEdges (f : OpenFile) (d : Disk) (junk : Buffer) (numBytes position : Int) :
    Option Buffer :=
  let first := firstSector position
  let last := lastSector numBytes position
  let firstAligned := position = first * sectorSize
  let lastAligned := wrap32 (position + numBytes) = wrap32 ((last + 1) * sectorSize)
  (if ¬ firstAligned then
    (f.readAt d sectorSize (first * sectorSize)).map fun r => junk.copy 0 r.1 r.2
  else some junk).bind fun buf =>
    if ¬ lastAligned ∧ (first ≠ last ∨ firstAligned) then
      (f.readAt d sectorSize (last * sectorSize)).map fun r =>
        buf.copy ((last - first) * sectorSize).toNat r.1 r.2
    else some buf

/-- The loop of `WriteAt`: `k` blocks from the block `first` on, from a buffer. -/
def writeSectors (f : OpenFile) (buf : Buffer) (first : Int) : ℕ → Disk → Option Disk
  | 0, d => some d
  | k + 1, d =>
    (f.writeSectors buf first k d).bind fun d =>
      (f.hdr.byteToSector ((first + k) * sectorSize)).bind fun s =>
        d.writeSector s fun o => buf (k * sectorSize + o)

/-- `OpenFile::WriteAt`: the number of bytes written, and the disk. -/
def writeAt (f : OpenFile) (d : Disk) (junk src : Buffer) (numBytes position : Int) :
    Option (ℕ × Disk) :=
  if numBytes ≤ 0 ∨ position ≥ f.hdr.fileLength then some (0, d)
  else
    let numBytes := f.clip numBytes position
    let first := firstSector position
    let numSectors := 1 + lastSector numBytes position - first
    if position < 0 ∨ wrap32 (numSectors * sectorSize) ≤ 0 then none
    else
      -- The new bytes go over what was read, and whole sectors are written.
      (f.readEdges d junk numBytes position).bind fun buf =>
        (f.writeSectors (buf.copy (position - first * sectorSize).toNat numBytes.toNat src)
          first numSectors.toNat d).map fun d => (numBytes.toNat, d)

/-- `OpenFile::Read`. -/
def read (f : OpenFile) (d : Disk) (numBytes : Int) : Option (ℕ × Buffer × OpenFile) :=
  (f.readAt d numBytes f.seekPosition).map fun r =>
    (r.1, r.2, { f with seekPosition := f.seekPosition + r.1 })

/-- `OpenFile::Write`. -/
def write (f : OpenFile) (d : Disk) (junk src : Buffer) (numBytes : Int) :
    Option (ℕ × Disk × OpenFile) :=
  (f.writeAt d junk src numBytes f.seekPosition).map fun r =>
    (r.1, r.2, { f with seekPosition := f.seekPosition + r.1 })

/-! ### The geometry of a request -/

/-- The end of a request that starts inside the file is an `int`. -/
def Fits (f : OpenFile) (numBytes position : Int) : Prop :=
  position < f.hdr.fileLength → position + numBytes ≤ maxInt

instance (f : OpenFile) (numBytes position : Int) : Decidable (f.Fits numBytes position) :=
  inferInstanceAs (Decidable (_ → _))

/-- The number of bytes a request transfers: those that are below the length of the file. -/
def transferred (f : OpenFile) (numBytes : Int) (position : ℕ) : ℕ :=
  min numBytes.toNat (f.hdr.length - position)

variable {f : OpenFile} {d : Disk} {p : ℕ} {n : Int}

theorem transferred_eq_zero (hreq : n ≤ 0 ∨ (p : Int) ≥ f.hdr.fileLength) :
    f.transferred n p = 0 := by
  unfold transferred FileHeader.length
  unfold FileHeader.fileLength at hreq
  omega

theorem lt_length (hreq : ¬ (n ≤ 0 ∨ (p : Int) ≥ f.hdr.fileLength)) : p < f.hdr.length := by
  unfold FileHeader.length
  unfold FileHeader.fileLength at hreq
  omega

/-- A request that does not overflow is clipped to what is left of the file. -/
theorem clip_of_le {position : Int} (hlo : 0 < position + n) (hhi : position + n ≤ maxInt) :
    f.clip n position = min n (f.hdr.fileLength - position) := by
  unfold clip
  rw [wrap32_of_nonneg (by omega) hhi]
  split <;> omega

theorem clip_eq (hn : 0 < n) (hp : p < f.hdr.length) (hov : p + n ≤ maxInt) :
    f.clip n p = f.transferred n p := by
  rw [clip_of_le (by omega) hov, transferred, FileHeader.fileLength,
    FileHeader.numBytes_eq_of_lt hp]
  omega

/-- A request that is not refused transfers something, inside the file. -/
theorem transferred_of_accepted (hreq : ¬ (n ≤ 0 ∨ (p : Int) ≥ f.hdr.fileLength))
    (hfits : f.Fits n p) :
    0 < f.transferred n p ∧ p + f.transferred n p ≤ f.hdr.length ∧
    f.clip n p = f.transferred n p := by
  have hp := lt_length hreq
  refine ⟨?_, ?_, clip_eq (by omega) hp (hfits (by omega))⟩
  · unfold transferred
    omega
  · unfold transferred
    omega

theorem firstSector_of_nonneg {position : Int} (h : 0 ≤ position) :
    firstSector position = position / sectorSize :=
  Int.tdiv_eq_ediv_of_nonneg h

theorem firstSector_eq (p : ℕ) : firstSector p = (p / sectorSize : ℕ) :=
  firstSector_of_nonneg (Int.natCast_nonneg p)

theorem lastSector_of_mem {position : Int} (hlo : 0 < position + n) (hhi : position + n ≤ maxInt) :
    lastSector n position = (position + n - 1) / sectorSize := by
  rw [lastSector, wrap32_of_nonneg (by omega) hhi,
    wrap32_of_nonneg (by omega) (by omega), Int.tdiv_eq_ediv_of_nonneg (by omega)]

theorem lastSector_eq {k : ℕ} (hk : 0 < k) (hle : p + k ≤ maxFileSize) :
    lastSector k p = ((p + k - 1) / sectorSize : ℕ) := by
  have hmax : maxFileSize = 3840 := rfl
  rw [lastSector_of_mem (by omega) (by unfold maxInt; omega)]
  unfold sectorSize
  omega

/-- The number of blocks a request touches. -/
def span (p k : ℕ) : ℕ := (p + k - 1) / sectorSize - p / sectorSize + 1

/-- What `ReadAt` and `WriteAt` compute for a request inside a file: the sizes are positive and
small, and the blocks are blocks of the file. -/
theorem geometry (hcov : f.hdr.Covers) {k : ℕ} (hk : 0 < k) (hle : p + k ≤ f.hdr.length) :
    1 + lastSector k p - firstSector p = span p k ∧
    wrap32 ((span p k : Int) * sectorSize) = (span p k * sectorSize : ℕ) ∧
    p / sectorSize + span p k ≤ f.hdr.blocks ∧
    ((p : Int) - firstSector p * sectorSize).toNat = p % sectorSize := by
  have hmax : maxFileSize = 3840 := rfl
  have hlen := hcov.length_le
  rw [lastSector_eq hk (by omega), firstSector_eq]
  unfold span FileHeader.blocks sectorSize
  refine ⟨by omega, ?_, by omega, by omega⟩
  rw [← Nat.cast_mul, wrap32_natCast (by omega)]

/-! ### Reading -/

/-- The loop of `ReadAt` collects the blocks one after the other. -/
theorem readSectors_eq (hcov : f.hdr.Covers) (d : Disk) {first m : ℕ}
    (h : first + m ≤ f.hdr.blocks) :
    ∃ buf, f.readSectors d first m = some buf ∧
      ∀ i < m * sectorSize, buf i = d (f.hdr.sector (first + i / sectorSize)) (i % sectorSize) := by
  induction m with
  | zero => exact ⟨_, rfl, fun i hi => by omega⟩
  | succ m ih =>
    obtain ⟨buf, hbuf, hbytes⟩ := ih (by omega)
    have hsector := hcov.byteToSector_eq (k := first + m) (by omega)
    have hlt := hcov.sector_lt (first + m) (by omega)
    refine ⟨buf.copy (m * sectorSize) sectorSize (d (f.hdr.sector (first + m))), ?_, fun i hi => ?_⟩
    · have hcast : ((first : Int) + m) * sectorSize = ((first + m) * sectorSize : ℕ) := by
        push_cast; rfl
      simp only [readSectors, hbuf, Option.bind_some, hcast, hsector, Disk.readSector_natCast d hlt,
        Option.map_some]
    · by_cases him : i < m * sectorSize
      · rw [buf.copy_of_notMem _ (.inl him)]
        exact hbytes i him
      · -- The block that was read last.
        rw [buf.copy_of_mem _ (by omega) (by rw [Nat.succ_mul] at hi; omega)]
        have hdiv : i / sectorSize = m := by unfold sectorSize at *; omega
        have hmod : i % sectorSize = i - m * sectorSize := by unfold sectorSize at *; omega
        rw [hdiv, hmod]

/-- **`ReadAt`** of a request that does not overflow returns the bytes of the file. -/
theorem readAt_eq (hcov : f.hdr.Covers) (d : Disk) (hfits : f.Fits n p) :
    ∃ bytes, f.readAt d n p = some (f.transferred n p, bytes) ∧
      ∀ i < f.transferred n p, bytes i = fileByte d f.hdr (p + i) := by
  by_cases hreq : n ≤ 0 ∨ (p : Int) ≥ f.hdr.fileLength
  · have hzero := transferred_eq_zero hreq
    refine ⟨fun _ => 0, ?_, fun i hi => by omega⟩
    rw [readAt, if_pos hreq, hzero]
  · obtain ⟨hk, hle, hclip⟩ := transferred_of_accepted hreq hfits
    obtain ⟨hnum, hsize, hblocks, hoff⟩ := geometry hcov hk hle
    obtain ⟨buf, hbuf, hbytes⟩ := readSectors_eq hcov d hblocks
    refine ⟨fun i => buf (p % sectorSize + i), ?_, fun i hi => ?_⟩
    · rw [readAt, if_neg hreq]
      simp only [hclip, hnum, hsize, hoff, Int.toNat_natCast]
      rw [if_neg (by unfold span sectorSize; omega), firstSector_eq, hbuf]
      rfl
    · -- Where the byte is in the buffer, it is in the file.
      have hin : p % sectorSize + i < span p (f.transferred n p) * sectorSize := by
        unfold span sectorSize
        omega
      have hdiv : p / sectorSize + (p % sectorSize + i) / sectorSize = (p + i) / sectorSize := by
        unfold sectorSize
        omega
      have hmod : (p % sectorSize + i) % sectorSize = (p + i) % sectorSize := by
        unfold sectorSize
        omega
      show buf (p % sectorSize + i) = _
      rw [hbytes _ hin, hdiv, hmod]
      rfl

/-! ### Writing -/

/-- `ReadAt` of one block of a file gives those of its bytes that are below the length. -/
theorem readBlock_eq (hcov : f.hdr.Covers) (d : Disk) {b : ℕ}
    (hb : b * sectorSize ≤ maxFileSize) :
    ∃ r, f.readAt d sectorSize ((b : Int) * sectorSize) = some r ∧
      ∀ o < f.hdr.length, b * sectorSize ≤ o → o < (b + 1) * sectorSize →
        o - b * sectorSize < r.1 ∧ r.2 (o - b * sectorSize) = fileByte d f.hdr o := by
  have hmax : maxFileSize = 3840 := rfl
  have hsec : sectorSize = 128 := rfl
  obtain ⟨bytes, hread, hval⟩ :=
    readAt_eq hcov d (p := b * sectorSize) (n := sectorSize) (fun _ => by unfold maxInt; omega)
  rw [Nat.cast_mul] at hread
  refine ⟨_, hread, fun o ho hlo hhi => ?_⟩
  have hin : o - b * sectorSize < f.transferred sectorSize (b * sectorSize) := by
    rw [transferred, Int.toNat_natCast, Nat.lt_min]
    rw [Nat.succ_mul] at hhi
    omega
  refine ⟨hin, ?_⟩
  show bytes (o - b * sectorSize) = _
  rw [hval _ hin, Nat.add_sub_cancel' hlo]

/-- The first of the two reads of `WriteAt`: the block in which the request starts, unless it is
written from its start. -/
theorem readFirst_eq (hcov : f.hdr.Covers) (d : Disk) (junk : Buffer) {F : ℕ}
    (hF : F * sectorSize ≤ maxFileSize) :
    ∃ buf,
      (if ¬ p = F * sectorSize then
        (f.readAt d sectorSize ((F : Int) * sectorSize)).map fun r => junk.copy 0 r.1 r.2
      else some junk) = some buf ∧
      (p ≠ F * sectorSize → ∀ o < f.hdr.length, F * sectorSize ≤ o → o < (F + 1) * sectorSize →
        buf (o - F * sectorSize) = fileByte d f.hdr o) := by
  by_cases hstart : p = F * sectorSize
  · exact ⟨junk, if_neg (by simpa using hstart), fun h => absurd hstart h⟩
  · obtain ⟨r, hr, hval⟩ := readBlock_eq hcov d hF
    refine ⟨junk.copy 0 r.1 r.2, ?_, fun _ o ho hlo hhi => ?_⟩
    · rw [if_pos hstart, hr]
      rfl
    · obtain ⟨hin, hbyte⟩ := hval o ho hlo hhi
      rw [junk.copy_of_mem _ (Nat.zero_le _) (by omega), Nat.sub_zero, hbyte]

/-- The buffer of `WriteAt` holds the bytes of the touched blocks that are not going to be
overwritten. -/
theorem readEdges_eq (hcov : f.hdr.Covers) (d : Disk) (junk : Buffer) {k : ℕ} (hk : 0 < k)
    (hle : p + k ≤ f.hdr.length) :
    ∃ buf, f.readEdges d junk k p = some buf ∧
      ∀ o < f.hdr.length, p / sectorSize * sectorSize ≤ o →
        o < ((p + k - 1) / sectorSize + 1) * sectorSize → o < p ∨ p + k ≤ o →
        buf (o - p / sectorSize * sectorSize) = fileByte d f.hdr o := by
  have hmax : maxFileSize = 3840 := rfl
  have hlen := hcov.length_le
  have hfirst := firstSector_eq p
  have hlast := lastSector_eq hk (p := p) (by omega)
  have hpF : p / sectorSize * sectorSize ≤ p ∧ p < (p / sectorSize + 1) * sectorSize := by
    unfold sectorSize
    omega
  have hpL : (p + k - 1) / sectorSize * sectorSize < p + k ∧
      p + k ≤ ((p + k - 1) / sectorSize + 1) * sectorSize := by
    unfold sectorSize
    omega
  have hFL : p / sectorSize ≤ (p + k - 1) / sectorSize := Nat.div_le_div_right (by omega)
  generalize p / sectorSize = F at *
  generalize (p + k - 1) / sectorSize = L at *
  -- Inside a file nothing wraps around, so the alignment tests compare natural numbers.
  have haligned : wrap32 ((p : Int) + k) = wrap32 (((L : Int) + 1) * sectorSize) ↔
      p + k = (L + 1) * sectorSize := by
    have hcast : ((L : Int) + 1) * sectorSize = ((L + 1) * sectorSize : ℕ) := by push_cast; rfl
    have hcast' : (p : Int) + k = (p + k : ℕ) := by push_cast; rfl
    rw [hcast, hcast', wrap32_natCast (by omega),
      wrap32_natCast (by unfold sectorSize at *; omega), Int.natCast_inj]
  have hfirstAligned : (p : Int) = (F : Int) * sectorSize ↔ p = F * sectorSize := by
    rw [← Nat.cast_mul, Int.natCast_inj]
  -- The first block, and then the last one unless it is the first block again.
  obtain ⟨buf, hbuf, hfirstBytes⟩ := readFirst_eq hcov d junk (p := p) (F := F) (by omega)
  unfold readEdges
  simp only [hfirst, hlast, haligned, hfirstAligned, hbuf, Option.bind_some, ne_eq,
    Int.natCast_inj]
  by_cases hcond : ¬ p + k = (L + 1) * sectorSize ∧ (¬ F = L ∨ p = F * sectorSize)
  · -- The last block is read too.
    obtain ⟨r, hr, hval⟩ := readBlock_eq hcov d (b := L) (by omega)
    have hoff : (((L : Int) - F) * sectorSize).toNat = (L - F) * sectorSize := by
      unfold sectorSize
      omega
    rw [if_pos hcond, hr, hoff]
    refine ⟨buf.copy ((L - F) * sectorSize) r.1 r.2, rfl, fun o ho hlo hhi hout => ?_⟩
    rcases hout with hbefore | hafter
    · rw [buf.copy_of_notMem _ (.inl (by unfold sectorSize at *; omega))]
      exact hfirstBytes (by omega) o ho hlo (by omega)
    · obtain ⟨hin, hbyte⟩ := hval o ho (by omega) hhi
      have hidx : o - F * sectorSize - (L - F) * sectorSize = o - L * sectorSize := by
        unfold sectorSize at *
        omega
      rw [buf.copy_of_mem _ (by unfold sectorSize at *; omega) (by unfold sectorSize at *; omega),
        hidx, hbyte]
  · -- The bytes that stay are in the first block.
    rw [if_neg hcond]
    refine ⟨buf, rfl, fun o ho hlo hhi hout => hfirstBytes ?_ o ho hlo ?_⟩
    · unfold sectorSize at *; omega
    · unfold sectorSize at *; omega

/-- The loop of `WriteAt` stores the blocks one after the other. -/
theorem writeSectors_eq (hcov : f.hdr.Covers) (d : Disk) (buf : Buffer) {first m : ℕ}
    (h : first + m ≤ f.hdr.blocks) :
    ∃ d', f.writeSectors buf first m d = some d' ∧
      (∀ s, (∀ j < m, f.hdr.sector (first + j) ≠ s) → d' s = d s) ∧
      ∀ j < m, ∀ o, d' (f.hdr.sector (first + j)) o = buf (j * sectorSize + o) := by
  induction m with
  | zero => exact ⟨d, rfl, fun _ _ => rfl, fun j hj => by omega⟩
  | succ m ih =>
    obtain ⟨d', hd', hother, hbytes⟩ := ih (by omega)
    have hsector := hcov.byteToSector_eq (k := first + m) (by omega)
    have hlt := hcov.sector_lt (first + m) (by omega)
    refine ⟨update d' (f.hdr.sector (first + m)) fun o => buf (m * sectorSize + o),
      ?_, fun s hs => ?_, fun j hj o => ?_⟩
    · have hcast : ((first : Int) + m) * sectorSize = ((first + m) * sectorSize : ℕ) := by
        push_cast; rfl
      simp only [writeSectors, hd', Option.bind_some, hcast, hsector,
        Disk.writeSector_natCast d' hlt]
    · rw [update_of_ne (hs m (by omega)).symm]
      exact hother s fun j hj => hs j (by omega)
    · by_cases hjm : j = m
      · subst hjm
        rw [update_self]
      · -- Another block is in another sector.
        have hne : f.hdr.sector (first + j) ≠ f.hdr.sector (first + m) := by
          intro heq
          have := hcov.sector_inj (by omega) (by omega) heq
          omega
        rw [update_of_ne hne]
        exact hbytes j (by omega) o

/-- The bytes of the file after the loop: those of the stored blocks come from the buffer. -/
theorem fileByte_writeSectors (hcov : f.hdr.Covers) (d : Disk) (buf : Buffer) {first m : ℕ}
    (h : first + m ≤ f.hdr.blocks) :
    ∃ d', f.writeSectors buf first m d = some d' ∧ (∀ s, s ∉ f.hdr.sectors → d' s = d s) ∧
      ∀ o < f.hdr.length, fileByte d' f.hdr o =
        if first ≤ o / sectorSize ∧ o / sectorSize < first + m then buf (o - first * sectorSize)
        else fileByte d f.hdr o := by
  obtain ⟨d', hd', hother, hbytes⟩ := writeSectors_eq hcov d buf h
  refine ⟨d', hd', fun s hs => hother s fun j hj heq => hs ?_, fun o ho => ?_⟩
  · exact FileHeader.mem_sectors.mpr ⟨_, by omega, heq⟩
  · unfold fileByte
    by_cases htouched : first ≤ o / sectorSize ∧ o / sectorSize < first + m
    · obtain ⟨j, hj⟩ := Nat.exists_eq_add_of_le htouched.1
      have hoff : j * sectorSize + o % sectorSize = o - first * sectorSize := by
        unfold sectorSize at *
        omega
      rw [if_pos htouched, hj, hbytes j (by omega), hoff]
    · -- The block of the byte is in a sector that was not written.
      rw [if_neg htouched, hother]
      intro j hj heq
      have hsame := hcov.sector_inj (by omega) (FileHeader.div_lt_blocks ho) heq
      omega

/-- **`WriteAt`** of a request that does not overflow changes the requested bytes of the file,
no other byte of it, and no sector outside of it. -/
theorem writeAt_eq (hcov : f.hdr.Covers) (d : Disk) (junk src : Buffer) (hfits : f.Fits n p) :
    ∃ d', f.writeAt d junk src n p = some (f.transferred n p, d') ∧
      (∀ s, s ∉ f.hdr.sectors → d' s = d s) ∧
      ∀ o < f.hdr.length, fileByte d' f.hdr o =
        if p ≤ o ∧ o < p + f.transferred n p then src (o - p) else fileByte d f.hdr o := by
  by_cases hreq : n ≤ 0 ∨ (p : Int) ≥ f.hdr.fileLength
  · have hzero := transferred_eq_zero hreq
    refine ⟨d, ?_, fun _ _ => rfl, fun o _ => ?_⟩
    · rw [writeAt, if_pos hreq, hzero]
    · rw [hzero, if_neg (by omega)]
  · obtain ⟨hk, hle, hclip⟩ := transferred_of_accepted hreq hfits
    obtain ⟨hnum, hsize, hblocks, hoff⟩ := geometry hcov hk hle
    obtain ⟨buf, hbuf, hedges⟩ := readEdges_eq hcov d junk hk hle
    obtain ⟨d', hd', hother, hbytes⟩ := fileByte_writeSectors hcov d
      (buf.copy (p % sectorSize) (f.transferred n p) src) hblocks
    generalize f.transferred n p = k at *
    refine ⟨d', ?_, hother, fun o ho => ?_⟩
    · rw [writeAt, if_neg hreq]
      simp only [hclip, hnum, hsize, hoff, Int.toNat_natCast]
      rw [if_neg (by unfold span sectorSize; omega), hbuf, firstSector_eq, Option.bind_some, hd']
      rfl
    · rw [hbytes o ho]
      by_cases htouched : p / sectorSize ≤ o / sectorSize ∧
        o / sectorSize < p / sectorSize + span p k
      · -- The block of the byte was written from the buffer.
        rw [if_pos htouched]
        split
        · rename_i hin
          have hoff : o - p / sectorSize * sectorSize - p % sectorSize = o - p := by
            unfold sectorSize
            omega
          rw [buf.copy_of_mem _ (by unfold sectorSize; omega) (by unfold sectorSize; omega), hoff]
        · rename_i hout
          rw [buf.copy_of_notMem _ (by unfold sectorSize at *; omega)]
          refine hedges o ho ?_ ?_ (by omega)
          · unfold sectorSize at *; omega
          · unfold span sectorSize at *; omega
      · rw [if_neg htouched, if_neg (by unfold span sectorSize at *; omega)]

/-! ### Whole files -/

theorem transferred_all (f : OpenFile) : f.transferred f.hdr.length 0 = f.hdr.length := by
  simp [transferred]

theorem readAt_all (hwf : f.hdr.WellFormed) (d : Disk) :
    ∃ bytes, f.readAt d f.hdr.length 0 = some (f.hdr.length, bytes) ∧
      ∀ i < f.hdr.length, bytes i = fileByte d f.hdr i := by
  have hlen : f.hdr.length ≤ 3840 := hwf.length_le
  obtain ⟨bytes, hread, hval⟩ :=
    readAt_eq hwf.covers d (p := 0) (n := f.hdr.length) (fun _ => by unfold maxInt; omega)
  rw [transferred_all] at hread hval
  exact ⟨bytes, hread, fun i hi => by rw [hval i hi, Nat.zero_add]⟩

theorem writeAt_all (hwf : f.hdr.WellFormed) (d : Disk) (junk src : Buffer) :
    ∃ d', f.writeAt d junk src f.hdr.length 0 = some (f.hdr.length, d') ∧
      (∀ s, s ∉ f.hdr.sectors → d' s = d s) ∧
      ∀ o < f.hdr.length, fileByte d' f.hdr o = src o := by
  have hlen : f.hdr.length ≤ 3840 := hwf.length_le
  obtain ⟨d', hwrite, hother, hval⟩ :=
    writeAt_eq hwf.covers d junk src (p := 0) (n := f.hdr.length) (fun _ => by unfold maxInt; omega)
  rw [transferred_all] at hwrite hval
  refine ⟨d', hwrite, hother, fun o ho => ?_⟩
  rw [hval o ho, if_pos (by omega), Nat.sub_zero]

end OpenFile

end Nachos.FileSys
