import Nachos.FileSys.OpenFile

namespace Nachos.FileSys

open Base Lib

/-!
# FileSys — what a request touches

`ReadAt` and `WriteAt` for every request, those that overflow included.

* `byte_array_access` — a request that does not overflow acts on the file as on an array of bytes;
* `OpenFile.readAccess`, `OpenFile.writeAccess` — the blocks whose sectors a call looks up in the
  header, and the bytes it transfers, without the disk. `readAt_congr`, `writeAt_congr` say that a
  call depends on no other entry of the header, `readAt_eq_none`, `writeAt_eq_none` that it needs
  all of these;
* `access_inside_iff` — a call stays inside the file unless the end of the request overflows and
  `new` does not throw;
* `writeAt_overflow` — on a file that fits its header such a write does not get to its end.
-/

/-! ### Requests that do not overflow -/

/-- How many bytes a request should transfer. -/
def accessCount (fileLength numBytes position : Int) : ℕ :=
  if numBytes ≤ 0 ∨ position ≥ fileLength then 0 else (min numBytes (fileLength - position)).toNat

namespace OpenFile

variable {f g : OpenFile}

theorem transferred_eq_accessCount (f : OpenFile) (n : Int) (p : ℕ) :
    f.transferred n p = accessCount f.hdr.fileLength n p := by
  unfold accessCount
  split
  · rename_i hreq
    exact transferred_eq_zero hreq
  · rename_i hreq
    have hlen := FileHeader.numBytes_eq_of_lt (lt_length hreq)
    unfold transferred FileHeader.fileLength
    rw [hlen]
    omega

end OpenFile

/-- **A file is an array of bytes.** For a header whose data sectors are distinct sectors of the
disk and cover its length, and a request whose end is an `int`, `WriteAt` changes the bytes of
the request that are below the length, no other byte of the file and no other sector; `ReadAt`
returns them, and it has no disk to change. -/
theorem byte_array_access (f : OpenFile) (hcov : f.hdr.Covers) (d : Disk) (junk src : Buffer)
    (numBytes position : Int) (hpos : 0 ≤ position) (hend : position + numBytes < 2 ^ 31) :
    (∃ d', f.writeAt d junk src numBytes position
        = some (accessCount f.hdr.fileLength numBytes position, d') ∧
      (∀ o : ℕ, (o : Int) < f.hdr.fileLength → fileByte d' f.hdr o =
        if position ≤ o ∧ o < position + accessCount f.hdr.fileLength numBytes position
        then src (o - position.toNat) else fileByte d f.hdr o) ∧
      ∀ s, s ∉ f.hdr.sectors → d' s = d s) ∧
    ∃ bytes, f.readAt d numBytes position
        = some (accessCount f.hdr.fileLength numBytes position, bytes) ∧
      ∀ i < accessCount f.hdr.fileLength numBytes position,
        bytes i = fileByte d f.hdr (position.toNat + i) := by
  obtain ⟨p, rfl⟩ := Int.eq_ofNat_of_zero_le hpos
  have hfits : f.Fits numBytes p := fun _ => by unfold maxInt; omega
  obtain ⟨d', hwrite, hother, hbytes⟩ := OpenFile.writeAt_eq hcov d junk src hfits
  obtain ⟨bytes, hread, hval⟩ := OpenFile.readAt_eq hcov d hfits
  rw [OpenFile.transferred_eq_accessCount] at hwrite hbytes hread hval
  refine ⟨⟨d', hwrite, fun o ho => ?_, hother⟩, bytes, hread, fun i hi => ?_⟩
  · have hlt : o < f.hdr.length := by
      unfold FileHeader.length
      unfold FileHeader.fileLength at ho
      omega
    rw [hbytes o hlt, Int.toNat_natCast]
    refine if_congr ?_ rfl rfl
    omega
  · rw [hval i hi, Int.toNat_natCast]

/-- A write of 200 bytes at position 100 of a file of 130 bytes in the sectors 7 and 3. -/
theorem byte_array_access_two_sectors :
    ∃ (f : OpenFile) (d' : Disk), f.hdr.fileLength = 130 ∧
      f.writeAt (fun _ _ => 0) (fun _ => 255) (fun i => UInt8.ofNat i) 200 100 = some (30, d') ∧
      fileByte d' f.hdr 99 = 0 ∧ fileByte d' f.hdr 129 = 29 := by
  have hcov : (FileHeader.mk 130 2 ((Vector.replicate numDirect 0).set 0 7 |>.set 1 3)).Covers :=
    ⟨by decide +kernel, by decide +kernel, by decide +kernel⟩
  obtain ⟨⟨d', hwrite, hbytes, -⟩, -⟩ := byte_array_access
    ⟨⟨130, 2, (Vector.replicate numDirect 0).set 0 7 |>.set 1 3⟩, 0⟩ hcov (fun _ _ => 0)
    (fun _ => 255) (fun i => UInt8.ofNat i) 200 100 (by decide) (by decide)
  refine ⟨_, d', rfl, hwrite, ?_, ?_⟩
  · exact hbytes 99 (by decide)
  · exact hbytes 129 (by decide)

/-! ### What a call looks up in the header -/

/-- The blocks whose sectors a call looks up, in order, and the number of bytes it transfers. -/
structure Access where
  blocks : List Int
  bytes : Int

namespace OpenFile

/-- `numSectors`. -/
def numSectors (numBytes position : Int) : Int :=
  1 + lastSector numBytes position - firstSector position

/-- The size of `buf`. -/
def bufferSize (numBytes position : Int) : Int := wrap32 (numSectors numBytes position * sectorSize)

/-- The blocks from `firstSector` to `lastSector`. -/
def loopBlocks (numBytes position : Int) : List Int :=
  (List.range (numSectors numBytes position).toNat).map fun i => firstSector position + i

/-- What `ReadAt` accesses; `none` if the size of `buf` makes `new` throw before it accesses
anything. -/
def readAccess (f : OpenFile) (numBytes position : Int) : Option Access :=
  if numBytes ≤ 0 ∨ position ≥ f.hdr.fileLength then some ⟨[], 0⟩
  else
    let numBytes := f.clip numBytes position
    if bufferSize numBytes position ≤ 0 then none
    else some ⟨loopBlocks numBytes position, numBytes⟩

/-- The blocks that a `ReadAt` looks up. -/
def readBlocks (f : OpenFile) (numBytes position : Int) : List Int :=
  (f.readAccess numBytes position).elim [] Access.blocks

/-- The blocks that the reads of `WriteAt` look up: the first one if it is only partly written,
and the last one. -/
def edgeBlocks (f : OpenFile) (numBytes position : Int) : List Int :=
  let first := firstSector position
  let last := lastSector numBytes position
  let firstAligned := position = first * sectorSize
  let lastAligned := wrap32 (position + numBytes) = wrap32 ((last + 1) * sectorSize)
  (if ¬ firstAligned then f.readBlocks sectorSize (first * sectorSize) else []) ++
    if ¬ lastAligned ∧ (first ≠ last ∨ firstAligned) then
      f.readBlocks sectorSize (last * sectorSize)
    else []

/-- What `WriteAt` accesses. -/
def writeAccess (f : OpenFile) (numBytes position : Int) : Option Access :=
  if numBytes ≤ 0 ∨ position ≥ f.hdr.fileLength then some ⟨[], 0⟩
  else
    let numBytes := f.clip numBytes position
    if bufferSize numBytes position ≤ 0 then none
    else some ⟨f.edgeBlocks numBytes position ++ loopBlocks numBytes position, numBytes⟩

variable {f g : OpenFile} {n p : Int} {b first : Int}

theorem mem_loopBlocks :
    b ∈ loopBlocks n p ↔ ∃ i < (numSectors n p).toNat, firstSector p + (i : ℕ) = b := by
  simp [loopBlocks]

theorem mem_loopBlocks_iff :
    b ∈ loopBlocks n p ↔ firstSector p ≤ b ∧ b ≤ lastSector n p := by
  rw [mem_loopBlocks, numSectors]
  constructor
  · rintro ⟨i, hi, rfl⟩
    omega
  · rintro ⟨hlo, hhi⟩
    exact ⟨(b - firstSector p).toNat, by omega, by omega⟩

section Served

variable (hreq : ¬ (n ≤ 0 ∨ p ≥ f.hdr.fileLength))

include hreq

/-- The four functions on a request that is served. -/
theorem readAccess_eq : f.readAccess n p = if bufferSize (f.clip n p) p ≤ 0 then none
    else some ⟨loopBlocks (f.clip n p) p, f.clip n p⟩ := if_neg hreq

theorem writeAccess_eq : f.writeAccess n p = if bufferSize (f.clip n p) p ≤ 0 then none
    else some ⟨f.edgeBlocks (f.clip n p) p ++ loopBlocks (f.clip n p) p, f.clip n p⟩ :=
  if_neg hreq

theorem readAt_served (d : Disk) :
    f.readAt d n p = if p < 0 ∨ bufferSize (f.clip n p) p ≤ 0 then none
      else (f.readSectors d (firstSector p) (numSectors (f.clip n p) p).toNat).map fun buf =>
        ((f.clip n p).toNat, fun i => buf ((p - firstSector p * sectorSize).toNat + i)) :=
  if_neg hreq

theorem writeAt_served (d : Disk) (junk src : Buffer) :
    f.writeAt d junk src n p = if p < 0 ∨ bufferSize (f.clip n p) p ≤ 0 then none
      else (f.readEdges d junk (f.clip n p) p).bind fun buf =>
        (f.writeSectors (buf.copy (p - firstSector p * sectorSize).toNat (f.clip n p).toNat src)
          (firstSector p) (numSectors (f.clip n p) p).toNat d).map fun d =>
          ((f.clip n p).toNat, d) :=
  if_neg hreq

end Served

/-! ### The calls look up these blocks and no others -/

/-- The loop of `ReadAt` looks up its blocks only. -/
theorem readSectors_congr (d : Disk) {m : ℕ}
    (h : ∀ i < m, g.hdr.byteToSector ((first + i) * sectorSize)
      = f.hdr.byteToSector ((first + i) * sectorSize)) :
    g.readSectors d first m = f.readSectors d first m := by
  induction m with
  | zero => rfl
  | succ m ih =>
    rw [readSectors, readSectors, ih fun i hi => h i (by omega), h m (by omega)]

theorem readSectors_eq_none (d : Disk) {m i : ℕ} (hi : i < m)
    (h : f.hdr.byteToSector ((first + i) * sectorSize) = none) :
    f.readSectors d first m = none := by
  induction m with
  | zero => omega
  | succ m ih =>
    rw [readSectors]
    by_cases him : i = m
    · subst him
      rw [h]
      cases f.readSectors d first i <;> rfl
    · rw [ih (by omega)]
      rfl

/-- The loop of `WriteAt` looks up its blocks only. -/
theorem writeSectors_congr (d : Disk) (buf : Buffer) {m : ℕ}
    (h : ∀ i < m, g.hdr.byteToSector ((first + i) * sectorSize)
      = f.hdr.byteToSector ((first + i) * sectorSize)) :
    g.writeSectors buf first m d = f.writeSectors buf first m d := by
  induction m with
  | zero => rfl
  | succ m ih =>
    rw [writeSectors, writeSectors, ih fun i hi => h i (by omega), h m (by omega)]

theorem writeSectors_eq_none (d : Disk) (buf : Buffer) {m i : ℕ} (hi : i < m)
    (h : f.hdr.byteToSector ((first + i) * sectorSize) = none) :
    f.writeSectors buf first m d = none := by
  induction m with
  | zero => omega
  | succ m ih =>
    rw [writeSectors]
    by_cases him : i = m
    · subst him
      rw [h]
      cases f.writeSectors buf first i d <;> rfl
    · rw [ih (by omega)]
      rfl

/-- `ReadAt` depends on the length of the file and on the sectors of these blocks. -/
theorem readAt_congr (d : Disk) (hlen : g.hdr.fileLength = f.hdr.fileLength)
    (h : ∀ b ∈ f.readBlocks n p,
      g.hdr.byteToSector (b * sectorSize) = f.hdr.byteToSector (b * sectorSize)) :
    g.readAt d n p = f.readAt d n p := by
  by_cases hreq : n ≤ 0 ∨ p ≥ f.hdr.fileLength
  · rw [readAt, readAt, hlen, if_pos hreq, if_pos hreq]
  · have hclip : g.clip n p = f.clip n p := by unfold clip; rw [hlen]
    rw [readAt_served hreq, readAt_served (by rw [hlen]; exact hreq), hclip]
    split
    · rfl
    · rename_i hsize
      rw [readSectors_congr d fun i hi => h _ ?_]
      rw [readBlocks, readAccess_eq hreq, if_neg fun hneg => hsize (.inr hneg)]
      exact mem_loopBlocks.mpr ⟨i, hi, rfl⟩

/-- It does not return if one of them has no sector. -/
theorem readAt_eq_none (d : Disk) (hb : b ∈ f.readBlocks n p)
    (h : f.hdr.byteToSector (b * sectorSize) = none) : f.readAt d n p = none := by
  by_cases hreq : n ≤ 0 ∨ p ≥ f.hdr.fileLength
  · rw [readBlocks, readAccess, if_pos hreq] at hb
    cases hb
  · rw [readBlocks, readAccess_eq hreq] at hb
    rw [readAt_served hreq]
    split at hb
    · cases hb
    · obtain ⟨i, hi, rfl⟩ := mem_loopBlocks.mp hb
      rw [readSectors_eq_none d hi h, Option.map_none, ite_self]

/-- The reads of `WriteAt` depend on their blocks. -/
theorem readEdges_congr (d : Disk) (junk : Buffer) (hlen : g.hdr.fileLength = f.hdr.fileLength)
    (h : ∀ b ∈ f.edgeBlocks n p,
      g.hdr.byteToSector (b * sectorSize) = f.hdr.byteToSector (b * sectorSize)) :
    g.readEdges d junk n p = f.readEdges d junk n p := by
  simp only [edgeBlocks, List.mem_append] at h
  unfold readEdges
  dsimp only
  congr 1
  · split
    · rename_i hfirst
      rw [readAt_congr d hlen fun b hb => h b (.inl (by rwa [if_pos hfirst]))]
    · rfl
  · ext1 buf
    split
    · rename_i hlast
      rw [readAt_congr d hlen fun b hb => h b (.inr (by rwa [if_pos hlast]))]
    · rfl

theorem readEdges_eq_none (d : Disk) (junk : Buffer) (hb : b ∈ f.edgeBlocks n p)
    (h : f.hdr.byteToSector (b * sectorSize) = none) : f.readEdges d junk n p = none := by
  unfold readEdges
  dsimp only
  rw [edgeBlocks, List.mem_append] at hb
  rcases hb with hb | hb
  · split at hb
    · rename_i hfirst
      rw [if_pos hfirst, readAt_eq_none d hb h]
      rfl
    · cases hb
  · split at hb
    · rename_i hlast
      simp only [if_pos hlast, readAt_eq_none d hb h, Option.map_none]
      exact Option.bind_fun_none _
    · cases hb

/-- `WriteAt` depends on the length of the file and on the sectors of these blocks. -/
theorem writeAt_congr (d : Disk) (junk src : Buffer) (hlen : g.hdr.fileLength = f.hdr.fileLength)
    (h : ∀ a, f.writeAccess n p = some a → ∀ b ∈ a.blocks,
      g.hdr.byteToSector (b * sectorSize) = f.hdr.byteToSector (b * sectorSize)) :
    g.writeAt d junk src n p = f.writeAt d junk src n p := by
  by_cases hreq : n ≤ 0 ∨ p ≥ f.hdr.fileLength
  · rw [writeAt, writeAt, hlen, if_pos hreq, if_pos hreq]
  · have hclip : g.clip n p = f.clip n p := by unfold clip; rw [hlen]
    rw [writeAt_served hreq, writeAt_served (by rw [hlen]; exact hreq), hclip]
    split
    · rfl
    · rename_i hsize
      have ha := writeAccess_eq hreq
      rw [if_neg fun hneg => hsize (.inr hneg)] at ha
      have hb := h _ ha
      simp only [List.mem_append] at hb
      rw [readEdges_congr d junk hlen fun b hb' => hb b (.inl hb')]
      congr 1
      ext1 buf
      rw [writeSectors_congr d _ fun i hi => hb _ (.inr (mem_loopBlocks.mpr ⟨i, hi, rfl⟩))]

/-- It does not return if one of them has no sector. -/
theorem writeAt_eq_none (d : Disk) (junk src : Buffer) {a : Access}
    (ha : f.writeAccess n p = some a) (hb : b ∈ a.blocks)
    (h : f.hdr.byteToSector (b * sectorSize) = none) : f.writeAt d junk src n p = none := by
  by_cases hreq : n ≤ 0 ∨ p ≥ f.hdr.fileLength
  · rw [writeAccess, if_pos hreq] at ha
    cases ha
    cases hb
  · rw [writeAccess_eq hreq] at ha
    rw [writeAt_served hreq]
    split at ha
    · cases ha
    · cases ha
      rcases List.mem_append.mp hb with hb | hb
      · rw [readEdges_eq_none d junk hb h, Option.bind_none, ite_self]
      · obtain ⟨i, hi, rfl⟩ := mem_loopBlocks.mp hb
        simp only [writeSectors_eq_none d _ hi h, Option.map_none]
        rw [Option.bind_fun_none, ite_self]

/-! ### Staying inside the file -/

/-- A block inside the file is looked up alone, also when the end of the request for it
overflows. -/
theorem readAccess_block (hb : 0 ≤ b) (hlt : b * sectorSize < f.hdr.fileLength)
    (hlen : f.hdr.fileLength ≤ maxInt) : f.readBlocks sectorSize (b * sectorSize) = [b] := by
  have hfirst : firstSector (b * sectorSize) = b := Int.mul_tdiv_cancel b (by decide)
  have hlast : lastSector (f.clip sectorSize (b * sectorSize)) (b * sectorSize) = b := by
    unfold maxInt at hlen
    unfold sectorSize at hlt ⊢
    by_cases hov : b * 128 + 128 ≤ maxInt
    · unfold clip
      rw [wrap32_of_nonneg (by omega) (by push_cast; omega)]
      split
      · rw [lastSector_of_mem (by omega) (by unfold maxInt; omega)]
        unfold sectorSize
        omega
      · rw [lastSector_of_mem (by omega) (by push_cast; omega)]
        unfold sectorSize
        omega
    · -- The last block below `INT_MAX`: its end wraps around, and one less wraps back.
      have hb' : b = 16777215 := by unfold maxInt at hov; omega
      subst hb'
      have hwrap :
          ¬ wrap32 (16777215 * ((128 : ℕ) : Int) + ((128 : ℕ) : Int)) > f.hdr.fileLength := by
        have hneg : wrap32 (16777215 * ((128 : ℕ) : Int) + ((128 : ℕ) : Int)) = -2147483648 := by
          decide
        rw [hneg]
        omega
      rw [clip, if_neg hwrap]
      decide
  have hnum : numSectors (f.clip sectorSize (b * sectorSize)) (b * sectorSize) = 1 := by
    rw [numSectors, hlast, hfirst]
    omega
  have hreq : ¬ ((sectorSize : Int) ≤ 0 ∨ b * sectorSize ≥ f.hdr.fileLength) := by
    unfold sectorSize at *
    omega
  rw [readBlocks, readAccess_eq hreq, if_neg (by rw [bufferSize, hnum]; decide)]
  simp [loopBlocks, hnum, hfirst]

theorem mem_loopBlocks_of_mem (hp : 0 ≤ p) (hn : 0 < n) (hov : p + n ≤ maxInt) :
    b ∈ loopBlocks n p ↔ p / sectorSize ≤ b ∧ b ≤ (p + n - 1) / sectorSize := by
  rw [mem_loopBlocks_iff, firstSector_of_nonneg hp, lastSector_of_mem (by omega) hov]

/-- A request that overflows is not clipped. -/
theorem clip_of_gt (hlt : p < f.hdr.fileLength) (hlen : f.hdr.fileLength ≤ maxInt)
    (hn : n ≤ maxInt) (hov : maxInt < p + n) : f.clip n p = n := by
  unfold clip
  rw [wrap32_of_gt hov (by omega), if_neg]
  unfold maxInt at *
  omega

/-- The last block of a request that overflows: the largest number for one that ends at 2³¹, and
otherwise what the wrapped end gives, rounded toward zero. -/
theorem lastSector_of_gt (hp : p ≤ maxInt) (hn : n ≤ maxInt) (hov : maxInt < p + n) :
    p + n = 2147483648 ∧ lastSector n p = 16777215 ∨
    lastSector n p = -((4294967297 - (p + n)) / sectorSize) := by
  have hsum := wrap32_of_gt hov (by omega)
  unfold maxInt at *
  rw [lastSector, hsum]
  by_cases hend : p + n = 2147483648
  · left
    rw [hend]
    decide
  · right
    have hneg : p + n - 4294967296 - 1 = -(4294967297 - (p + n)) := by omega
    rw [wrap32_eq_self (by unfold minInt; omega) (by unfold maxInt; omega), hneg, Int.neg_tdiv,
      Int.tdiv_eq_ediv_of_nonneg (by omega)]

end OpenFile

/-- The blocks are blocks of the file, and no more bytes are transferred than it has behind the
position. -/
structure Access.Inside (a : Access) (fileLength position : Int) : Prop where
  blocks : ∀ b ∈ a.blocks, 0 ≤ b ∧ b < (fileLength + sectorSize - 1) / sectorSize
  bytes : a.bytes ≤ max 0 (fileLength - position)

namespace OpenFile

variable {f : OpenFile} {n p : Int}

/-- The reads of `WriteAt` look up the first and the last block of the request. -/
theorem mem_edgeBlocks (hp : 0 ≤ p) (hn : 0 < n) (hle : p + n ≤ f.hdr.fileLength)
    (hlen : f.hdr.fileLength ≤ maxInt) {b : Int} (hb : b ∈ f.edgeBlocks n p) :
    b = p / sectorSize ∨ b = (p + n - 1) / sectorSize := by
  rw [edgeBlocks, firstSector_of_nonneg hp, lastSector_of_mem (by omega) (by omega)] at hb
  have hfirst : p / sectorSize * sectorSize < f.hdr.fileLength := by unfold sectorSize; omega
  have hlast : (p + n - 1) / sectorSize * sectorSize < f.hdr.fileLength := by
    unfold sectorSize; omega
  rw [readAccess_block (by unfold sectorSize; omega) hfirst hlen,
    readAccess_block (by unfold sectorSize; omega) hlast hlen, List.mem_append] at hb
  rcases hb with hb | hb
  · split at hb
    · exact .inl (List.mem_singleton.mp hb)
    · cases hb
  · split at hb
    · exact .inr (List.mem_singleton.mp hb)
    · cases hb

/-- The condition under which a call stays inside the file. -/
def Contained (f : OpenFile) (numBytes position : Int) : Prop :=
  numBytes ≤ 0 ∨ position ≥ f.hdr.fileLength ∨ position + numBytes ≤ maxInt ∨
    bufferSize numBytes position ≤ 0

/-- The argument for both calls, which differ in the blocks that they look up. -/
theorem inside_iff (hlen : f.hdr.fileLength ≤ maxInt) (hp : 0 ≤ p) (hn : n ≤ maxInt)
    {access : Option Access} (blocks : Int → List Int)
    (haccess : access = if n ≤ 0 ∨ p ≥ f.hdr.fileLength then some ⟨[], 0⟩
      else if bufferSize (f.clip n p) p ≤ 0 then none else some ⟨blocks (f.clip n p), f.clip n p⟩)
    (hblocks : ∀ k, 0 < k → p + k ≤ f.hdr.fileLength → ∀ b ∈ blocks k,
      p / sectorSize ≤ b ∧ b ≤ (p + k - 1) / sectorSize) :
    (∀ a, access = some a → a.Inside f.hdr.fileLength p) ↔ f.Contained n p := by
  subst haccess
  by_cases hreq : n ≤ 0 ∨ p ≥ f.hdr.fileLength
  · rw [if_pos hreq]
    refine iff_of_true ?_ (hreq.imp_right .inl)
    rintro a ⟨rfl⟩
    exact ⟨by simp, le_max_left _ _⟩
  rw [if_neg hreq]
  by_cases hov : p + n ≤ maxInt
  · -- The request is clipped, so that its last byte is in the file.
    refine iff_of_true (fun a ha => ?_) (.inr (.inr (.inl hov)))
    have hclip : f.clip n p = min n (f.hdr.fileLength - p) := clip_of_le (by omega) hov
    split at ha
    · cases ha
    · cases ha
      refine ⟨fun b hb => ?_, by dsimp only; omega⟩
      have hb := hblocks (f.clip n p) (by omega) (by omega) b hb
      unfold sectorSize at *
      omega
  · rw [clip_of_gt (by omega) hlen hn (by omega)]
    by_cases hsize : bufferSize n p ≤ 0
    · rw [if_pos hsize]
      exact iff_of_true (fun a ha => by cases ha) (.inr (.inr (.inr hsize)))
    · -- More bytes are transferred than there are.
      rw [if_neg hsize]
      refine iff_of_false (fun h => ?_) ?_
      · have hbytes := (h _ rfl).bytes
        dsimp only at hbytes
        omega
      · rintro (h | h | h | h)
        · exact hreq (.inl h)
        · exact hreq (.inr h)
        · exact hov h
        · exact hsize h

end OpenFile

/-- **Access stays inside the file.** For every length, position and number of bytes, `ReadAt` and
`WriteAt` look up sectors of blocks of the file only and transfer at most the bytes behind the
position, if and only if the request does not overflow or asks `new` for a negative size. -/
theorem access_inside_iff (f : OpenFile) (numBytes position : Int)
    (hlen : f.hdr.fileLength ≤ maxInt) (hpos : 0 ≤ position) (hnum : numBytes ≤ maxInt) :
    ((∀ a, f.readAccess numBytes position = some a → a.Inside f.hdr.fileLength position) ↔
      f.Contained numBytes position) ∧
    ((∀ a, f.writeAccess numBytes position = some a → a.Inside f.hdr.fileLength position) ↔
      f.Contained numBytes position) := by
  have hloop : ∀ k, 0 < k → position + k ≤ f.hdr.fileLength → ∀ b ∈ OpenFile.loopBlocks k position,
      position / sectorSize ≤ b ∧ b ≤ (position + k - 1) / sectorSize :=
    fun k hk hle b hb => (OpenFile.mem_loopBlocks_of_mem hpos hk (by omega)).mp hb
  constructor
  · exact OpenFile.inside_iff hlen hpos hnum (OpenFile.loopBlocks · position) rfl hloop
  · refine OpenFile.inside_iff hlen hpos hnum
      (fun k => f.edgeBlocks k position ++ OpenFile.loopBlocks k position) rfl
      fun k hk hle b hb => ?_
    rcases List.mem_append.mp hb with hb | hb
    · rcases OpenFile.mem_edgeBlocks hpos hk hle hlen hb with rfl | rfl
      · exact ⟨le_rfl, by unfold sectorSize; omega⟩
      · exact ⟨by unfold sectorSize; omega, le_rfl⟩
    · exact hloop k hk hle b hb

/-- In a file of 3840 bytes, the largest one, a read of 2147483392 bytes at position 256 ends at
2³¹: it is not clipped and goes past the last of the 30 blocks. In one of 2147483647 bytes, a read
of 3 bytes at the last but one reads no sector at all and returns 3 bytes of the new buffer. -/
theorem access_outside :
    (∃ (f : OpenFile) (a : Access), f.hdr.fileLength = 3840 ∧
      f.readAccess 2147483392 256 = some a ∧ 30 ∈ a.blocks ∧ ¬ a.Inside 3840 256) ∧
    (∃ (f : OpenFile) (a : Access), f.hdr.fileLength = 2147483647 ∧
      f.readAccess 3 2147483646 = some a ∧ a.blocks = [] ∧ a.bytes = 3 ∧
      ¬ a.Inside 2147483647 2147483646) := by
  constructor
  · have hclip : (OpenFile.mk ⟨3840, 30, .replicate numDirect 0⟩ 0).clip 2147483392 256
        = 2147483392 := by decide
    refine ⟨⟨⟨3840, 30, .replicate numDirect 0⟩, 0⟩,
      ⟨OpenFile.loopBlocks 2147483392 256, 2147483392⟩, rfl, ?_, ?_, fun h => ?_⟩
    · rw [OpenFile.readAccess_eq (by decide), hclip, if_neg (by decide)]
    · dsimp only
      rw [OpenFile.mem_loopBlocks_iff]
      decide
    · exact absurd h.bytes (by decide)
  · exact ⟨⟨⟨2147483647, 0, .replicate numDirect 0⟩, 0⟩, ⟨[], 3⟩, rfl, rfl, rfl, rfl,
      fun h => absurd h.bytes (by decide)⟩

/-- A read of 200 bytes at position 100 of a file of 130 bytes. -/
theorem access_inside_iff_clipped :
    ∃ (f : OpenFile) (a : Access), f.hdr.fileLength = 130 ∧ f.readAccess 200 100 = some a ∧
      a.bytes = 30 ∧ a.Inside 130 100 := by
  refine ⟨⟨⟨130, 2, .replicate numDirect 0⟩, 0⟩, ⟨[0, 1], 30⟩, rfl, rfl, rfl, ?_⟩
  exact (access_inside_iff ⟨⟨130, 2, .replicate numDirect 0⟩, 0⟩ 200 100 (by decide) (by decide)
    (by decide)).1.mpr (.inr (.inr (.inl (by decide)))) _ rfl

/-! ### Requests that overflow -/

namespace OpenFile

variable {f : OpenFile} {n p : Int}

/-- A block before the start of the file is looked up. -/
theorem mem_readBlocks_of_neg {b : Int} (hb : b < 0) (hlo : minInt ≤ b * sectorSize)
    (hlen : 0 < f.hdr.fileLength) : b ∈ f.readBlocks sectorSize (b * sectorSize) := by
  unfold minInt sectorSize at hlo
  have hend : wrap32 (b * sectorSize + sectorSize) = b * sectorSize + sectorSize := by
    unfold sectorSize
    exact wrap32_eq_self (by unfold minInt; omega) (by unfold maxInt; omega)
  have hclip : f.clip sectorSize (b * sectorSize) = sectorSize := by
    rw [clip, hend, if_neg]
    unfold sectorSize
    omega
  have hfirst : firstSector (b * sectorSize) = b := Int.mul_tdiv_cancel b (by decide)
  -- Division truncates toward zero, so that the request seems to touch the next block, too.
  have hlast : lastSector sectorSize (b * sectorSize) = b + 1 := by
    have hneg : b * sectorSize + sectorSize - 1 = -(-b * sectorSize - 127) := by
      unfold sectorSize
      omega
    rw [lastSector, hend, hneg, wrap32_eq_self (by unfold minInt sectorSize; omega)
      (by unfold maxInt sectorSize; omega), Int.neg_tdiv,
      Int.tdiv_eq_ediv_of_nonneg (by unfold sectorSize; omega)]
    unfold sectorSize
    omega
  have hnum : numSectors sectorSize (b * sectorSize) = 2 := by
    rw [numSectors, hlast, hfirst]
    omega
  rw [readBlocks, readAccess_eq (by unfold sectorSize; omega), hclip,
    if_neg (by rw [bufferSize, hnum]; decide)]
  exact mem_loopBlocks_iff.mpr ⟨by rw [hfirst], by rw [hlast]; omega⟩

/-- A request that ends behind 2³¹ looks up a block before the start of the file, because the last
block is read first. -/
theorem lastSector_mem_edgeBlocks (hlen : 0 < f.hdr.fileLength) (hp : 0 ≤ p) (hp' : p < maxFileSize)
    (hn : n ≤ maxInt) (hov : maxInt < p + n)
    (hlast : lastSector n p = -((4294967297 - (p + n)) / sectorSize)) :
    lastSector n p < 0 ∧ lastSector n p ∈ f.edgeBlocks n p := by
  have hmax : maxFileSize = 3840 := rfl
  have hneg : lastSector n p < 0 := by
    rw [hlast]
    unfold maxInt sectorSize at *
    omega
  have hlo : minInt ≤ lastSector n p * sectorSize := by
    rw [hlast]
    unfold minInt maxInt sectorSize at *
    omega
  have hunaligned : ¬ wrap32 (p + n) = wrap32 ((lastSector n p + 1) * sectorSize) := by
    rw [wrap32_of_gt hov (by unfold maxInt at *; omega),
      wrap32_eq_self (by unfold minInt sectorSize at *; omega)
        (by unfold maxInt sectorSize at *; omega), hlast]
    unfold sectorSize
    omega
  have hne : firstSector p ≠ lastSector n p := by
    rw [firstSector_of_nonneg hp]
    unfold sectorSize at *
    omega
  refine ⟨hneg, List.mem_append_right _ ?_⟩
  rw [if_pos ⟨hunaligned, .inl hne⟩]
  exact mem_readBlocks_of_neg hneg hlo hlen

/-- **A write that overflows** does not get to its end, if the sectors of the file fit its
header. -/
theorem writeAt_overflow (hcov : f.hdr.Covers) (d : Disk) (junk src : Buffer)
    (hp : p < f.hdr.fileLength) (hn : n ≤ maxInt) (hov : maxInt < p + n) :
    f.writeAt d junk src n p = none := by
  have hmax : maxFileSize = 3840 := rfl
  have hlen : f.hdr.fileLength ≤ 3840 := by
    have hle := hcov.length_le
    unfold FileHeader.length at hle
    unfold FileHeader.fileLength
    omega
  have hclip := clip_of_gt hp (by unfold maxInt; omega) hn hov
  have hreq : ¬ (n ≤ 0 ∨ p ≥ f.hdr.fileLength) := by unfold maxInt at *; omega
  by_cases hsize : bufferSize n p ≤ 0
  · rw [writeAt_served hreq, hclip, if_pos (.inr hsize)]
  have haccess := writeAccess_eq hreq
  rw [hclip, if_neg hsize] at haccess
  have hp0 : 0 ≤ p := by omega
  rcases lastSector_of_gt (by unfold maxInt; omega) hn hov with ⟨-, hlast⟩ | hlast
  · -- The loop runs into the end of `dataSectors`.
    apply writeAt_eq_none d junk src haccess (b := 30)
    · refine List.mem_append_right _ (mem_loopBlocks_iff.mpr ⟨?_, ?_⟩)
      · rw [firstSector_of_nonneg hp0]
        unfold sectorSize
        omega
      · rw [hlast]
        decide
    · rw [FileHeader.byteToSector_block, if_pos (by decide)]
      exact Vector.getElem?_eq_none (by decide)
  · obtain ⟨hneg, hmem⟩ := lastSector_mem_edgeBlocks (f := f) (by omega) hp0 (by omega) hn hov hlast
    apply writeAt_eq_none d junk src haccess (b := lastSector n p)
    · exact List.mem_append_left _ hmem
    · rw [FileHeader.byteToSector_block, if_neg (by omega)]

/-- **Writing changes the file only.** A `WriteAt` that returns leaves all other sectors alone,
whatever the request. -/
theorem writeAt_kept (hcov : f.hdr.Covers) {d d' : Disk} {junk src : Buffer} {k : ℕ}
    (hn : n ≤ maxInt)
    (hw : f.writeAt d junk src n p = some (k, d')) {s : ℕ} (hs : s ∉ f.hdr.sectors) :
    d' s = d s := by
  by_cases hreq : n ≤ 0 ∨ p ≥ f.hdr.fileLength
  · rw [writeAt, if_pos hreq] at hw
    cases hw
    rfl
  · have hp : 0 ≤ p := by
      by_contra hneg
      rw [writeAt_served hreq, if_pos (.inl (by omega))] at hw
      cases hw
    have hov : p + n ≤ maxInt := by
      by_contra hov
      rw [writeAt_overflow hcov d junk src (by omega) hn (by omega)] at hw
      cases hw
    obtain ⟨q, rfl⟩ := Int.eq_ofNat_of_zero_le hp
    obtain ⟨d'', hw', hother, -⟩ := writeAt_eq hcov d junk src (n := n) (p := q) fun _ => hov
    rw [hw] at hw'
    cases hw'
    exact hother s hs

end OpenFile

end Nachos.FileSys
