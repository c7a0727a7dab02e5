import Mathlib.Data.List.TakeWhile
import Nachos.UserProg.LoadImage

namespace Nachos.UserProg

open Base Lib Machine

/-!
# UserProg — the bounds of the loader

`Load` believes the header. It sizes the load buffer by the sum of three segment sizes, fills it at
the virtual addresses of the segments, and copies as many pages as the buffer has into a page table
that is sized by another sum; nothing compares the three.

* `loadAccesses` — the accesses to the load buffer and to the page table, in the order in which they
  are made, for any header;
* `loadProgram_of_inside`, `inside_of_loadProgram` — they are what the loader checks: if all of them
  are in bounds it returns, and if it returns for a file that has all bytes of its segments, they
  are;
* `load_in_bounds_iff` — the headers for which nothing is accessed out of bounds.
-/

/-! ### What is accessed -/

/-- An access that is made with a number from the header. -/
inductive LoadAccess where
  /-- `pageTable[i]`. -/
  | pageTable (i : ℕ)
  /-- `ReadAt` of `size` bytes to `buffer + vaddr`. -/
  | buffer (vaddr : Int) (size : ℕ)

namespace NoffHeader

variable (noffH : NoffHeader)

/-- `pages`: the number of pages that are copied. -/
def pages : Int := divRoundUp noffH.actualSize pageSize

/-- The segments that are loaded. -/
def loaded : List Segment := [noffH.code, noffH.readonlyData, noffH.initData]

/-- The loop over the segments; `after` is what follows it. A negative position in the file fails
the assertion in `Lseek`, and the host reads nothing for a negative number of bytes. -/
def segmentAccesses (after : List LoadAccess) : List Segment → List LoadAccess
  | [] => after
  | seg :: rest =>
    if seg.size = 0 then segmentAccesses after rest
    else if seg.inFileAddr < 0 then []
    else .buffer seg.virtualAddr seg.size.toNat :: segmentAccesses after rest

/-- Everything that `Load` accesses once it has found enough free frames. `new` throws for a
negative size of the load buffer. -/
def loadAccesses : List LoadAccess :=
  (List.range noffH.numPages).map .pageTable ++
    if noffH.actualSize < 0 then []
    else segmentAccesses ((List.range noffH.pages.toNat).map .pageTable) noffH.loaded

/-- The access is in the page table, or in the load buffer. -/
def Inside : LoadAccess → Prop
  | .pageTable i => i < noffH.numPages
  | .buffer vaddr size => 0 < size → 0 ≤ vaddr ∧ vaddr + size ≤ noffH.actualSize

/-- `Lseek` accepts the position of the segment, or is not called for it. -/
def Seekable (seg : Segment) : Prop := seg.size ≠ 0 → 0 ≤ seg.inFileAddr

instance (seg : Segment) : Decidable (Seekable seg) := by
  unfold Seekable
  infer_instance

/-- What the loop over the segments accesses. -/
theorem mem_segmentAccesses {after : List LoadAccess} {l : List Segment} {x : LoadAccess} :
    x ∈ segmentAccesses after l ↔
      (∃ seg ∈ l.takeWhile (Seekable ·), seg.size ≠ 0 ∧
      x = .buffer seg.virtualAddr seg.size.toNat) ∨ ((∀ seg ∈ l, Seekable seg) ∧ x ∈ after) := by
  induction l with
  | nil => simp [segmentAccesses]
  | cons seg rest ih =>
    unfold segmentAccesses
    by_cases h0 : seg.size = 0
    · have hseek : Seekable seg := fun hne => absurd h0 hne
      rw [if_pos h0, ih, List.takeWhile_cons_of_pos (by simpa using hseek)]
      simp [h0, hseek]
    · rw [if_neg h0]
      by_cases hneg : seg.inFileAddr < 0
      · have hseek : ¬ Seekable seg := fun hs => absurd (hs h0) (by omega)
        rw [if_pos hneg, List.takeWhile_cons_of_neg (by simpa using hseek)]
        simp [hseek]
      · have hseek : Seekable seg := fun _ => by omega
        rw [if_neg hneg, List.mem_cons, ih, List.takeWhile_cons_of_pos (by simpa using hseek)]
        simp [h0, hseek, or_assoc]

/-- The segments for which `ReadAt` is called. -/
def reached : List Segment := noffH.loaded.takeWhile (Seekable ·)

/-- The headers whose segments are inside the load buffer and whose load buffer is inside the
address space, as far as the loader gets. -/
structure Fits : Prop where
  segment : ∀ seg ∈ noffH.reached, 0 < seg.size →
    0 ≤ seg.virtualAddr ∧ seg.virtualAddr + seg.size ≤ noffH.actualSize
  pages_le : (∀ seg ∈ noffH.loaded, Seekable seg) → noffH.pages ≤ noffH.numPages

variable {noffH}

/-- **All accesses are in bounds** exactly if the header fits, or the loader does not get to
them. -/
theorem inside_iff :
    (∀ x ∈ noffH.loadAccesses, noffH.Inside x) ↔ noffH.actualSize < 0 ∨ noffH.Fits := by
  unfold loadAccesses
  by_cases hneg : noffH.actualSize < 0
  · rw [if_pos hneg]
    simp [hneg, Inside]
  · rw [if_neg hneg]
    constructor
    · intro hall
      refine .inr ⟨fun seg hseg hsize => ?_, fun hseek => ?_⟩
      · have hmem : LoadAccess.buffer seg.virtualAddr seg.size.toNat ∈ segmentAccesses
            ((List.range noffH.pages.toNat).map .pageTable) noffH.loaded :=
          mem_segmentAccesses.mpr (.inl ⟨seg, hseg, by omega, rfl⟩)
        have hin := hall _ (List.mem_append_right _ hmem) (by omega)
        rwa [Int.toNat_of_nonneg (by omega)] at hin
      · by_contra hlt
        have hlast : (LoadAccess.pageTable noffH.numPages) ∈
            (List.range noffH.pages.toNat).map LoadAccess.pageTable :=
          List.mem_map_of_mem (List.mem_range.mpr (by omega))
        have hmem := mem_segmentAccesses.mpr (.inr ⟨hseek, hlast⟩)
        exact absurd (hall _ (List.mem_append_right _ hmem)) (lt_irrefl noffH.numPages)
    · rintro (hneg' | hfits) x hx
      · exact absurd hneg' hneg
      · rcases List.mem_append.mp hx with hx | hx
        · obtain ⟨i, hi, rfl⟩ := List.mem_map.mp hx
          exact List.mem_range.mp hi
        · rcases mem_segmentAccesses.mp hx with ⟨seg, hseg, -, rfl⟩ | ⟨hseek, hx⟩
          · intro hsize
            have hin := hfits.segment seg hseg (by omega)
            rwa [Int.toNat_of_nonneg (by omega)]
          · obtain ⟨i, hi, rfl⟩ := List.mem_map.mp hx
            have hi := List.mem_range.mp hi
            have hle := hfits.pages_le hseek
            show i < noffH.numPages
            omega

theorem reached_eq (hseek : ∀ seg ∈ noffH.loaded, Seekable seg) : noffH.reached = noffH.loaded := by
  unfold reached
  rw [List.takeWhile_eq_self_iff]
  intro seg hseg
  simpa using hseek seg hseg

end NoffHeader

/-! ### The loader -/

/-- The page loop needs an entry for each of its pages. -/
theorem copyPage_loop_le {frames : List ℕ} {buffer : List UInt8} {mem mem' : ℕ → UInt8} {k : ℕ}
    (h : (List.range k).foldlM (copyPage frames buffer) mem = some mem') : k ≤ frames.length := by
  cases k with
  | zero => exact Nat.zero_le _
  | succ k =>
    rw [List.range_succ, List.foldlM_append] at h
    obtain ⟨mem₁, -, hlast⟩ := Option.bind_eq_some_iff.mp h
    rw [List.foldlM_cons] at hlast
    obtain ⟨mem₂, hround, -⟩ := Option.bind_eq_some_iff.mp hlast
    unfold copyPage at hround
    split at hround
    · cases hround
    · rename_i f hf
      exact (List.getElem?_eq_some_iff.mp hf).1

namespace AddrSpace

variable {noffH : NoffHeader} {file : HostFile} {s : PhysMem}

theorem pages_eq {k : ℕ} (hk : (k : Int) = noffH.actualSize) :
    noffH.pages = ((k + pageSize - 1) / pageSize : ℕ) := by
  unfold NoffHeader.pages
  rw [← hk, divRoundUp_natCast _ _ (by decide)]

/-- With enough free frames, if no allocation and no `Lseek` fails and all accesses are in bounds,
the loader returns `TRUE`. -/
theorem loadProgram_of_inside (hmagic : noffH.noffMagic = noffMagicNumber)
    (hclear : noffH.numPages ≤ s.gPhysPageBitMap.numClear) (hsize : 0 ≤ noffH.actualSize)
    (hseek : ∀ seg ∈ noffH.loaded, NoffHeader.Seekable seg)
    (hin : ∀ x ∈ noffH.loadAccesses, noffH.Inside x) :
    ∃ a s', loadProgram noffH file s = some (true, a, s') := by
  rcases NoffHeader.inside_iff.mp hin with hneg | hfits
  · omega
  have hsegment := hfits.segment
  rw [NoffHeader.reached_eq hseek] at hsegment
  obtain ⟨buffer, hbuffer, hlen⟩ := NoffHeader.loadBuffer_of_fits hsize hseek hsegment file
  obtain ⟨l, bm, hfind, hl, -⟩ := Bitmap.findAndSetAll_of_le hclear
  have hpages := hfits.pages_le hseek
  rw [pages_eq hlen] at hpages
  have hle : (buffer.length + pageSize - 1) / pageSize ≤ l.length := by omega
  obtain ⟨mem, hmem⟩ := copyPages_eq_some l (l.foldl zeroFrame s.mainMemory) hle
  refine ⟨ofFrames l, ⟨mem, bm⟩, ?_⟩
  unfold loadProgram
  rw [if_neg (by simpa using hmagic), if_neg (by omega), hfind, Option.bind_some]
  simp only [hbuffer, Option.bind_some, hmem, Option.map_some]

/-- A segment that has been read, and that the file has all bytes of, is inside the buffer. -/
theorem loadSegment_inside {buffer buffer' : List UInt8} {seg : Segment}
    (h : NoffHeader.loadSegment file buffer seg = some buffer')
    (hfile : seg.inFileAddr + seg.size ≤ file.length) (hsize : 0 < seg.size) :
    0 ≤ seg.virtualAddr ∧ seg.virtualAddr + seg.size ≤ buffer.length := by
  rcases NoffHeader.loadSegment_cases h with ⟨h0, -⟩ | ⟨hpos, bytes, hread, hbytes⟩
  · omega
  · have hlen : bytes.length = seg.size.toNat := by
      rw [← hread, List.length_take, List.length_drop]
      omega
    rcases hbytes with ⟨rfl, -⟩ | ⟨h0, hle, -⟩
    · rw [List.length_nil] at hlen
      omega
    · omega

/-- Where the file has all bytes of its segments, a loader that returns `TRUE` has stayed in
bounds. -/
theorem inside_of_loadProgram {a : AddrSpace} {s' : PhysMem}
    (h : loadProgram noffH file s = some (true, a, s'))
    (hfile : ∀ seg ∈ noffH.loaded, seg.inFileAddr + seg.size ≤ file.length) :
    ∀ x ∈ noffH.loadAccesses, noffH.Inside x := by
  rw [NoffHeader.inside_iff]
  obtain ⟨-, ⟨hok, -⟩ | ⟨-, -, l, buffer, -, hl, -, -, -, hbuffer, hmem⟩⟩ := loadProgram_cases h
  · cases hok
  have hlen := (NoffHeader.loadBuffer_getD hbuffer).1
  refine .inr ⟨fun seg hseg hsize => ?_, fun _ => ?_⟩
  · -- The buffer has its full length at each of the three segments.
    unfold NoffHeader.loadBuffer at hbuffer
    rw [if_neg (by omega)] at hbuffer
    simp only [List.foldlM_cons, List.foldlM_nil] at hbuffer
    obtain ⟨b₁, h₁, hbuffer⟩ := Option.bind_eq_some_iff.mp hbuffer
    obtain ⟨b₂, h₂, hbuffer⟩ := Option.bind_eq_some_iff.mp hbuffer
    obtain ⟨b₃, h₃, hbuffer⟩ := Option.bind_eq_some_iff.mp hbuffer
    cases hbuffer
    have hl₂ := (NoffHeader.loadSegment_getD h₂).1
    have hl₃ := (NoffHeader.loadSegment_getD h₃).1
    have hl₁ := (NoffHeader.loadSegment_getD h₁).1
    have hmem : seg ∈ noffH.loaded := (List.takeWhile_sublist _).subset hseg
    have hfile := hfile seg hmem
    simp only [NoffHeader.loaded, List.mem_cons, List.not_mem_nil, or_false] at hmem
    rcases hmem with rfl | rfl | rfl
    · have := loadSegment_inside h₁ hfile hsize
      omega
    · have := loadSegment_inside h₂ hfile hsize
      omega
    · have := loadSegment_inside h₃ hfile hsize
      omega
  · have hle := copyPage_loop_le hmem
    rw [pages_eq hlen]
    omega

end AddrSpace

/-- `Load` of a program with the right magic number returns `FALSE` exactly if there are not enough
free frames, and then it changes nothing. -/
theorem AddrSpace.load_eq_false_iff {file : HostFile} {junk : ℕ → UInt8}
    (hmagic : (file.noffHeader junk).noffMagic = noffMagicNumber) (s : PhysMem) :
    load (some file) junk s = some (false, .new, s) ↔
      s.gPhysPageBitMap.numClear < (file.noffHeader junk).numPages := by
  show loadProgram (file.noffHeader junk) file s = _ ↔ _
  unfold loadProgram
  rw [if_neg (by simpa using hmagic)]
  by_cases hfew : (file.noffHeader junk).numPages > s.gPhysPageBitMap.numClear
  · rw [if_pos hfew]
    simpa using hfew
  · rw [if_neg hfew]
    simp only [Option.bind_eq_some_iff, Option.map_eq_some_iff]
    constructor
    · rintro ⟨r, -, buffer, -, mem, -, heq⟩
      cases heq
    · intro hlt
      exact absurd hlt hfew

/-- What a loader should do with any header: it returns `FALSE` and changes nothing, or all its
accesses are in bounds. -/
def LoadSafe (file : HostFile) (junk : ℕ → UInt8) (s : PhysMem) : Prop :=
  AddrSpace.load (some file) junk s = some (false, .new, s) ∨
    ∀ x ∈ (file.noffHeader junk).loadAccesses, (file.noffHeader junk).Inside x

/-- **The loader is in bounds** for a header with the right magic number exactly if there are not
enough free frames, or the size of the load buffer is negative and cannot be allocated, or the
header fits: for any values of the segment fields, any bitmap and any memory. -/
theorem load_in_bounds_iff (file : HostFile) (junk : ℕ → UInt8)
    (hmagic : (file.noffHeader junk).noffMagic = noffMagicNumber) (s : PhysMem) :
    LoadSafe file junk s ↔ s.gPhysPageBitMap.numClear < (file.noffHeader junk).numPages ∨
      (file.noffHeader junk).actualSize < 0 ∨ (file.noffHeader junk).Fits := by
  unfold LoadSafe
  rw [AddrSpace.load_eq_false_iff hmagic, NoffHeader.inside_iff]

/-- A header with three segments to load and one more, followed by eight bytes. -/
def programOf (code initData readonlyData uninitData : List UInt8) : HostFile :=
  [0xad, 0xdf, 0xba, 0] ++ code ++ initData ++ readonlyData ++ uninitData ++
  [1, 2, 3, 4, 5, 6, 7, 8]

/-- A gap in front of the data: four bytes of code at 0 and four bytes of data at 128, with a load
buffer of eight bytes. -/
def gapProgram : HostFile :=
  programOf [0, 0, 0, 0, 52, 0, 0, 0, 4, 0, 0, 0] [128, 0, 0, 0, 56, 0, 0, 0, 4, 0, 0, 0]
    (List.replicate 12 0) (List.replicate 12 0)

/-- Eight bytes of code, and -1032 bytes of data that is not initialised: no page at all. -/
def noPageProgram : HostFile :=
  programOf [0, 0, 0, 0, 52, 0, 0, 0, 8, 0, 0, 0] (List.replicate 12 0) (List.replicate 12 0)
    [0, 0, 0, 0, 0, 0, 0, 0, 0xf8, 0xfb, 0xff, 0xff]

theorem gapProgram_header : gapProgram.noffHeader (fun _ => 0) =
    ⟨noffMagicNumber, ⟨0, 52, 4⟩, ⟨128, 56, 4⟩, ⟨0, 0, 0⟩, ⟨0, 0, 0⟩⟩ := by
  decide +kernel

theorem noPageProgram_header : noPageProgram.noffHeader (fun _ => 0) =
    ⟨noffMagicNumber, ⟨0, 52, 8⟩, ⟨0, 0, 0⟩, ⟨0, 0, 0⟩, ⟨0, 0, -1032⟩⟩ := by
  decide +kernel

/-- With all frames free the loader writes behind its load buffer for the one program, and uses an
entry behind its page table for the other. -/
theorem load_out_of_bounds :
    ¬ LoadSafe gapProgram (fun _ => 0) ⟨fun _ => 0, .new numPhysPages⟩ ∧
    ¬ LoadSafe noPageProgram (fun _ => 0) ⟨fun _ => 0, .new numPhysPages⟩ := by
  unfold LoadSafe
  rw [AddrSpace.load_eq_false_iff (by rw [gapProgram_header]), gapProgram_header,
    AddrSpace.load_eq_false_iff (by rw [noPageProgram_header]), noPageProgram_header,
    NoffHeader.inside_iff, NoffHeader.inside_iff]
  constructor
  · rintro (hfew | hneg | hfits)
    · exact absurd hfew (by decide +kernel)
    · exact absurd hneg (by decide)
    · exact absurd (hfits.segment ⟨128, 56, 4⟩ (by decide) (by decide)) (by decide)
  · rintro (hfew | hneg | hfits)
    · exact absurd hfew (by decide +kernel)
    · exact absurd hneg (by decide)
    · exact absurd (hfits.pages_le (by decide)) (by decide)

/-- The loader is in bounds for the small program. -/
theorem load_in_bounds_iff_smallProgram :
    LoadSafe smallProgram (fun _ => 0) ⟨fun _ => 7, .new numPhysPages⟩ := by
  rw [load_in_bounds_iff _ _ (by rw [smallProgram_header]), smallProgram_header]
  exact .inr (.inr ⟨by decide, by decide⟩)

end Nachos.UserProg
