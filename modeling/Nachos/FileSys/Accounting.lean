import Nachos.Base.Transition
import Nachos.FileSys.Operations

namespace Nachos.FileSys

open Base Lib Function

/-!
# FileSys — sector accounting

From a disk that has been formatted on, every `Create` and `Remove` keeps the free map, the
directory and the headers consistent.

* `FileSystem.format_eq` — formatting succeeds on every disk and leaves it consistent;
* `fsSystem` — runs of `Create`, `Remove` and mounting the disk again;
* `sector_accounting` — the invariant over every run, in which no runtime check fails.
-/

namespace FileSystem

variable {s : FileSystem}

/-! ### Formatting and mounting -/

/-- An allocation of `FileSystem(TRUE)` when there are enough free sectors. -/
theorem allocateOrFail_eq (freeMap : Bitmap numDiskSectors) {n : ℕ} (hn : n ≤ maxFileSize)
    (hclear : (n + sectorSize - 1) / sectorSize ≤ freeMap.numClear) (junk : Buffer) :
    ∃ hdr bm, allocateOrFail freeMap n junk = some (hdr, bm) ∧ hdr.WellFormed ∧ hdr.InRange ∧
      hdr.length = n ∧ (∀ s ∈ hdr.sectors, s ∉ freeMap.marked) ∧
      bm.marked = freeMap.marked ∪ hdr.sectors.toFinset ∧
      bm.numClear + (n + sectorSize - 1) / sectorSize = freeMap.numClear := by
  rcases FileHeader.allocate_cases (FileHeader.ofBytes junk) (FileHeader.inRange_ofBytes _)
    freeMap n with
    ⟨hfew, -⟩ | ⟨-, ⟨-, hdr, bm, halloc, hwf, hrange, hlen, hfresh, hmarked⟩ | hlarge⟩
  · omega
  · refine ⟨hdr, bm, ?_, hwf, hrange, hlen, hfresh, hmarked, ?_⟩
    · rw [allocateOrFail, halloc, Option.bind_some, if_pos rfl]
    · have hcard := freeMap.numClear_add_card
      have hcard' := bm.numClear_add_card
      have hdisjoint : Disjoint freeMap.marked hdr.sectors.toFinset :=
        Finset.disjoint_right.mpr fun s hs => hfresh s (List.mem_toFinset.mp hs)
      rw [hmarked, Finset.card_union_of_disjoint hdisjoint,
        List.toFinset_card_of_nodup hwf.nodup, FileHeader.length_sectors, FileHeader.blocks,
        hlen] at hcard'
      omega
  · omega

theorem openFile_new_natCast (d : Disk) {x : ℕ} (hx : x < numDiskSectors) :
    OpenFile.new d x = some ⟨header d x, 0⟩ := by
  rw [OpenFile.new, fetchFrom_natCast d hx, Option.map_some]

/-- What `FileSystem(TRUE)` allocates: the headers of the two files, and the free map with
their sectors. -/
structure Layout (mapHdr dirHdr : FileHeader) (bm : Bitmap numDiskSectors) : Prop where
  map_wf : mapHdr.WellFormed
  map_range : mapHdr.InRange
  map_length : mapHdr.length = freeMapFileSize
  dir_wf : dirHdr.WellFormed
  dir_range : dirHdr.InRange
  dir_length : dirHdr.length = directoryFileSize
  map_fresh : ∀ s ∈ mapHdr.sectors, s ≠ freeMapSector ∧ s ≠ directorySector
  dir_fresh : ∀ s ∈ dirHdr.sectors, s ≠ freeMapSector ∧ s ≠ directorySector ∧ s ∉ mapHdr.sectors
  mem_marked : ∀ s, s ∈ bm.marked ↔
    s ∈ freeMapSector :: mapHdr.sectors ∨ s ∈ directorySector :: dirHdr.sectors
  clear : bm.numClear = 1019

/-- The allocations succeed: 1022 sectors are free, and three are needed. -/
theorem allocate_layout (junk junk' : Buffer) :
    ∃ mapHdr b dirHdr bm,
      allocateOrFail (((Bitmap.new numDiskSectors).setBit freeMapSector).setBit directorySector)
        freeMapFileSize junk = some (mapHdr, b) ∧
      allocateOrFail b directoryFileSize junk' = some (dirHdr, bm) ∧ Layout mapHdr dirHdr bm := by
  have hnum : numDiskSectors = 1024 := rfl
  have hmax : maxFileSize = 3840 := rfl
  have hfree : freeMapFileSize = 128 := rfl
  have hdirsize : directoryFileSize = 200 := rfl
  have h0 : freeMapSector < numDiskSectors := by decide
  have h1 : directorySector < numDiskSectors := by decide
  have hmarked₁ : (((Bitmap.new numDiskSectors).setBit freeMapSector).setBit directorySector).marked
      = {directorySector, freeMapSector} := by
    rw [Bitmap.marked_setBit _ h1, Bitmap.marked_setBit _ h0, Bitmap.marked_new]
    rfl
  generalize ((Bitmap.new numDiskSectors).setBit freeMapSector).setBit directorySector = b₁ at *
  have hclear₁ : b₁.numClear = 1022 := by
    have hcard := b₁.numClear_add_card
    rw [hmarked₁, Finset.card_pair (by decide)] at hcard
    omega
  obtain ⟨mapHdr, b₂, halloc₂, hwf₂, hrange₂, hlen₂, hfresh₂, hmarked₂, hclear₂⟩ :=
    allocateOrFail_eq b₁ (n := freeMapFileSize) (by omega) (by unfold sectorSize; omega) junk
  obtain ⟨dirHdr, b₃, halloc₃, hwf₃, hrange₃, hlen₃, hfresh₃, hmarked₃, hclear₃⟩ :=
    allocateOrFail_eq b₂ (n := directoryFileSize) (by omega)
      (by unfold sectorSize at *; omega) junk'
  rw [hmarked₁] at hfresh₂ hmarked₂
  rw [hmarked₂] at hfresh₃ hmarked₃
  refine ⟨mapHdr, b₂, dirHdr, b₃, halloc₂, halloc₃, hwf₂, hrange₂, hlen₂, hwf₃, hrange₃, hlen₃,
    fun s hs => ?_, fun s hs => ?_, fun s => ?_, ?_⟩
  · have hfresh := hfresh₂ s hs
    simp only [Finset.mem_insert, Finset.mem_singleton, not_or] at hfresh
    exact ⟨hfresh.2, hfresh.1⟩
  · have hfresh := hfresh₃ s hs
    simp only [Finset.mem_union, Finset.mem_insert, Finset.mem_singleton, List.mem_toFinset,
      not_or] at hfresh
    exact ⟨hfresh.1.2, hfresh.1.1, hfresh.2⟩
  · rw [hmarked₃]
    simp only [Finset.mem_union, Finset.mem_insert, Finset.mem_singleton, List.mem_toFinset,
      List.mem_cons]
    rw [or_comm (a := s = directorySector), or_right_comm (a := s = freeMapSector), or_assoc]
  · unfold sectorSize at hclear₂ hclear₃
    omega

namespace Layout

variable {d : Disk} {mapHdr dirHdr : FileHeader} {bm : Bitmap numDiskSectors}

/-- A disk with the two files and nothing else is consistent. -/
theorem inv (h : Layout mapHdr dirHdr (freeMapOn d)) (hmap : header d freeMapSector = mapHdr)
    (hdir : header d directorySector = dirHdr) (hempty : ∀ i e, ¬ (directoryOn d).Holds i e) :
    DiskInv d := by
  have howners : owners d = insert .directory (insert .freeMap ∅) := by
    ext k
    cases k with
    | freeMap => simp [freeMap_mem_owners]
    | directory => simp [directory_mem_owners]
    | file i => simp [file_mem_owners, hempty]
  have hused : (freeMapOn d).marked = (∅ ∪ (freeMapSector :: mapHdr.sectors).toFinset) ∪
      (directorySector :: dirHdr.sectors).toFinset := by
    ext s
    rw [h.mem_marked s]
    simp only [Finset.empty_union, Finset.mem_union, List.mem_toFinset]
  -- First the free map takes its sectors, then the directory.
  have hfirst := (Owned.empty (K := Owner) fun _ => ([] : List ℕ)).take (k := .freeMap)
    (l := freeMapSector :: mapHdr.sectors) (fun hmem => absurd hmem (by simp))
    (List.nodup_cons.mpr ⟨fun hs => (h.map_fresh _ hs).1 rfl, h.map_wf.nodup⟩) (by simp)
  have hsecond := hfirst.take (k := .directory) (l := directorySector :: dirHdr.sectors)
    (fun hmem => absurd hmem (by simp))
    (List.nodup_cons.mpr ⟨fun hs => (h.dir_fresh _ hs).2.1 rfl, h.dir_wf.nodup⟩) (by
      intro s hs
      simp only [Finset.empty_union, List.mem_toFinset, List.mem_cons, not_or]
      rcases List.mem_cons.mp hs with rfl | hs
      · exact ⟨by decide, fun hs' => (h.map_fresh _ hs').2 rfl⟩
      · exact ⟨(h.dir_fresh s hs).1, (h.dir_fresh s hs).2.2⟩)
  refine ⟨?_, ?_, ?_, ?_, fun i e he => absurd he (hempty i e), ?_,
    fun i j e e' he => absurd he (hempty i e)⟩
  · rw [hmap]; exact h.map_wf
  · rw [hmap]; exact h.map_length
  · rw [hdir]; exact h.dir_wf
  · rw [hdir]; exact h.dir_length
  · rw [howners, hused]
    refine hsecond.congr fun k hk => ?_
    cases k with
    | freeMap => simp [sectorsOf, hmap]
    | directory => simp [sectorsOf, hdir]
    | file i => simp at hk

/-- The contents of the two files are flushed to a disk that has their headers. -/
theorem flush (h : Layout mapHdr dirHdr bm) (hmap : header d freeMapSector = mapHdr)
    (hdir : header d directorySector = dirHdr) {dir : Directory numDirEntries} (hr : dir.InRange)
    (pad junk junk' : Buffer) :
    ∃ d₁ d₂, PersistentBitmap.writeBack bm ⟨mapHdr, 0⟩ d junk = some d₁ ∧
      dir.writeBack ⟨dirHdr, 0⟩ d₁ pad junk' = some d₂ ∧ header d₂ freeMapSector = mapHdr ∧
      header d₂ directorySector = dirHdr ∧ directoryOn d₂ = dir ∧ freeMapOn d₂ = bm := by
  obtain ⟨d₁, hw₁, hother₁, hbytes₁⟩ := PersistentBitmap.writeBack_eq (f := ⟨mapHdr, 0⟩) h.map_wf
    (h.map_length.trans freeMapFileSize_eq) d bm junk
  obtain ⟨d₂, hw₂, hother₂, hbytes₂⟩ := Directory.writeBack_eq (f := ⟨dirHdr, 0⟩) h.dir_wf
    (h.dir_length.trans directoryFileSize_eq) hr d₁ pad junk'
  have hkept : ∀ s, s ∉ mapHdr.sectors → s ∉ dirHdr.sectors → d₂ s = d s :=
    fun s hs hs' => (hother₂ s hs').trans (hother₁ s hs)
  have hmap₂ : header d₂ freeMapSector = mapHdr := by
    rw [header, hkept _ (fun hs => (h.map_fresh _ hs).1 rfl) (fun hs => (h.dir_fresh _ hs).1 rfl),
      ← header, hmap]
  have hdir₂ : header d₂ directorySector = dirHdr := by
    rw [header, hkept _ (fun hs => (h.map_fresh _ hs).2 rfl)
      (fun hs => (h.dir_fresh _ hs).2.1 rfl), ← header, hdir]
  refine ⟨d₁, d₂, hw₁, hw₂, hmap₂, hdir₂, ?_, ?_⟩
  · rw [directoryOn, hdir₂]
    exact hbytes₂
  · -- Writing the directory leaves the free map alone.
    rw [freeMapOn, hmap₂, ← hbytes₁]
    apply PersistentBitmap.ofBytes_congr
    intro o ho
    refine fileByte_congr (fun s hs => hother₂ s fun hs' => (h.dir_fresh s hs').2.2 hs) ?_
    rw [h.map_length, freeMapFileSize_eq]
    exact ho

end Layout

/-- **`FileSystem(TRUE)`** succeeds on every disk and leaves it consistent, without any file and
with all sectors free but two headers, one block of the free map and two of the directory. -/
theorem format_eq (d : Disk) (junk : ℕ → Buffer) :
    ∃ s, format d junk = some s ∧ s.Inv ∧ (∀ i e, ¬ (directoryOn s.disk).Holds i e) ∧
      (freeMapOn s.disk).numClear = 1019 := by
  have h0 : freeMapSector < numDiskSectors := by decide
  have h1 : directorySector < numDiskSectors := by decide
  obtain ⟨mapHdr, b, dirHdr, bm, halloc, halloc', hl⟩ := allocate_layout (junk 1) (junk 2)
  -- The headers are written first, then the contents of the two files.
  generalize hd₁ : update (update d freeMapSector mapHdr.toBytes) directorySector
    dirHdr.toBytes = d₁
  have hmap : header d₁ freeMapSector = mapHdr := by
    rw [header, ← hd₁, update_of_ne (by decide), update_self,
      FileHeader.ofBytes_toBytes hl.map_range]
  have hdir : header d₁ directorySector = dirHdr := by
    rw [header, ← hd₁, update_self, FileHeader.ofBytes_toBytes hl.dir_range]
  obtain ⟨d₂, d₃, hw₂, hw₃, hmap₃, hdir₃, hdirOn, hmapOn⟩ :=
    hl.flush hmap hdir (Directory.inRange_new (junk 0)) (junk 4) (junk 3) (junk 5)
  have hempty : ∀ i e, ¬ (directoryOn d₃).Holds i e := by
    intro i e he
    rw [hdirOn] at he
    exact Directory.not_holds_new (junk 0) he
  rw [← hmapOn] at hl
  refine ⟨⟨d₃, ⟨mapHdr, 0⟩, ⟨dirHdr, 0⟩⟩, ?_, ⟨hl.inv hmap₃ hdir₃ hempty, hmap₃.symm, hdir₃.symm⟩,
    hempty, hl.clear⟩
  rw [format, bind_of_eq_some (Bitmap.mark_natCast _ h0),
    bind_of_eq_some (Bitmap.mark_natCast _ h1), bind_of_eq_some halloc]
  dsimp only
  rw [bind_of_eq_some halloc']
  dsimp only
  rw [FileHeader.writeBack, bind_of_eq_some (Disk.writeSector_natCast _ h0 _),
    FileHeader.writeBack, bind_of_eq_some (Disk.writeSector_natCast _ h1 _), hd₁,
    bind_of_eq_some (openFile_new_natCast _ h0), bind_of_eq_some (openFile_new_natCast _ h1),
    hmap, hdir, bind_of_eq_some hw₂, bind_of_eq_some hw₃]
  rfl

/-- A disk that has just been formatted has room for every file that the free sectors can hold. -/
theorem room_of_format {d : Disk} (hempty : ∀ i e, ¬ (directoryOn d).Holds i e)
    (hclear : (freeMapOn d).numClear = 1019) (name : Buffer) {n : ℕ} (hn : n ≤ 1018 * sectorSize) :
    Room d name n := by
  have hentries : 0 < numDirEntries := by decide
  refine ⟨fun j e he => absurd he (hempty j e), ⟨0, _, Vector.getElem?_eq_getElem hentries, ?_⟩, ?_⟩
  · have hfree := fun huse => hempty 0 _ ⟨Vector.getElem?_eq_getElem hentries, huse⟩
    simpa using hfree
  · rw [hclear]
    unfold sectorSize at *
    omega

theorem inv_of_format {d : Disk} {junk : ℕ → Buffer} {s : FileSystem}
    (h : FileSystem.format d junk = some s) : s.Inv := by
  obtain ⟨s', hs', hinv, -⟩ := format_eq d junk
  cases hs'.symm.trans h
  exact hinv

/-- A file that fits a header can be created on a disk of zeros that has been formatted. -/
theorem exists_created (name : Buffer) {n : ℕ} (hn : n ≤ maxFileSize) : ∃ s d' i e sec hdr,
    FileSystem.format (fun _ _ => 0) (fun _ _ => 0) = some s ∧ s.Inv ∧
    s.create name n (fun _ _ => 0) = some (true, { s with disk := d' }) ∧
    Created s.disk d' name n i e sec hdr := by
  obtain ⟨s, hformat, hinv, hempty, hclear⟩ := format_eq (fun _ _ => 0) fun _ _ => 0
  have hroom := room_of_format hempty hclear name (hn.trans (by decide))
  obtain ⟨d', i, e, sec, hdr, hcreate, hc⟩ := hinv.create_of_room hn hroom fun _ _ => 0
  exact ⟨s, d', i, e, sec, hdr, hformat, hinv, hcreate, hc⟩

/-- The object that `FileSystem(FALSE)` creates on a consistent disk. -/
theorem Inv.mount_eq (h : s.Inv) : ∃ s', mount s.disk = some s' ∧ s'.Inv := by
  refine ⟨⟨s.disk, ⟨header s.disk freeMapSector, 0⟩, ⟨header s.disk directorySector, 0⟩⟩, ?_,
    ⟨h.disk, rfl, rfl⟩⟩
  rw [mount, bind_of_eq_some (openFile_new_natCast _ (by decide)),
    bind_of_eq_some (openFile_new_natCast _ (by decide))]
  rfl

end FileSystem

/-! ### Runs -/

/-- What a run is made of: `Create` and `Remove` with any names, and mounting the disk again. -/
inductive FsAction where
  | create (name : Buffer) (initialSize : Int) (junk : ℕ → Buffer)
  | remove (name : Buffer) (junk : ℕ → Buffer)
  | remount

/-- One operation. A file may have any size that fits a header. -/
def FileSystem.next (s : FileSystem) : FsAction → Outcome FileSystem
  | .create name initialSize junk =>
    if 0 ≤ initialSize ∧ initialSize ≤ maxFileSize then
      match s.create name initialSize junk with
      | none => .fault
      | some r => .next r.2
    else .disabled
  | .remove name junk =>
    match s.remove name junk with
    | none => .fault
    | some r => .next r.2
  | .remount =>
    match FileSystem.mount s.disk with
    | none => .fault
    | some s' => .next s'

/-- The file system, from the moment a disk with any contents has been formatted. -/
def fsSystem : LTS FileSystem FsAction where
  init := fun s => ∃ d junk, FileSystem.format d junk = some s
  next := FileSystem.next

theorem fsSystem_next (s : FileSystem) (a : FsAction) : fsSystem.next s a = s.next a := rfl

/-- An operation on a consistent disk leads to a consistent disk. -/
theorem FileSystem.Inv.next {s : FileSystem} (h : s.Inv) (a : FsAction) :
    (s.next a).Meets FileSystem.Inv := by
  unfold FileSystem.next
  cases a with
  | create name initialSize junk =>
    refine .ite fun hsize => ?_
    obtain ⟨n, rfl⟩ := Int.eq_ofNat_of_zero_le hsize.1
    rcases h.create_cases name n junk with ⟨-, hfail⟩ | ⟨d', i, e, sec, hdr, hcreate, hc⟩ | hlarge
    · simpa only [hfail, Outcome.meets_next] using h
    · simpa only [hcreate, Outcome.meets_next] using h.of_keeps hc.keeps (hc.inv h.disk)
    · omega
  | remove name junk =>
    rcases h.remove_cases name junk with ⟨-, hfail⟩ | ⟨d', i, e, -, hremove, hr⟩
    · simpa only [hfail, Outcome.meets_next] using h
    · simpa only [hremove, Outcome.meets_next] using h.of_keeps hr.keeps (hr.inv h.disk)
  | remount =>
    obtain ⟨s', hmount, hs'⟩ := h.mount_eq
    simpa only [hmount, Outcome.meets_next] using hs'

theorem fs_inv {s : FileSystem} (h : fsSystem.Reachable s) : s.Inv := by
  refine h.invariant (I := FileSystem.Inv) ?_ fun s a s' hi hs => (hi.next a).next hs
  rintro s ⟨d, junk, hformat⟩
  exact FileSystem.inv_of_format hformat

/-- **Sector accounting.** Formatting succeeds on every disk, and in every state of every run the
free map on the disk marks exactly the sectors of the free map, of the directory and of the
files in the directory, none of which belongs to two of them, and no assertion fails. -/
theorem sector_accounting :
    (∀ d junk, FileSystem.format d junk ≠ none) ∧
    ∀ s, fsSystem.Reachable s → DiskInv s.disk ∧ ∀ a, s.next a ≠ .fault := by
  refine ⟨fun d junk hnone => ?_, fun s h =>
    ⟨(fs_inv h).disk, fun a => ((fs_inv h).next a).ne_fault⟩⟩
  obtain ⟨s, hs, -⟩ := FileSystem.format_eq d junk
  rw [hnone] at hs
  cases hs

/-- A disk of zeros is formatted, and a file of two blocks is created. -/
theorem sector_accounting_one_file :
    ∃ s i, fsSystem.Reachable s ∧ (sectorsOf s.disk (.file i)).length = 3 ∧ DiskInv s.disk := by
  obtain ⟨s, d', i, e, sec, hdr, hformat, -, hcreate, hc⟩ :=
    FileSystem.exists_created (fun k => [97].getD k 0) (n := 200) (by decide)
  have hinit : fsSystem.Reachable s := .init ⟨_, _, hformat⟩
  have hs : fsSystem.Reachable { s with disk := d' } := by
    apply hinit.step (l := .create (fun k => [97].getD k 0) 200 fun _ _ => 0)
    rw [Nat.cast_ofNat] at hcreate
    simp only [fsSystem_next, FileSystem.next, hcreate]
    rw [if_pos (by decide)]
  refine ⟨_, i, hs, ?_, (sector_accounting.2 _ hs).1⟩
  -- One sector for the header, and two blocks.
  rw [sectorsOf_file (e := e.assign (fun k => [97].getD k 0) sec), List.length_cons,
    FileHeader.length_sectors]
  · have hsec : (e.assign (fun k => [97].getD k 0) sec).sector.toNat = sec := rfl
    rw [hsec, hc.header_eq, FileHeader.blocks, hc.hdr_length]
    rfl
  · exact hc.holds_iff.mpr (.inl ⟨rfl, rfl⟩)

end Nachos.FileSys
