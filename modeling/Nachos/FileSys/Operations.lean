import Nachos.FileSys.DiskInv

namespace Nachos.FileSys

open Base Lib Function

/-!
# FileSys — the operations on a consistent disk

`FileSystem.Inv` says that the open free map and directory are those of a consistent disk. Then
every operation gets through its runtime checks, unless a file is too large for its header:

* `Inv.create_cases` — `Create` creates the file if there is room for it and changes nothing
  otherwise, but for a size that does not fit a header it writes past the end of it;
* `Inv.remove_cases` — `Remove` removes the file with the name, if there is one;
* `Inv.openFile_cases` — `Open` finds the header of the file with the name, if there is one.

The free map and the directory are written back through the file layer that they describe
themselves (`Inv.flushDirectory_eq`, `Inv.flushFreeMap_eq`).
-/

/-! ### Reading and flushing the two files -/

theorem bind_of_eq_some {α β : Type} {x : Option α} {a : α} (h : x = some a)
    (f : α → Option β) : (x >>= f) = f a := by
  rw [h]
  rfl

theorem directoryFileSize_eq : directoryFileSize = Directory.fileSize numDirEntries := rfl

theorem freeMapFileSize_eq : freeMapFileSize = PersistentBitmap.fileSize numDiskSectors := rfl

namespace FileSystem

/-- The file system object fits a consistent disk. -/
structure Inv (s : FileSystem) : Prop where
  disk : DiskInv s.disk
  freeMapFile : s.freeMapFile.hdr = header s.disk freeMapSector
  directoryFile : s.directoryFile.hdr = header s.disk directorySector

variable {s : FileSystem}

theorem Inv.map_wf (h : s.Inv) : s.freeMapFile.hdr.WellFormed := by
  rw [h.freeMapFile]; exact h.disk.map_wf

theorem Inv.dir_wf (h : s.Inv) : s.directoryFile.hdr.WellFormed := by
  rw [h.directoryFile]; exact h.disk.dir_wf

theorem Inv.map_length (h : s.Inv) :
    s.freeMapFile.hdr.length = PersistentBitmap.fileSize numDiskSectors := by
  rw [h.freeMapFile, h.disk.map_length, freeMapFileSize_eq]

theorem Inv.dir_length (h : s.Inv) :
    s.directoryFile.hdr.length = Directory.fileSize numDirEntries := by
  rw [h.directoryFile, h.disk.dir_length, directoryFileSize_eq]

theorem Inv.fetchDirectory_eq (h : s.Inv) (junk : ℕ → Buffer) :
    s.fetchDirectory junk = some (directoryOn s.disk) := by
  rw [fetchDirectory, Directory.fetchFrom_eq h.dir_wf h.dir_length, h.directoryFile, directoryOn]

theorem Inv.fetchFreeMap_eq (h : s.Inv) : s.fetchFreeMap = some (freeMapOn s.disk) := by
  rw [fetchFreeMap, PersistentBitmap.new_eq h.map_wf h.map_length, h.freeMapFile, freeMapOn]

theorem Inv.of_keeps (h : s.Inv) {d' : Disk} (hk : Keeps s.disk d') (hd' : DiskInv d') :
    ({ s with disk := d' } : FileSystem).Inv :=
  ⟨hd', h.freeMapFile.trans (h.disk.header_map hk).symm,
    h.directoryFile.trans (h.disk.header_dir hk).symm⟩

theorem Inv.directoryOn_eq (h : s.Inv) {d' : Disk} (hk : Keeps s.disk d') :
    directoryOn d' = Directory.ofBytes numDirEntries (fileByte d' s.directoryFile.hdr) := by
  rw [directoryOn, h.disk.header_dir hk, h.directoryFile]

theorem Inv.freeMapOn_eq (h : s.Inv) {d' : Disk} (hk : Keeps s.disk d') :
    freeMapOn d' = PersistentBitmap.ofBytes numDiskSectors (fileByte d' s.freeMapFile.hdr) := by
  rw [freeMapOn, h.disk.header_map hk, h.freeMapFile]

/-- Changing sectors of neither file and free ones only keeps the files. -/
theorem Inv.keeps_of (h : s.Inv) {d₁ d₂ : Disk} (hk : Keeps s.disk d₁)
    (heq : ∀ x, x ∉ s.freeMapFile.hdr.sectors → x ∉ s.directoryFile.hdr.sectors → d₂ x = d₁ x) :
    Keeps s.disk d₂ := by
  intro x hx hmap hdir
  rw [heq x (by rw [h.freeMapFile]; exact hmap) (by rw [h.directoryFile]; exact hdir)]
  exact hk x hx hmap hdir

theorem Inv.disjoint (h : s.Inv) {x : ℕ} (hx : x ∈ s.freeMapFile.hdr.sectors) :
    x ∉ s.directoryFile.hdr.sectors := by
  rw [h.freeMapFile] at hx
  rw [h.directoryFile]
  exact h.disk.map_disjoint_dir hx

variable {dir : Directory numDirEntries} {d₁ : Disk}

/-- The directory is written back, which leaves the free map alone. -/
theorem Inv.flushDirectory_eq (h : s.Inv) (hk : Keeps s.disk d₁) (hr : dir.InRange)
    (pad junk : Buffer) :
    ∃ d₂, dir.writeBack s.directoryFile d₁ pad junk = some d₂ ∧ Keeps s.disk d₂ ∧
      (∀ x, x ∉ s.directoryFile.hdr.sectors → d₂ x = d₁ x) ∧
      directoryOn d₂ = dir ∧ freeMapOn d₂ = freeMapOn d₁ := by
  obtain ⟨d₂, hw, hother, hdir⟩ := Directory.writeBack_eq h.dir_wf h.dir_length hr d₁ pad junk
  have hkeeps := h.keeps_of hk fun x _ hx => hother x hx
  refine ⟨d₂, hw, hkeeps, hother, by rw [h.directoryOn_eq hkeeps, hdir], ?_⟩
  rw [h.freeMapOn_eq hkeeps, h.freeMapOn_eq hk]
  apply PersistentBitmap.ofBytes_congr
  intro o ho
  rw [← h.map_length] at ho
  exact fileByte_congr (fun x hx => hother x (h.disjoint hx)) ho

/-- The free map is written back, which leaves the directory alone. -/
theorem Inv.flushFreeMap_eq (h : s.Inv) (hk : Keeps s.disk d₁) (bm : Bitmap numDiskSectors)
    (junk : Buffer) :
    ∃ d₂, PersistentBitmap.writeBack bm s.freeMapFile d₁ junk = some d₂ ∧ Keeps s.disk d₂ ∧
      (∀ x, x ∉ s.freeMapFile.hdr.sectors → d₂ x = d₁ x) ∧
      freeMapOn d₂ = bm ∧ directoryOn d₂ = directoryOn d₁ := by
  obtain ⟨d₂, hw, hother, hmap⟩ := PersistentBitmap.writeBack_eq h.map_wf h.map_length d₁ bm junk
  have hkeeps := h.keeps_of hk fun x hx _ => hother x hx
  refine ⟨d₂, hw, hkeeps, hother, by rw [h.freeMapOn_eq hkeeps, hmap], ?_⟩
  rw [h.directoryOn_eq hkeeps, h.directoryOn_eq hk]
  apply Directory.ofBytes_congr
  intro o ho
  rw [← h.dir_length] at ho
  exact fileByte_congr (fun x hx => hother x fun hx' => h.disjoint hx' hx) ho

/-! ### The operations -/

/-- The end of `Create`: the header goes to a free sector, and the two files are flushed. -/
theorem Inv.flushCreate_eq (h : s.Inv) {sec : ℕ} {hdr : FileHeader} (hlt : sec < numDiskSectors)
    (hclear : sec ∉ (freeMapOn s.disk).marked) (hrange : hdr.InRange) (hr : dir.InRange)
    (bm : Bitmap numDiskSectors) (junk : ℕ → Buffer) :
    ∃ d', s.flushCreate sec hdr dir bm junk = some { s with disk := d' } ∧ Keeps s.disk d' ∧
      header d' sec = hdr ∧ directoryOn d' = dir ∧ freeMapOn d' = bm := by
  have hkeeps : Keeps s.disk (update s.disk sec hdr.toBytes) := by
    intro x hx _ _
    rw [update_of_ne]
    rintro rfl
    exact hclear hx
  obtain ⟨d₂, hw₂, hk₂, hother₂, hdir, -⟩ := h.flushDirectory_eq hkeeps hr (junk 3) (junk 4)
  obtain ⟨d₃, hw₃, hk₃, hother₃, hmap, hdir₃⟩ := h.flushFreeMap_eq hk₂ bm (junk 5)
  refine ⟨d₃, ?_, hk₃, ?_, hdir₃.trans hdir, hmap⟩
  · rw [flushCreate, FileHeader.writeBack, bind_of_eq_some (Disk.writeSector_natCast _ hlt _),
      bind_of_eq_some hw₂, bind_of_eq_some hw₃]
    rfl
  · -- The new header is in neither of the two files.
    have hsec : d₃ sec = hdr.toBytes := by
      rw [hother₃ sec, hother₂ sec, update_self]
      · rw [h.directoryFile]; exact fun hs => hclear (h.disk.dir_marked hs)
      · rw [h.freeMapFile]; exact fun hs => hclear (h.disk.map_marked hs)
    rw [header, hsec, FileHeader.ofBytes_toBytes hrange]

/-- `Create` up to the allocation of the data: the file is there already, there is no sector for
its header or no entry for its name, or all three are found. -/
theorem Inv.create_checks (h : s.Inv) (name : Buffer) (initialSize : Int) (junk : ℕ → Buffer) :
    ((∀ n, ¬ Room s.disk name n) ∧ s.create name initialSize junk = some (false, s)) ∨
    ∃ (i : ℕ) (e : DirectoryEntry) (sec : ℕ),
      (∀ j e', (directoryOn s.disk).Holds j e' → nameOf e'.nameBuffer ≠ nameOf name) ∧
      (directoryOn s.disk).table[i]? = some e ∧ e.inUse = false ∧
      sec < numDiskSectors ∧ sec ∉ (freeMapOn s.disk).marked ∧
      s.create name initialSize junk =
        ((FileHeader.ofBytes (junk 2)).allocate ((freeMapOn s.disk).setBit sec) initialSize).bind
          fun (allocated, hdr, freeMap) =>
            if allocated = false then some (false, s)
            else (s.flushCreate sec hdr ((directoryOn s.disk).modify i fun e => e.assign name sec)
              freeMap junk).map fun s => (true, s) := by
  unfold create
  rw [h.fetchDirectory_eq, Option.bind_some]
  -- The checks in the order of the source; each that fails says what there is no room for.
  rcases (directoryOn s.disk).find_cases name with ⟨i, e, he, hname, -, hfind⟩ |
    ⟨hmiss, hidx, hfind⟩
  · left
    obtain ⟨sec, hsec, -⟩ := h.disk.entry i e he
    refine ⟨fun _ hroom => hroom.missing i e he hname, ?_⟩
    rw [hfind, if_pos (by omega)]
  rw [hfind, if_neg (by simp), h.fetchFreeMap_eq, Option.bind_some]
  rcases (freeMapOn s.disk).findAndSet_cases with ⟨sec, hlt, hclear, -, hset⟩ | ⟨hfull, hset⟩
  swap
  · left
    refine ⟨fun _ hroom => ?_, by simp only [hset, if_pos]⟩
    have hlt := hroom.clear
    rw [Bitmap.numClear_of_full _ hfull] at hlt
    exact absurd hlt (Nat.not_lt_zero _)
  simp only [hset]
  rw [if_neg (by omega)]
  rcases Directory.add_cases hidx (sec : Int) with ⟨i, e, he, hfree, hadd⟩ | ⟨hused, hadd⟩
  swap
  · left
    refine ⟨fun _ ⟨_, ⟨i, e, he, hfree⟩, _⟩ => ?_, by simp only [hadd, if_pos]⟩
    rw [hused i e he] at hfree
    cases hfree
  right
  simp only [hadd]
  rw [if_neg (by simp)]
  exact ⟨i, e, sec, hmiss, he, hfree, hlt, hclear, rfl⟩

/-- The data get the sectors that are left when the header has its own. -/
theorem room_iff {d : Disk} {name : Buffer} {n i sec : ℕ} {e : DirectoryEntry}
    (hmiss : ∀ j e', (directoryOn d).Holds j e' → nameOf e'.nameBuffer ≠ nameOf name)
    (he : (directoryOn d).table[i]? = some e) (hfree : e.inUse = false)
    (hlt : sec < numDiskSectors) (hclear : sec ∉ (freeMapOn d).marked) :
    Room d name n ↔ (n + sectorSize - 1) / sectorSize ≤ ((freeMapOn d).setBit sec).numClear := by
  have hless := Bitmap.numClear_setBit _ hlt hclear
  constructor
  · intro hroom
    have hroomy := hroom.clear
    omega
  · intro hle
    exact ⟨hmiss, ⟨i, e, he, hfree⟩, by omega⟩

/-- **`Create`** fails and changes nothing if there is no room. Otherwise it creates the file, or
`Allocate` writes past the end of the header. -/
theorem Inv.create_cases (h : s.Inv) (name : Buffer) (n : ℕ) (junk : ℕ → Buffer) :
    (¬ Room s.disk name n ∧ s.create name n junk = some (false, s)) ∨
    (∃ d' i e sec hdr, s.create name n junk = some (true, { s with disk := d' }) ∧
      Created s.disk d' name n i e sec hdr) ∨
    (maxFileSize < n ∧ Room s.disk name n ∧ s.create name n junk = none) := by
  rcases h.create_checks name n junk with ⟨hroom, hfail⟩ |
    ⟨i, e, sec, hmiss, he, hfree, hlt, hclear, hcreate⟩
  · exact .inl ⟨hroom n, hfail⟩
  rw [hcreate, room_iff hmiss he hfree hlt hclear]
  rcases FileHeader.allocate_cases (FileHeader.ofBytes (junk 2)) (FileHeader.inRange_ofBytes _)
    ((freeMapOn s.disk).setBit sec) n with ⟨hfew, hdr, halloc⟩ | ⟨henough,
      ⟨-, hdr, bm, halloc, hwf, hrange, hlen, hfresh, hmarked⟩ | ⟨hlarge, halloc⟩⟩
  · exact .inl ⟨by omega, by simp only [halloc, Option.bind_some, if_pos]⟩
  swap
  · exact .inr (.inr ⟨hlarge, henough, by rw [halloc, Option.bind_none]⟩)
  -- All checks have passed: the sectors of the data are not the one taken for the header.
  refine .inr (.inl ?_)
  rw [Bitmap.marked_setBit _ hlt] at hfresh hmarked
  simp only [halloc, Option.bind_some]
  rw [if_neg (by simp)]
  have hnum : numDiskSectors = 1024 := rfl
  -- The entry is written as a C `int`, so its sector has to be one.
  have hr : ((directoryOn s.disk).modify i fun e => e.assign name sec).InRange := by
    refine (Directory.inRange_ofBytes _).modify fun e' _ => ?_
    simp only [DirectoryEntry.assign, minInt, maxInt]
    omega
  obtain ⟨d', hflush, hkeeps, hheader, hdir, hmap⟩ := h.flushCreate_eq hlt hclear hrange hr bm junk
  rw [hflush]
  refine ⟨d', i, e, sec, hdr, rfl, hmiss, he, hfree, hlt, ?_, ?_, hwf, hlen, hkeeps, hheader,
    hdir, ?_⟩
  · intro x hx
    rcases List.mem_cons.mp hx with rfl | hx
    · exact hclear
    · exact fun hm => hfresh x hx (Finset.mem_insert_of_mem hm)
  · exact List.nodup_cons.mpr ⟨fun hin => hfresh sec hin (Finset.mem_insert_self _ _), hwf.nodup⟩
  · rw [hmap, hmarked, List.toFinset_cons, Finset.insert_union, Finset.union_insert]

/-- With room for the file it is created. -/
theorem Inv.create_of_room (h : s.Inv) {name : Buffer} {n : ℕ} (hn : n ≤ maxFileSize)
    (hroom : Room s.disk name n) (junk : ℕ → Buffer) :
    ∃ d' i e sec hdr, s.create name n junk = some (true, { s with disk := d' }) ∧
      Created s.disk d' name n i e sec hdr := by
  rcases h.create_cases name n junk with ⟨hfull, -⟩ | hcreated | ⟨hlarge, -⟩
  · exact absurd hroom hfull
  · exact hcreated
  · omega

/-- What a `Create` that succeeds has done. -/
theorem Inv.created (h : s.Inv) {name : Buffer} {n : ℕ} {junk : ℕ → Buffer} {s' : FileSystem}
    (hs : s.create name n junk = some (true, s')) :
    ∃ d' i e sec hdr, s' = { s with disk := d' } ∧ Created s.disk d' name n i e sec hdr := by
  rcases h.create_cases name n junk with ⟨-, hfail⟩ | ⟨d', i, e, sec, hdr, hcreate, hc⟩ |
    ⟨-, -, hnone⟩
  · cases hs.symm.trans hfail
  · cases hs.symm.trans hcreate
    exact ⟨d', i, e, sec, hdr, rfl, hc⟩
  · cases hs.symm.trans hnone

/-- `Remove` of a file of the directory: the assertions of `Deallocate` hold, because the sectors
of the file are marked. -/
theorem Inv.removeFile_eq (h : s.Inv) {name : Buffer} {i : ℕ} {e : DirectoryEntry}
    (he : (directoryOn s.disk).Holds i e) (hidx : (directoryOn s.disk).findIndex name = i)
    (junk : ℕ → Buffer) :
    ∃ d', s.removeFile (directoryOn s.disk) name e.sector junk = some { s with disk := d' } ∧
      Removed s.disk d' i e := by
  obtain ⟨sec, hsec, hlt, hwf⟩ := h.disk.entry i e he
  have hmem : .file i ∈ owners s.disk := file_mem_owners.mpr ⟨e, he⟩
  have hsectors : sectorsOf s.disk (.file i) = sec :: (header s.disk sec).sectors := by
    rw [sectorsOf_file he, hsec, Int.toNat_natCast]
  -- `ASSERT(freeMap->Test(...))` holds for every block of the file.
  obtain ⟨bm, hdealloc, hmarked⟩ := hwf.deallocate_eq (freeMapOn s.disk) fun x hx =>
    h.disk.mem_marked hmem (by rw [hsectors]; exact List.mem_cons_of_mem _ hx)
  have hr : ((directoryOn s.disk).modify i fun e => { e with inUse := false }).InRange :=
    (Directory.inRange_ofBytes _).modify fun e' he' => Directory.inRange_ofBytes _ i e' he'
  have hself : Keeps s.disk s.disk := fun _ _ _ _ => rfl
  obtain ⟨d₂, hw₂, hk₂, -, hmap, -⟩ := h.flushFreeMap_eq hself (bm.resetBit sec) (junk 3)
  obtain ⟨d₃, hw₃, hk₃, -, hdir, hmap₃⟩ := h.flushDirectory_eq hk₂ hr (junk 4) (junk 5)
  have hremove : ((directoryOn s.disk).remove name).2
      = (directoryOn s.disk).modify i fun e => { e with inUse := false } := by
    rw [Directory.remove, hidx, if_neg (by omega), Int.toNat_natCast]
  refine ⟨d₃, ?_, he, hk₃, hdir, ?_⟩
  · rw [removeFile, hsec, bind_of_eq_some (fetchFrom_natCast _ hlt),
      bind_of_eq_some h.fetchFreeMap_eq, bind_of_eq_some hdealloc,
      bind_of_eq_some (Bitmap.clear_natCast _ hlt), hremove, bind_of_eq_some hw₂,
      bind_of_eq_some hw₃]
    rfl
  · rw [hmap₃, hmap, Bitmap.marked_resetBit _ hlt, hmarked, hsectors, List.toFinset_cons,
      Finset.sdiff_insert]

/-- **`Remove`** of a name that is not there changes nothing; otherwise it removes the file. -/
theorem Inv.remove_cases (h : s.Inv) (name : Buffer) (junk : ℕ → Buffer) :
    ((∀ i e, (directoryOn s.disk).Holds i e → nameOf e.nameBuffer ≠ nameOf name) ∧
      s.remove name junk = some (false, s)) ∨
    ∃ d' i e, nameOf e.nameBuffer = nameOf name ∧
      s.remove name junk = some (true, { s with disk := d' }) ∧ Removed s.disk d' i e := by
  unfold remove
  rw [h.fetchDirectory_eq, Option.bind_some]
  rcases (directoryOn s.disk).find_cases name with ⟨i, e, he, hname, hidx, hfind⟩ |
    ⟨hmiss, -, hfind⟩
  · right
    obtain ⟨sec, hsec, -⟩ := h.disk.entry i e he
    obtain ⟨d', hremove, hremoved⟩ := h.removeFile_eq he hidx junk
    refine ⟨d', i, e, hname, ?_, hremoved⟩
    rw [hfind, if_neg (by omega), hremove, Option.map_some]
  · left
    exact ⟨hmiss, if_pos hfind⟩

/-- `Open` of a name finds the file, with the header that is on the disk, or nothing. -/
theorem Inv.openFile_cases (h : s.Inv) (name : Buffer) (junk : ℕ → Buffer) :
    ((∀ i e, (directoryOn s.disk).Holds i e → nameOf e.nameBuffer ≠ nameOf name) ∧
      s.openFile name junk = some none) ∨
    ∃ i e, (directoryOn s.disk).Holds i e ∧ nameOf e.nameBuffer = nameOf name ∧
      s.openFile name junk = some (some ⟨header s.disk e.sector.toNat, 0⟩) := by
  unfold openFile
  rw [h.fetchDirectory_eq, Option.bind_some]
  rcases (directoryOn s.disk).find_cases name with ⟨i, e, he, hname, -, hfind⟩ | ⟨hmiss, -, hfind⟩
  · right
    obtain ⟨sec, hsec, hlt, -⟩ := h.disk.entry i e he
    refine ⟨i, e, he, hname, ?_⟩
    rw [hfind, hsec, if_pos (by omega), OpenFile.new, fetchFrom_natCast _ hlt, Option.map_some,
      Option.map_some, Int.toNat_natCast]
  · left
    exact ⟨hmiss, by rw [hfind, if_neg (by simp)]⟩

end FileSystem

end Nachos.FileSys
