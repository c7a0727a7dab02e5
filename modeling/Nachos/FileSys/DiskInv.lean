import Nachos.Base.Ownership
import Nachos.FileSys.FileSystem

namespace Nachos.FileSys

open Base Lib Function

/-!
# FileSys — who owns which sector

Four structures on the disk have to agree: the free map, the directory, the headers of the
files and the sectors they list. They are read off a disk by `header`, `freeMapOn` and
`directoryOn`; `sectorsOf` lists what belongs to the free map, to the directory and to each
file.

* `DiskInv` — the headers are well formed and the marked sectors are exactly those that belong
  to someone, none of them twice;
* `Keeps` — the disk only differs in free sectors and in the data of the free map and the
  directory;
* `Created`, `Removed` — all that a successful `Create` or `Remove` does to the disk; both keep
  the invariant (`Created.inv`, `Removed.inv`).
-/

/-! ### What is on a disk -/

/-- The header stored in a sector. -/
def header (d : Disk) (s : ℕ) : FileHeader := .ofBytes (d s)

theorem fetchFrom_natCast (d : Disk) {s : ℕ} (hs : s < numDiskSectors) :
    FileHeader.fetchFrom d s = some (header d s) := by
  rw [FileHeader.fetchFrom, Disk.readSector_natCast d hs, Option.map_some, header]

/-- The free map stored on a disk. -/
def freeMapOn (d : Disk) : Bitmap numDiskSectors :=
  PersistentBitmap.ofBytes numDiskSectors (fileByte d (header d freeMapSector))

/-- The directory stored on a disk. -/
def directoryOn (d : Disk) : Directory numDirEntries :=
  Directory.ofBytes numDirEntries (fileByte d (header d directorySector))

/-- Who can own sectors: the two files of the file system, and the files of the directory. -/
inductive Owner where
  | freeMap
  | directory
  | file (i : ℕ)
  deriving DecidableEq

/-- The sector of the header of an owner, and its data sectors. -/
def sectorsOf (d : Disk) : Owner → List ℕ
  | .freeMap => freeMapSector :: (header d freeMapSector).sectors
  | .directory => directorySector :: (header d directorySector).sectors
  | .file i =>
    match (directoryOn d).table[i]? with
    | some e => e.sector.toNat :: (header d e.sector.toNat).sectors
    | none => []

/-- The owners: the files are the directory entries in use. -/
def owners (d : Disk) : Finset Owner :=
  {.freeMap, .directory} ∪ ((Finset.range numDirEntries).filter fun i =>
    ((directoryOn d).table[i]?.map DirectoryEntry.inUse) = some true).image .file

theorem file_mem_owners {d : Disk} {i : ℕ} :
    .file i ∈ owners d ↔ ∃ e, (directoryOn d).Holds i e := by
  simp only [owners, Finset.mem_union, Finset.mem_insert, Finset.mem_singleton, reduceCtorEq,
    or_self, Finset.mem_image, Finset.mem_filter, Finset.mem_range, Owner.file.injEq,
    exists_eq_right, false_or, Option.map_eq_some_iff]
  constructor
  · rintro ⟨-, e, he⟩
    exact ⟨e, he⟩
  · rintro ⟨e, he⟩
    exact ⟨he.lt, e, he⟩

theorem freeMap_mem_owners (d : Disk) : .freeMap ∈ owners d := by simp [owners]

theorem directory_mem_owners (d : Disk) : .directory ∈ owners d := by simp [owners]

theorem sectorsOf_file {d : Disk} {i : ℕ} {e : DirectoryEntry} (h : (directoryOn d).Holds i e) :
    sectorsOf d (.file i) = e.sector.toNat :: (header d e.sector.toNat).sectors := by
  simp only [sectorsOf, h.1]

/-! ### The invariant -/

/-- The disk is consistent. -/
structure DiskInv (d : Disk) : Prop where
  map_wf : (header d freeMapSector).WellFormed
  map_length : (header d freeMapSector).length = freeMapFileSize
  dir_wf : (header d directorySector).WellFormed
  dir_length : (header d directorySector).length = directoryFileSize
  entry : ∀ i e, (directoryOn d).Holds i e →
    ∃ s : ℕ, e.sector = s ∧ s < numDiskSectors ∧ (header d s).WellFormed
  owned : Owned (owners d) (sectorsOf d) (freeMapOn d).marked
  distinct : (directoryOn d).Distinct

/-- The new disk only differs in sectors that were free and in the data of the free map and the
directory. -/
def Keeps (d d' : Disk) : Prop :=
  ∀ s ∈ (freeMapOn d).marked, s ∉ (header d freeMapSector).sectors →
    s ∉ (header d directorySector).sectors → d' s = d s

namespace DiskInv

variable {d d' : Disk}

variable (h : DiskInv d)

include h

theorem map_disjoint_dir {s : ℕ} (hs : s ∈ (header d freeMapSector).sectors) :
    s ∉ (header d directorySector).sectors := fun hs' =>
  h.owned.disjoint _ (freeMap_mem_owners d) _ (directory_mem_owners d) (by decide)
    (List.mem_cons_of_mem _ hs) (List.mem_cons_of_mem _ hs')

theorem mem_marked {k : Owner} (hk : k ∈ owners d) {s : ℕ}
    (hs : s ∈ sectorsOf d k) : s ∈ (freeMapOn d).marked :=
  (h.owned.mem_used s).mpr ⟨k, hk, hs⟩

theorem map_marked {s : ℕ} (hs : s ∈ (header d freeMapSector).sectors) :
    s ∈ (freeMapOn d).marked :=
  h.mem_marked (freeMap_mem_owners d) (List.mem_cons_of_mem _ hs)

theorem dir_marked {s : ℕ} (hs : s ∈ (header d directorySector).sectors) :
    s ∈ (freeMapOn d).marked :=
  h.mem_marked (directory_mem_owners d) (List.mem_cons_of_mem _ hs)

/-- The header of the free map is kept. -/
theorem header_map (hk : Keeps d d') :
    header d' freeMapSector = header d freeMapSector := by
  unfold header
  rw [hk freeMapSector (h.mem_marked (freeMap_mem_owners d) List.mem_cons_self)]
  · exact (List.nodup_cons.mp (h.owned.nodup _ (freeMap_mem_owners d))).1
  · exact fun hs => h.owned.disjoint _ (freeMap_mem_owners d) _ (directory_mem_owners d)
      (by decide) List.mem_cons_self (List.mem_cons_of_mem _ hs)

/-- The header of the directory is kept. -/
theorem header_dir (hk : Keeps d d') :
    header d' directorySector = header d directorySector := by
  unfold header
  rw [hk directorySector (h.mem_marked (directory_mem_owners d) List.mem_cons_self)]
  · exact fun hs => h.owned.disjoint _ (directory_mem_owners d) _ (freeMap_mem_owners d)
      (by decide) List.mem_cons_self (List.mem_cons_of_mem _ hs)
  · exact (List.nodup_cons.mp (h.owned.nodup _ (directory_mem_owners d))).1

/-- Every sector of a file is kept. -/
theorem file_kept (hk : Keeps d d') {i : ℕ} {e : DirectoryEntry}
    (he : (directoryOn d).Holds i e) {s : ℕ} (hs : s ∈ sectorsOf d (.file i)) : d' s = d s := by
  have hi : .file i ∈ owners d := file_mem_owners.mpr ⟨e, he⟩
  apply hk s (h.mem_marked hi hs)
  · exact fun hs' => h.owned.disjoint _ hi _ (freeMap_mem_owners d) (by simp) hs
      (List.mem_cons_of_mem _ hs')
  · exact fun hs' => h.owned.disjoint _ hi _ (directory_mem_owners d) (by simp) hs
      (List.mem_cons_of_mem _ hs')

theorem header_file (hk : Keeps d d') {i : ℕ} {e : DirectoryEntry}
    (he : (directoryOn d).Holds i e) : header d' e.sector.toNat = header d e.sector.toNat := by
  unfold header
  rw [h.file_kept hk he (by rw [sectorsOf_file he]; exact List.mem_cons_self)]

/-- A disk that keeps the files is consistent if its directory and its free map are. -/
theorem of_keeps (hk : Keeps d d')
    (hentry : ∀ i e, (directoryOn d').Holds i e →
      ∃ s : ℕ, e.sector = s ∧ s < numDiskSectors ∧ (header d' s).WellFormed)
    (howned : Owned (owners d') (sectorsOf d') (freeMapOn d').marked)
    (hdistinct : (directoryOn d').Distinct) : DiskInv d' := by
  refine ⟨?_, ?_, ?_, ?_, hentry, howned, hdistinct⟩
  · rw [h.header_map hk]; exact h.map_wf
  · rw [h.header_map hk]; exact h.map_length
  · rw [h.header_dir hk]; exact h.dir_wf
  · rw [h.header_dir hk]; exact h.dir_length

/-- The entries that stay still lead to well-formed headers. -/
theorem entry_kept (hk : Keeps d d') {i : ℕ} {e : DirectoryEntry}
    (he : (directoryOn d).Holds i e) :
    ∃ s : ℕ, e.sector = s ∧ s < numDiskSectors ∧ (header d' s).WellFormed := by
  obtain ⟨s, hs, hlt, hwf⟩ := h.entry i e he
  have hkept := h.header_file hk he
  rw [hs, Int.toNat_natCast] at hkept
  refine ⟨s, hs, hlt, ?_⟩
  rw [hkept]
  exact hwf

end DiskInv

/-! ### `Create` and `Remove` on a consistent disk -/

/-- A file of `n` bytes can be created under a name: the name is not taken, an entry of the
directory is free, and so are a sector for the header and those for the data. -/
structure Room (d : Disk) (name : Buffer) (n : ℕ) : Prop where
  missing : ∀ j e, (directoryOn d).Holds j e → nameOf e.nameBuffer ≠ nameOf name
  entry : ∃ (i : ℕ) (e : DirectoryEntry), (directoryOn d).table[i]? = some e ∧ e.inUse = false
  clear : (n + sectorSize - 1) / sectorSize < (freeMapOn d).numClear

/-- What a successful `Create` of a file of `n` bytes does: entry `i` gets the name and the
sector `sec`, where the header `hdr` is. -/
structure Created (d d' : Disk) (name : Buffer) (n i : ℕ) (e : DirectoryEntry) (sec : ℕ)
    (hdr : FileHeader) : Prop where
  missing : ∀ j e', (directoryOn d).Holds j e' → nameOf e'.nameBuffer ≠ nameOf name
  entry : (directoryOn d).table[i]? = some e
  unused : e.inUse = false
  sec_lt : sec < numDiskSectors
  fresh : ∀ s ∈ sec :: hdr.sectors, s ∉ (freeMapOn d).marked
  nodup : (sec :: hdr.sectors).Nodup
  hdr_wf : hdr.WellFormed
  hdr_length : hdr.length = n
  keeps : Keeps d d'
  header_eq : header d' sec = hdr
  directory_eq : directoryOn d' = (directoryOn d).modify i fun e => e.assign name sec
  marked_eq : (freeMapOn d').marked = (freeMapOn d).marked ∪ (sec :: hdr.sectors).toFinset

/-- What a successful `Remove` of entry `i` does. -/
structure Removed (d d' : Disk) (i : ℕ) (e : DirectoryEntry) : Prop where
  holds : (directoryOn d).Holds i e
  keeps : Keeps d d'
  directory_eq : directoryOn d' = (directoryOn d).modify i fun e => { e with inUse := false }
  marked_eq : (freeMapOn d').marked = (freeMapOn d).marked \ (sectorsOf d (.file i)).toFinset

namespace Created

variable {d d' : Disk} {name : Buffer} {n i sec : ℕ} {e : DirectoryEntry} {hdr : FileHeader}

/-- The new directory holds the old entries and the new one. -/
theorem holds_iff (hc : Created d d' name n i e sec hdr) {j : ℕ} {e' : DirectoryEntry} :
    (directoryOn d').Holds j e' ↔
      (j = i ∧ e' = e.assign name sec) ∨ (directoryOn d).Holds j e' := by
  rw [hc.directory_eq]
  exact Directory.holds_add hc.entry hc.unused

theorem not_holds (hc : Created d d' name n i e sec hdr) (e' : DirectoryEntry) :
    ¬ (directoryOn d).Holds i e' := by
  rintro ⟨he', huse⟩
  rw [hc.entry] at he'
  cases he'
  rw [hc.unused] at huse
  cases huse

theorem owners_eq (hc : Created d d' name n i e sec hdr) :
    owners d' = insert (.file i) (owners d) := by
  ext k
  rw [Finset.mem_insert]
  cases k with
  | freeMap => simp [freeMap_mem_owners]
  | directory => simp [directory_mem_owners]
  | file j =>
    simp only [file_mem_owners, hc.holds_iff, Owner.file.injEq]
    constructor
    · rintro ⟨e', ⟨rfl, -⟩ | hold⟩
      · exact .inl rfl
      · exact .inr ⟨e', hold⟩
    · rintro (rfl | ⟨e', hold⟩)
      · exact ⟨_, .inl ⟨rfl, rfl⟩⟩
      · exact ⟨e', .inr hold⟩

/-- The new file gets its sectors, and the others keep theirs. -/
theorem sectorsOf_eq (h : DiskInv d) (hc : Created d d' name n i e sec hdr) {k : Owner}
    (hk : k ∈ insert (.file i) (owners d)) :
    sectorsOf d' k = update (sectorsOf d) (.file i) (sec :: hdr.sectors) k := by
  have hsec : (e.assign name sec).sector = (sec : Int) := rfl
  cases k with
  | freeMap => simp [sectorsOf, h.header_map hc.keeps]
  | directory => simp [sectorsOf, h.header_dir hc.keeps]
  | file j =>
    by_cases hji : j = i
    · subst hji
      rw [sectorsOf_file (hc.holds_iff.mpr (.inl ⟨rfl, rfl⟩)), update_self, hsec,
        Int.toNat_natCast, hc.header_eq]
    · have hj : .file j ∈ owners d := by
        rcases Finset.mem_insert.mp hk with heq | hmem
        · exact absurd (Owner.file.inj heq) hji
        · exact hmem
      obtain ⟨e', he'⟩ := file_mem_owners.mp hj
      rw [update_of_ne (by simpa using hji), sectorsOf_file he',
        sectorsOf_file (hc.holds_iff.mpr (.inr he')), h.header_file hc.keeps he']

/-- The new name is not one of the old names. -/
theorem distinct (h : DiskInv d) (hc : Created d d' name n i e sec hdr) :
    (directoryOn d').Distinct := by
  intro j k e₁ e₂ h₁ h₂ hname
  -- Each of the two entries is the new one or an old one.
  rcases hc.holds_iff.mp h₁ with ⟨rfl, rfl⟩ | hold₁ <;>
    rcases hc.holds_iff.mp h₂ with ⟨hk, rfl⟩ | hold₂
  · exact hk.symm
  · rw [DirectoryEntry.nameOf_assign] at hname
    exact absurd hname.symm (hc.missing k e₂ hold₂)
  · rw [DirectoryEntry.nameOf_assign] at hname
    exact absurd hname (hc.missing j e₁ hold₁)
  · exact h.distinct j k e₁ e₂ hold₁ hold₂ hname

/-- **A new file takes sectors that nobody owns.** -/
theorem inv (h : DiskInv d) (hc : Created d d' name n i e sec hdr) : DiskInv d' := by
  refine h.of_keeps hc.keeps (fun j e' he' => ?_) ?_ (hc.distinct h)
  · rcases hc.holds_iff.mp he' with ⟨rfl, rfl⟩ | hold
    · refine ⟨sec, rfl, hc.sec_lt, ?_⟩
      rw [hc.header_eq]
      exact hc.hdr_wf
    · exact h.entry_kept hc.keeps hold
  · -- The free map gains exactly the sectors that the new owner takes.
    rw [hc.owners_eq, hc.marked_eq]
    refine (h.owned.take (fun hmem => ?_) hc.nodup hc.fresh).congr fun k hk => hc.sectorsOf_eq h hk
    obtain ⟨e', he'⟩ := file_mem_owners.mp hmem
    exact absurd he' (hc.not_holds e')

end Created

namespace Removed

variable {d d' : Disk} {i : ℕ} {e : DirectoryEntry}

theorem holds_iff (hr : Removed d d' i e) {j : ℕ} {e' : DirectoryEntry} :
    (directoryOn d').Holds j e' ↔ j ≠ i ∧ (directoryOn d).Holds j e' := by
  rw [hr.directory_eq]
  exact Directory.holds_remove

theorem owners_eq (hr : Removed d d' i e) : owners d' = (owners d).erase (.file i) := by
  ext k
  rw [Finset.mem_erase]
  cases k with
  | freeMap => simp [freeMap_mem_owners]
  | directory => simp [directory_mem_owners]
  | file j => simp only [file_mem_owners, hr.holds_iff, ne_eq, Owner.file.injEq, exists_and_left]

/-- The others keep their sectors. -/
theorem sectorsOf_eq (h : DiskInv d) (hr : Removed d d' i e) {k : Owner}
    (hk : k ∈ (owners d).erase (.file i)) : sectorsOf d' k = sectorsOf d k := by
  cases k with
  | freeMap => simp [sectorsOf, h.header_map hr.keeps]
  | directory => simp [sectorsOf, h.header_dir hr.keeps]
  | file j =>
    obtain ⟨hji, hj⟩ := Finset.mem_erase.mp hk
    obtain ⟨e', he'⟩ := file_mem_owners.mp hj
    rw [sectorsOf_file he', sectorsOf_file (hr.holds_iff.mpr ⟨by simpa using hji, he'⟩),
      h.header_file hr.keeps he']

/-- **A file that is removed gives all its sectors back.** -/
theorem inv (h : DiskInv d) (hr : Removed d d' i e) : DiskInv d' := by
  refine h.of_keeps hr.keeps (fun j e' he' => h.entry_kept hr.keeps (hr.holds_iff.mp he').2) ?_
    fun j k e₁ e₂ h₁ h₂ hname => ?_
  · rw [hr.owners_eq, hr.marked_eq]
    exact (h.owned.release (file_mem_owners.mpr ⟨e, hr.holds⟩)).congr fun k hk =>
      hr.sectorsOf_eq h hk
  · exact h.distinct j k e₁ e₂ (hr.holds_iff.mp h₁).2 (hr.holds_iff.mp h₂).2 hname

end Removed

end Nachos.FileSys
