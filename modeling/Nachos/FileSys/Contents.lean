import Nachos.Base.ArrayStore
import Nachos.FileSys.Operations

namespace Nachos.FileSys

open Base Lib Function

/-!
# FileSys — the contents of the files

A consistent disk stands for a store of byte arrays: `contents` maps the name of a file to its
bytes. `Opens` relates a name to the header that `Open` finds for it.

* `Created.contents_eq`, `Removed.contents_eq` — `Create` and `Remove` update the store at one
  name, although they rewrite the free map and the directory;
* `Wrote` — all that changing the data of one file does to the disk; the invariant is kept
  (`Wrote.inv`) and the store is updated at its name (`Wrote.contents_eq`);
* `readAt_bytes`, `writeAt_bytes` — `ReadAt` and `WriteAt` in terms of the store.
-/

/-- The bytes of a file. -/
def fileBytes (d : Disk) (h : FileHeader) : List UInt8 := (List.range h.length).map (fileByte d h)

@[simp] theorem length_fileBytes (d : Disk) (h : FileHeader) :
    (fileBytes d h).length = h.length := by
  rw [fileBytes, List.length_map, List.length_range]

theorem getElem?_fileBytes (d : Disk) (h : FileHeader) (o : ℕ) :
    (fileBytes d h)[o]? = if o < h.length then some (fileByte d h o) else none := by
  rw [fileBytes, List.getElem?_map]
  by_cases ho : o < h.length
  · rw [List.getElem?_range ho, if_pos ho, Option.map_some]
  · rw [List.getElem?_eq_none (by simpa using ho), if_neg ho, Option.map_none]

theorem fileBytes_congr {d d' : Disk} {h : FileHeader} (heq : ∀ s ∈ h.sectors, d' s = d s) :
    fileBytes d' h = fileBytes d h := by
  apply List.map_congr_left
  intro o ho
  exact fileByte_congr heq (List.mem_range.mp ho)

/-! ### The store of a disk -/

/-- The names of the files, and the bytes of each. -/
def contents (d : Disk) : ArrayStore (List UInt8) UInt8 := fun name =>
  ((directoryOn d).table.toList.find? fun e => e.inUse && nameOf e.nameBuffer == name).map
    fun e => fileBytes d (header d e.sector.toNat)

/-- The directory leads from the name to the header. -/
def Opens (d : Disk) (name : List UInt8) (hdr : FileHeader) : Prop :=
  ∃ i e, (directoryOn d).Holds i e ∧ nameOf e.nameBuffer = name ∧ header d e.sector.toNat = hdr

variable {d d' : Disk} {name : List UInt8} {hdr : FileHeader}

theorem DiskInv.opens_wf (h : DiskInv d) (ho : Opens d name hdr) : hdr.WellFormed := by
  obtain ⟨i, e, he, -, rfl⟩ := ho
  obtain ⟨s, hs, -, hwf⟩ := h.entry i e he
  rw [hs, Int.toNat_natCast]
  exact hwf

/-- A name leads to one header only. -/
theorem DiskInv.opens_unique (h : DiskInv d) {hdr' : FileHeader} (ho : Opens d name hdr)
    (ho' : Opens d name hdr') : hdr = hdr' := by
  obtain ⟨i, e, he, hname, rfl⟩ := ho
  obtain ⟨j, e', he', hname', rfl⟩ := ho'
  have hij := h.distinct i j e e' he he' (hname.trans hname'.symm)
  subst hij
  rw [he.unique he']

/-- `Open` of a name that leads to a header. -/
theorem FileSystem.Inv.openFile_eq {s : FileSystem} (h : s.Inv) {name : Buffer}
    (ho : Opens s.disk (nameOf name) hdr) (junk : ℕ → Buffer) :
    s.openFile name junk = some (some ⟨hdr, 0⟩) := by
  rcases h.openFile_cases name junk with ⟨hmiss, -⟩ | ⟨i, e, he, hname, hopen⟩
  · obtain ⟨i, e, he, hname, -⟩ := ho
    exact absurd hname (hmiss i e he)
  · rw [hopen, h.disk.opens_unique ho ⟨i, e, he, hname, rfl⟩]

/-- A name that leads to a header stands for the bytes of the file. -/
theorem DiskInv.contents_of_opens (h : DiskInv d) (ho : Opens d name hdr) :
    contents d name = some (fileBytes d hdr) := by
  obtain ⟨i, e, he, hname, rfl⟩ := ho
  -- The search finds an entry with the name, and there is only one.
  have hmem : e ∈ (directoryOn d).table.toList := by
    rw [Vector.mem_toList_iff]
    exact Vector.mem_of_getElem? he.1
  cases hfind : (directoryOn d).table.toList.find? fun e =>
      e.inUse && nameOf e.nameBuffer == name with
  | none =>
    have hmiss := List.find?_eq_none.mp hfind e hmem
    rw [he.2, hname] at hmiss
    simp at hmiss
  | some e' =>
    have hfound := List.find?_some hfind
    rw [Bool.and_eq_true, beq_iff_eq] at hfound
    obtain ⟨j, hj, hje⟩ := Vector.mem_iff_getElem.mp
      (Vector.mem_toList_iff.mp (List.mem_of_find?_eq_some hfind))
    have he' : (directoryOn d).Holds j e' := ⟨Vector.getElem?_eq_some_iff.mpr ⟨hj, hje⟩, hfound.1⟩
    have hji := h.distinct j i e' e he' he (hfound.2.trans hname.symm)
    subst hji
    rw [contents, hfind, Option.map_some, he'.unique he]

/-- A name that leads nowhere stands for nothing. -/
theorem contents_eq_none (ho : ∀ hdr, ¬ Opens d name hdr) : contents d name = none := by
  rw [contents, Option.map_eq_none_iff, List.find?_eq_none]
  intro e he hhit
  rw [Bool.and_eq_true, beq_iff_eq] at hhit
  obtain ⟨i, hi, hie⟩ := Vector.mem_iff_getElem.mp (Vector.mem_toList_iff.mp he)
  exact ho _ ⟨i, e, ⟨Vector.getElem?_eq_some_iff.mpr ⟨hi, hie⟩, hhit.1⟩, hhit.2, rfl⟩

theorem DiskInv.contents_cases (h : DiskInv d) (name : List UInt8) :
    (∃ hdr, Opens d name hdr ∧ contents d name = some (fileBytes d hdr)) ∨
    ((∀ hdr, ¬ Opens d name hdr) ∧ contents d name = none) := by
  by_cases ho : ∃ hdr, Opens d name hdr
  · obtain ⟨hdr, ho⟩ := ho
    exact .inl ⟨hdr, ho, h.contents_of_opens ho⟩
  · have hnone : ∀ hdr, ¬ Opens d name hdr := fun hdr ho' => ho ⟨hdr, ho'⟩
    exact .inr ⟨hnone, contents_eq_none hnone⟩

/-- A name stands for the same bytes if it leads to the same header and the bytes are kept. -/
theorem DiskInv.contents_congr (h : DiskInv d) (h' : DiskInv d')
    (ho : ∀ hdr, Opens d' name hdr ↔ Opens d name hdr)
    (hbytes : ∀ hdr, Opens d name hdr → fileBytes d' hdr = fileBytes d hdr) :
    contents d' name = contents d name := by
  rcases h.contents_cases name with ⟨hdr, hopen, hcontents⟩ | ⟨hnone, hcontents⟩
  · rw [hcontents, h'.contents_of_opens ((ho hdr).mpr hopen), hbytes hdr hopen]
  · rw [hcontents]
    exact contents_eq_none fun hdr hopen => hnone hdr ((ho hdr).mp hopen)

/-! ### `Create` and `Remove` -/

/-- The bytes of a file are kept when the free map and the directory change. -/
theorem DiskInv.fileBytes_kept (h : DiskInv d) (hk : Keeps d d') (ho : Opens d name hdr) :
    fileBytes d' hdr = fileBytes d hdr := by
  obtain ⟨i, e, he, -, rfl⟩ := ho
  apply fileBytes_congr
  intro s hs
  apply h.file_kept hk he
  rw [sectorsOf_file he]
  exact List.mem_cons_of_mem _ hs

section Create

variable {file : Buffer} {n i sec : ℕ} {e : DirectoryEntry}

/-- After `Create` the new name leads to the new header. -/
theorem Created.opens_iff (h : DiskInv d) (hc : Created d d' file n i e sec hdr)
    {hdr' : FileHeader} :
    Opens d' name hdr' ↔ (name = nameOf file ∧ hdr' = hdr) ∨ Opens d name hdr' := by
  unfold Opens
  simp only [hc.holds_iff]
  constructor
  · rintro ⟨j, e', ⟨-, rfl⟩ | he', rfl, rfl⟩
    · left
      rw [DirectoryEntry.nameOf_assign]
      exact ⟨rfl, hc.header_eq⟩
    · exact .inr ⟨j, e', he', rfl, (h.header_file hc.keeps he').symm⟩
  · rintro (⟨rfl, rfl⟩ | ⟨j, e', he', rfl, rfl⟩)
    · exact ⟨i, _, .inl ⟨rfl, rfl⟩, DirectoryEntry.nameOf_assign .., hc.header_eq⟩
    · exact ⟨j, e', .inr he', rfl, h.header_file hc.keeps he'⟩

theorem Created.contents_none (hc : Created d d' file n i e sec hdr) :
    contents d (nameOf file) = none :=
  contents_eq_none fun _ ⟨j, e', he', hname, _⟩ => hc.missing j e' he' hname

/-- **`Create`** adds one name to the store. -/
theorem Created.contents_eq (h : DiskInv d) (hc : Created d d' file n i e sec hdr) :
    contents d' = update (contents d) (nameOf file) (some (fileBytes d' hdr)) := by
  have h' := hc.inv h
  ext1 name
  by_cases hname : name = nameOf file
  · subst hname
    rw [update_self]
    exact h'.contents_of_opens ((hc.opens_iff h).mpr (.inl ⟨rfl, rfl⟩))
  · rw [update_of_ne hname]
    apply h.contents_congr h'
    · intro hdr'
      rw [hc.opens_iff h]
      simp [hname]
    · exact fun _ ho => h.fileBytes_kept hc.keeps ho

end Create

section Remove

variable {i : ℕ} {e : DirectoryEntry}

/-- After `Remove` the name leads nowhere. -/
theorem Removed.opens_iff (h : DiskInv d) (hr : Removed d d' i e) :
    Opens d' name hdr ↔ name ≠ nameOf e.nameBuffer ∧ Opens d name hdr := by
  unfold Opens
  simp only [hr.holds_iff]
  constructor
  · rintro ⟨j, e', ⟨hji, he'⟩, rfl, rfl⟩
    -- An entry with the name would be the removed one, since names are distinct.
    refine ⟨fun hname => hji ?_, j, e', he', rfl, (h.header_file hr.keeps he').symm⟩
    exact h.distinct j i e' e he' hr.holds hname
  · rintro ⟨hname, j, e', he', rfl, rfl⟩
    refine ⟨j, e', ⟨?_, he'⟩, rfl, h.header_file hr.keeps he'⟩
    rintro rfl
    exact hname (by rw [he'.unique hr.holds])

/-- **`Remove`** takes one name out of the store. -/
theorem Removed.contents_eq (h : DiskInv d) (hr : Removed d d' i e) :
    contents d' = update (contents d) (nameOf e.nameBuffer) none := by
  have h' := hr.inv h
  ext1 name
  by_cases hname : name = nameOf e.nameBuffer
  · subst hname
    rw [update_self]
    exact contents_eq_none fun hdr ho => ((hr.opens_iff h).mp ho).1 rfl
  · rw [update_of_ne hname]
    apply h.contents_congr h'
    · intro hdr
      rw [hr.opens_iff h]
      simp [hname]
    · exact fun _ ho => h.fileBytes_kept hr.keeps ho

end Remove

/-! ### Writing to a file -/

/-- Only data sectors of the file in entry `i` have changed. -/
structure Wrote (d d' : Disk) (i : ℕ) (e : DirectoryEntry) : Prop where
  holds : (directoryOn d).Holds i e
  other : ∀ s, s ∉ (header d e.sector.toNat).sectors → d' s = d s

namespace Wrote

variable {i j : ℕ} {e e' : DirectoryEntry}

/-- The sectors of everybody else are kept. -/
theorem kept (h : DiskInv d) (hw : Wrote d d' i e) {k : Owner} (hk : k ∈ owners d)
    (hne : k ≠ .file i) {s : ℕ} (hs : s ∈ sectorsOf d k) : d' s = d s := by
  apply hw.other
  intro hs'
  refine h.owned.disjoint _ hk _ (file_mem_owners.mpr ⟨e, hw.holds⟩) hne hs ?_
  rw [sectorsOf_file hw.holds]
  exact List.mem_cons_of_mem _ hs'

theorem header_map (h : DiskInv d) (hw : Wrote d d' i e) :
    header d' freeMapSector = header d freeMapSector := by
  unfold header
  rw [hw.kept h (freeMap_mem_owners d) (by simp) List.mem_cons_self]

theorem header_dir (h : DiskInv d) (hw : Wrote d d' i e) :
    header d' directorySector = header d directorySector := by
  unfold header
  rw [hw.kept h (directory_mem_owners d) (by simp) List.mem_cons_self]

/-- The headers of the files are kept, that of the file itself too. -/
theorem header_file (h : DiskInv d) (hw : Wrote d d' i e) (he' : (directoryOn d).Holds j e') :
    header d' e'.sector.toNat = header d e'.sector.toNat := by
  have hmem : .file j ∈ owners d := file_mem_owners.mpr ⟨e', he'⟩
  have hkept : d' e'.sector.toNat = d e'.sector.toNat := by
    by_cases hji : j = i
    · -- The header of the file itself is in none of its data sectors.
      subst hji
      have hnodup := h.owned.nodup _ hmem
      rw [sectorsOf_file he', List.nodup_cons, he'.unique hw.holds] at hnodup
      rw [he'.unique hw.holds]
      exact hw.other _ hnodup.1
    · apply hw.kept h hmem (by simpa using hji)
      rw [sectorsOf_file he']
      exact List.mem_cons_self
  unfold header
  rw [hkept]

theorem freeMapOn_eq (h : DiskInv d) (hw : Wrote d d' i e) : freeMapOn d' = freeMapOn d := by
  unfold freeMapOn
  rw [hw.header_map h]
  apply PersistentBitmap.ofBytes_congr
  intro o ho
  rw [← freeMapFileSize_eq, ← h.map_length] at ho
  exact fileByte_congr (fun s hs => hw.kept h (freeMap_mem_owners d) (by simp)
    (List.mem_cons_of_mem _ hs)) ho

theorem directoryOn_eq (h : DiskInv d) (hw : Wrote d d' i e) : directoryOn d' = directoryOn d := by
  unfold directoryOn
  rw [hw.header_dir h]
  apply Directory.ofBytes_congr
  intro o ho
  rw [← directoryFileSize_eq, ← h.dir_length] at ho
  exact fileByte_congr (fun s hs => hw.kept h (directory_mem_owners d) (by simp)
    (List.mem_cons_of_mem _ hs)) ho

/-- The disk stays consistent. -/
theorem inv (h : DiskInv d) (hw : Wrote d d' i e) : DiskInv d' := by
  have hdir := hw.directoryOn_eq h
  refine ⟨?_, ?_, ?_, ?_, fun j e' he' => ?_, ?_, ?_⟩
  · rw [hw.header_map h]; exact h.map_wf
  · rw [hw.header_map h]; exact h.map_length
  · rw [hw.header_dir h]; exact h.dir_wf
  · rw [hw.header_dir h]; exact h.dir_length
  · rw [hdir] at he'
    obtain ⟨s, hs, hlt, hwf⟩ := h.entry j e' he'
    have hkept := hw.header_file h he'
    rw [hs, Int.toNat_natCast] at hkept
    exact ⟨s, hs, hlt, by rw [hkept]; exact hwf⟩
  · have howners : owners d' = owners d := by
      unfold owners
      rw [hdir]
    rw [howners, hw.freeMapOn_eq h]
    refine h.owned.congr fun k hk => ?_
    cases k with
    | freeMap => rw [sectorsOf, sectorsOf, hw.header_map h]
    | directory => rw [sectorsOf, sectorsOf, hw.header_dir h]
    | file j =>
      obtain ⟨e', he'⟩ := file_mem_owners.mp hk
      rw [sectorsOf_file he', sectorsOf_file (by rw [hdir]; exact he'), hw.header_file h he']
  · rw [hdir]; exact h.distinct

/-- Every name leads to the same header. -/
theorem opens_iff (h : DiskInv d) (hw : Wrote d d' i e) : Opens d' name hdr ↔ Opens d name hdr := by
  unfold Opens
  rw [hw.directoryOn_eq h]
  constructor
  · rintro ⟨j, e', he', rfl, rfl⟩
    exact ⟨j, e', he', rfl, (hw.header_file h he').symm⟩
  · rintro ⟨j, e', he', rfl, rfl⟩
    exact ⟨j, e', he', rfl, hw.header_file h he'⟩

/-- **Writing to a file** updates the store at its name. -/
theorem contents_eq (h : DiskInv d) (hw : Wrote d d' i e) :
    contents d' = update (contents d) (nameOf e.nameBuffer)
      (some (fileBytes d' (header d e.sector.toNat))) := by
  have h' := hw.inv h
  ext1 name
  by_cases hname : name = nameOf e.nameBuffer
  · subst hname
    rw [update_self]
    exact h'.contents_of_opens ((hw.opens_iff h).mpr ⟨i, e, hw.holds, rfl, rfl⟩)
  · rw [update_of_ne hname]
    refine h.contents_congr h' (fun hdr => hw.opens_iff h) ?_
    rintro hdr ⟨j, e', he', rfl, rfl⟩
    -- The other file has its own sectors.
    apply fileBytes_congr
    intro s hs
    refine hw.kept h (file_mem_owners.mpr ⟨e', he'⟩) ?_ (by
      rw [sectorsOf_file he']; exact List.mem_cons_of_mem _ hs)
    rintro ⟨rfl⟩
    exact hname (by rw [he'.unique hw.holds])

end Wrote

/-- The file system object fits the new disk. -/
theorem FileSystem.Inv.wrote {s : FileSystem} (h : s.Inv) {i : ℕ} {e : DirectoryEntry}
    (hw : Wrote s.disk d' i e) : ({ s with disk := d' } : FileSystem).Inv := by
  refine ⟨hw.inv h.disk, ?_, ?_⟩
  · rw [hw.header_map h.disk]; exact h.freeMapFile
  · rw [hw.header_dir h.disk]; exact h.directoryFile

/-! ### Requests -/

namespace OpenFile

variable {f : OpenFile} {n : Int} {p : ℕ}

/-- `ReadAt` returns a part of the array. -/
theorem readAt_bytes (hwf : f.hdr.WellFormed) (d : Disk) (hfits : f.Fits n p) :
    ∃ bytes, f.readAt d n p = some (f.transferred n p, bytes) ∧
      (List.range (f.transferred n p)).map bytes = ((fileBytes d f.hdr).drop p).take n.toNat := by
  obtain ⟨bytes, hread, hval⟩ := readAt_eq hwf.covers d hfits
  refine ⟨bytes, hread, ?_⟩
  apply List.ext_getElem
  · simp [transferred]
  · intro i hi hi'
    rw [List.length_map, List.length_range] at hi
    simp only [List.getElem_map, List.getElem_range, List.getElem_take, List.getElem_drop,
      fileBytes]
    exact hval i hi

/-- `WriteAt` overwrites a part of the array and no sector outside the file. -/
theorem writeAt_bytes (hwf : f.hdr.WellFormed) (d : Disk) (junk src : Buffer)
    (hfits : f.Fits n p) :
    ∃ d', f.writeAt d junk src n p = some (f.transferred n p, d') ∧
      (∀ s, s ∉ f.hdr.sectors → d' s = d s) ∧
      fileBytes d' f.hdr =
        overwrite (fileBytes d f.hdr) p ((List.range (f.transferred n p)).map src) := by
  obtain ⟨d', hwrite, hother, hval⟩ := writeAt_eq hwf.covers d junk src hfits
  refine ⟨d', hwrite, hother, ?_⟩
  apply List.ext_getElem?
  intro o
  rw [getElem?_overwrite, getElem?_fileBytes, getElem?_fileBytes]
  by_cases ho : o < f.hdr.length
  · rw [if_pos ho, if_pos ho, hval o ho, Option.map_some, writtenAt]
    -- Before the request, inside of it, or behind what is transferred.
    by_cases hp : p ≤ o
    · rw [if_pos hp, List.getElem?_map]
      by_cases hk : o - p < f.transferred n p
      · rw [if_pos (by omega), List.getElem?_range hk, Option.map_some, Option.getD_some]
      · rw [if_neg (by omega), List.getElem?_eq_none (by simpa using hk), Option.map_none,
          Option.getD_none]
    · rw [if_neg (by omega), if_neg hp, Option.getD_none]
  · rw [if_neg ho, if_neg ho, Option.map_none]

end OpenFile

end Nachos.FileSys
