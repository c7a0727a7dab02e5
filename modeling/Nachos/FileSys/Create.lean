import Nachos.FileSys.Accounting
import Nachos.FileSys.Contents
import Nachos.FileSys.Requests

namespace Nachos.FileSys

open Base Lib

/-!
# FileSys — what `Create` promises

`Create` takes a sector for the header, an entry of the directory and sectors for the data, and it
writes nothing to the disk before it has all of them.

* `callSystem` — every call that changes the disk: `Create` of any size, `Remove`, mounting again,
  and `WriteAt` with any `int` arguments to a file that has been opened;
* `create_all_or_nothing` — for a size that fits a header, `Create` succeeds exactly if there is
  `Room`, and otherwise it changes nothing;
* `create_promise_iff` — what `Create` says is there, `Open` finds, unless the file is too large for
  its header: nothing compares the size with `MaxFileSize`.
-/

/-! ### Runs with writes -/

/-- The calls that change the disk. -/
inductive FsCall where
  | create (name : Buffer) (initialSize : Int) (junk : ℕ → Buffer)
  | remove (name : Buffer) (junk : ℕ → Buffer)
  | remount
  /-- `Open` and `WriteAt`; `Write` is a `WriteAt` at the current position. -/
  | writeAt (name : Buffer) (src : Buffer) (numBytes position : Int) (junk : ℕ → Buffer)

namespace FileSystem

/-- `WriteAt` through the object that `Open` returns, if it is not `NULL`. -/
def openWriteAt (s : FileSystem) (name src : Buffer) (numBytes position : Int) (junk : ℕ → Buffer) :
    Option FileSystem :=
  (s.openFile name junk).bind fun file =>
    match file with
    | none => some s
    | some f => (f.writeAt s.disk (junk 6) src numBytes position).map fun r =>
        { s with disk := r.2 }

/-- A call ends with the next state, or a runtime check fails. -/
def ended : Option FileSystem → Outcome FileSystem
  | none => .fault
  | some s => .next s

/-- One call. Sizes are not negative, and numbers of bytes are `int`s. -/
def call (s : FileSystem) : FsCall → Outcome FileSystem
  | .create name initialSize junk =>
    if 0 ≤ initialSize then ended ((s.create name initialSize junk).map Prod.snd) else .disabled
  | .remove name junk => ended ((s.remove name junk).map Prod.snd)
  | .remount => ended (mount s.disk)
  | .writeAt name src numBytes position junk =>
    if numBytes ≤ maxInt then ended (s.openWriteAt name src numBytes position junk) else .disabled

variable {s s' : FileSystem}

theorem ended_eq_next {o : Option FileSystem} : ended o = .next s ↔ o = some s := by
  cases o <;> simp [ended]

/-- `Create` of any size, when it returns. -/
theorem Inv.create_next (h : s.Inv) {name : Buffer} {n : ℕ} {junk : ℕ → Buffer} {ok : Bool}
    (hs : s.create name n junk = some (ok, s')) : s'.Inv := by
  rcases h.create_cases name n junk with ⟨-, hfail⟩ | ⟨d', i, e, sec, hdr, hcreate, hc⟩ |
    ⟨-, -, hnone⟩
  · cases hs.symm.trans hfail
    exact h
  · cases hs.symm.trans hcreate
    exact h.of_keeps hc.keeps (hc.inv h.disk)
  · cases hs.symm.trans hnone

theorem Inv.remove_next (h : s.Inv) {name : Buffer} {junk : ℕ → Buffer} {ok : Bool}
    (hs : s.remove name junk = some (ok, s')) : s'.Inv := by
  rcases h.remove_cases name junk with ⟨-, hfail⟩ | ⟨d', i, e, -, hremove, hr⟩
  · rw [hs] at hfail
    cases hfail
    exact h
  · rw [hs] at hremove
    cases hremove
    exact h.of_keeps hr.keeps (hr.inv h.disk)

/-- A write changes data sectors of a file of the directory. -/
theorem Inv.writeAt_next (h : s.Inv) {name src : Buffer} {n p : Int} {junk : ℕ → Buffer}
    (hn : n ≤ maxInt) (hs : s.openWriteAt name src n p junk = some s') : s'.Inv := by
  unfold openWriteAt at hs
  rcases h.openFile_cases name junk with ⟨-, hnull⟩ | ⟨i, e, he, -, hopen⟩
  · rw [hnull] at hs
    cases hs
    exact h
  · rw [hopen, Option.bind_some] at hs
    obtain ⟨⟨k, d'⟩, hwrite, rfl⟩ := Option.map_eq_some_iff.mp hs
    have hwf : (header s.disk e.sector.toNat).WellFormed := h.disk.opens_wf ⟨i, e, he, rfl, rfl⟩
    exact h.wrote ⟨he, fun x hx => OpenFile.writeAt_kept (f := ⟨header s.disk e.sector.toNat, 0⟩)
      hwf.covers hn hwrite hx⟩

/-- **Step.** A call that returns leaves a consistent disk. -/
theorem Inv.call (h : s.Inv) {a : FsCall} (hs : s.call a = .next s') : s'.Inv := by
  cases a with
  | create name initialSize junk =>
    obtain ⟨hsize, hs⟩ := Outcome.guard_eq_next.mp hs
    obtain ⟨⟨ok, s''⟩, hcreate, rfl⟩ := Option.map_eq_some_iff.mp (ended_eq_next.mp hs)
    obtain ⟨n, rfl⟩ := Int.eq_ofNat_of_zero_le hsize
    exact h.create_next hcreate
  | remove name junk =>
    obtain ⟨⟨ok, s''⟩, hremove, rfl⟩ := Option.map_eq_some_iff.mp (ended_eq_next.mp hs)
    exact h.remove_next hremove
  | remount =>
    obtain ⟨s'', hmount, hinv⟩ := h.mount_eq
    have hs' : mount s.disk = some s' := ended_eq_next.mp hs
    rw [hmount] at hs'
    cases hs'
    exact hinv
  | writeAt name src numBytes position junk =>
    obtain ⟨hn, hs⟩ := Outcome.guard_eq_next.mp hs
    exact h.writeAt_next hn (ended_eq_next.mp hs)

end FileSystem

/-- The file system, from the moment a disk with any contents has been formatted. -/
def callSystem : LTS FileSystem FsCall where
  init := fun s => ∃ d junk, FileSystem.format d junk = some s
  next := FileSystem.call

/-- **Run.** The disk is consistent in every reachable state. -/
theorem call_inv {s : FileSystem} (h : callSystem.Reachable s) : s.Inv := by
  apply h.invariant
  · rintro s ⟨d, junk, hformat⟩
    exact FileSystem.inv_of_format hformat
  · exact fun s a s' hi hs => hi.call hs

/-! ### All or nothing -/

/-- A file that has been created had room. -/
theorem Created.room {d d' : Disk} {name : Buffer} {n i sec : ℕ} {e : DirectoryEntry}
    {hdr : FileHeader} (hc : Created d d' name n i e sec hdr) : Room d name n := by
  have hdisjoint : Disjoint (freeMapOn d).marked (sec :: hdr.sectors).toFinset :=
    Finset.disjoint_right.mpr fun s hs => hc.fresh s (List.mem_toFinset.mp hs)
  -- The sectors that were taken are clear in the old map.
  have hcard := (freeMapOn d).numClear_add_card
  have hcard' := (freeMapOn d').numClear_add_card
  rw [hc.marked_eq, Finset.card_union_of_disjoint hdisjoint, List.toFinset_card_of_nodup hc.nodup,
    List.length_cons, FileHeader.length_sectors, FileHeader.blocks, hc.hdr_length] at hcard'
  exact ⟨hc.missing, ⟨i, e, hc.entry, hc.unused⟩, by omega⟩

/-- **`Create` is all or nothing.** In every state of every run and for every name and size that
fits a header, `Create` returns, with success exactly if no entry in use has the name, an entry is
free, and there are clear sectors for the header and the data; if it fails, nothing has changed.
`Remove` of a name that no entry has fails and changes nothing. -/
theorem create_all_or_nothing (s : FileSystem) (h : callSystem.Reachable s) (name : Buffer)
    (junk : ℕ → Buffer) :
    (∀ initialSize : Int, 0 ≤ initialSize → initialSize ≤ maxFileSize →
      ∃ ok s', s.create name initialSize junk = some (ok, s') ∧
        (ok = true ↔ Room s.disk name initialSize.toNat) ∧ (ok = false → s' = s)) ∧
    ((∀ i e, (directoryOn s.disk).Holds i e → nameOf e.nameBuffer ≠ nameOf name) →
      s.remove name junk = some (false, s)) := by
  have hinv := call_inv h
  constructor
  · intro initialSize h0 hmax
    obtain ⟨n, rfl⟩ := Int.eq_ofNat_of_zero_le h0
    rw [Int.toNat_natCast]
    rcases hinv.create_cases name n junk with ⟨hroom, hfail⟩ |
      ⟨d', i, e, sec, hdr, hcreate, hc⟩ | hlarge
    · exact ⟨false, s, hfail, by simp [hroom], fun _ => rfl⟩
    · exact ⟨true, _, hcreate, by simp [hc.room], by simp⟩
    · omega
  · intro hmiss
    rcases hinv.remove_cases name junk with ⟨-, hfail⟩ | ⟨d', i, e, hname, -, hr⟩
    · exact hfail
    · exact absurd hname (hmiss i e hr.holds)

/-- The disk of zeros is formatted, and the file `a` of 200 bytes is created. -/
theorem create_all_or_nothing_empty :
    ∃ s s', callSystem.Reachable s ∧
      s.create (fun k => [97].getD k 0) 200 (fun _ _ => 0) = some (true, s') ∧
      s.remove (fun k => [97].getD k 0) (fun _ _ => 0) = some (false, s) := by
  obtain ⟨s, hformat, -, hempty, hclear⟩ := FileSystem.format_eq (fun _ _ => 0) fun _ _ => 0
  have hs : callSystem.Reachable s := .init ⟨_, _, hformat⟩
  obtain ⟨hcreate, hremove⟩ := create_all_or_nothing s hs (fun k => [97].getD k 0) fun _ _ => 0
  obtain ⟨ok, s', hok, hroom, -⟩ := hcreate 200 (by decide) (by decide)
  rw [hroom.mpr (FileSystem.room_of_format hempty hclear _ (by decide))] at hok
  exact ⟨s, s', hs, hok, hremove fun i e he => absurd he (hempty i e)⟩

/-! ### What a header can hold -/

/-- The byte of the new file at offset `o` is in a sector of the file: it was free, it is marked,
and it belongs to the entry with the name and to nobody else. -/
structure OwnSector (d d' : Disk) (name : Buffer) (hdr : FileHeader) (o sec : ℕ) : Prop where
  byteToSector_eq : hdr.byteToSector o = some (sec : Int)
  free_before : sec ∉ (freeMapOn d).marked
  marked : sec ∈ (freeMapOn d').marked
  owner : ∃ i e, (directoryOn d').Holds i e ∧ nameOf e.nameBuffer = nameOf name ∧
    ∀ k ∈ owners d', sec ∈ sectorsOf d' k ↔ k = .file i

/-- **What `Create` promises:** it does not write past the end of the header, and if it says that
there is a file, `Open` finds one with that length, in which every offset has its sector, and
offsets of different blocks have different ones. -/
def CreatePromise (s : FileSystem) (name : Buffer) (n : ℕ) (junk junk' : ℕ → Buffer) : Prop :=
  ∃ ok s', s.create name n junk = some (ok, s') ∧
    (ok = true → ∃ f, s'.openFile name junk' = some (some f) ∧ f.fileLength = n ∧
      (∀ o < n, ∃ sec, OwnSector s.disk s'.disk name f.hdr o sec) ∧
      ∀ o < n, ∀ o' < n, f.hdr.byteToSector o = f.hdr.byteToSector o' →
        o / sectorSize = o' / sectorSize)

/-- The sectors of a file that has been created. -/
theorem Created.ownSector {d d' : Disk} {name : Buffer} {n i sec : ℕ} {e : DirectoryEntry}
    {hdr : FileHeader} (h : DiskInv d) (hc : Created d d' name n i e sec hdr) {o : ℕ}
    (ho : o < n) : OwnSector d d' name hdr o (hdr.sector (o / sectorSize)) := by
  have hlt : o / sectorSize < hdr.blocks :=
    FileHeader.div_lt_blocks (by rw [hc.hdr_length]; exact ho)
  have hmem : hdr.sector (o / sectorSize) ∈ sec :: hdr.sectors :=
    List.mem_cons_of_mem _ (FileHeader.mem_sectors.mpr ⟨_, hlt, rfl⟩)
  have hholds : (directoryOn d').Holds i (e.assign name sec) := hc.holds_iff.mpr (.inl ⟨rfl, rfl⟩)
  have hown : hdr.sector (o / sectorSize) ∈ sectorsOf d' (.file i) := by
    rw [sectorsOf_file hholds]
    have hsec : (e.assign name sec).sector.toNat = sec := rfl
    rw [hsec, hc.header_eq]
    exact hmem
  have hinv := hc.inv h
  refine ⟨hc.hdr_wf.covers.byteToSector_natCast hlt, hc.fresh _ hmem, ?_, i, _, hholds,
    DirectoryEntry.nameOf_assign .., fun k hk => ⟨fun hs => ?_, fun hk => hk ▸ hown⟩⟩
  · exact hinv.mem_marked (file_mem_owners.mpr ⟨_, hholds⟩) hown
  · by_contra hne
    exact hinv.owned.disjoint k hk _ (file_mem_owners.mpr ⟨_, hholds⟩) hne hs hown

/-- **`Create` keeps its promise unless the file is too large for a header.** The only check of the
size is against the number of clear sectors, so it is broken exactly for a size above
`MaxFileSize` for which there is room on the disk and in the directory. -/
theorem create_promise_iff (s : FileSystem) (h : callSystem.Reachable s) (name : Buffer) (n : ℕ)
    (junk junk' : ℕ → Buffer) :
    CreatePromise s name n junk junk' ↔ ¬ (maxFileSize < n ∧ Room s.disk name n) := by
  have hinv := call_inv h
  rcases hinv.create_cases name n junk with ⟨hroom, hfail⟩ | ⟨d', i, e, sec, hdr, hcreate, hc⟩ |
    ⟨hlarge, hroom, hnone⟩
  · exact iff_of_true ⟨false, s, hfail, by simp⟩ fun hlarge => hroom hlarge.2
  · have hn : n ≤ maxFileSize := hc.hdr_length ▸ hc.hdr_wf.covers.length_le
    refine iff_of_true ⟨true, _, hcreate, fun _ => ⟨⟨hdr, 0⟩, ?_, ?_, ?_, ?_⟩⟩ (by omega)
    · exact (hinv.create_next hcreate).openFile_eq
        ((hc.opens_iff hinv.disk).mpr (.inl ⟨rfl, rfl⟩)) junk'
    · rw [OpenFile.fileLength, FileHeader.fileLength, hc.hdr_wf.numBytes_eq, hc.hdr_length]
    · exact fun o ho => ⟨_, hc.ownSector hinv.disk ho⟩
    · intro o ho o' ho' heq
      rw [← hc.hdr_length] at ho ho'
      have hlt := FileHeader.div_lt_blocks ho
      have hlt' := FileHeader.div_lt_blocks ho'
      have hcov := hc.hdr_wf.covers
      rw [hcov.byteToSector_natCast hlt, hcov.byteToSector_natCast hlt'] at heq
      exact hcov.sector_inj hlt hlt' (by simpa using heq)
  · refine iff_of_false ?_ (not_not_intro ⟨hlarge, hroom⟩)
    rintro ⟨ok, s', hcreate, -⟩
    cases hcreate.symm.trans hnone

/-- On a disk that has just been formatted, a file of 3841 bytes needs 31 sectors, and `Allocate`
writes the last of them behind the 30 that the header has. -/
theorem create_promise_broken :
    ∃ s, callSystem.Reachable s ∧
      s.create (fun k => [97].getD k 0) 3841 (fun _ _ => 0) = none ∧
      ¬ CreatePromise s (fun k => [97].getD k 0) 3841 (fun _ _ => 0) (fun _ _ => 0) := by
  obtain ⟨s, hformat, hinv, hempty, hclear⟩ := FileSystem.format_eq (fun _ _ => 0) fun _ _ => 0
  have hroom : Room s.disk (fun k => [97].getD k 0) 3841 :=
    FileSystem.room_of_format hempty hclear _ (by decide)
  rcases hinv.create_cases (fun k => [97].getD k 0) 3841 fun _ _ => 0 with
    ⟨hfull, -⟩ | ⟨d', i, e, sec, hdr, -, hc⟩ | ⟨-, -, hnone⟩
  · exact absurd hroom hfull
  · exact absurd (hc.hdr_length ▸ hc.hdr_wf.covers.length_le) (show ¬ 3841 ≤ maxFileSize by decide)
  · refine ⟨s, .init ⟨_, _, hformat⟩, hnone, ?_⟩
    rintro ⟨ok, s', hcreate, -⟩
    rw [hnone] at hcreate
    cases hcreate

/-- A file of the largest size that a header can hold. -/
theorem create_promise_iff_largest :
    ∃ s, callSystem.Reachable s ∧
      CreatePromise s (fun k => [97].getD k 0) 3840 (fun _ _ => 0) (fun _ _ => 0) := by
  obtain ⟨s, hformat, -⟩ := FileSystem.format_eq (fun _ _ => 0) fun _ _ => 0
  have hs : callSystem.Reachable s := .init ⟨_, _, hformat⟩
  refine ⟨s, hs, (create_promise_iff s hs _ 3840 _ _).mpr fun hlarge => ?_⟩
  exact absurd hlarge.1 (by decide)

end Nachos.FileSys
