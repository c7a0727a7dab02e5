import Nachos.FileSys.Create

namespace Nachos.FileSys

open Base Lib

/-!
# FileSys — `Remove` undoes `Create`

Between a `Create` and the `Remove` of the same name, the contents of the file may be read and
written in any way. `Remove` works from the header that it reads from the disk, so it gives back
what `Create` has taken because nothing in between can have changed that header:

* `Wrote.trans` — any number of writes to a file change its data sectors only;
* `Created.removed` — the sectors of the file are those that were taken, so the old map and the old
  entries are restored;
* `remove_undoes_create` — both together, from any reachable state.
-/

/-- A call that reads or writes the contents of a file. -/
inductive FileAccess where
  | readAt (numBytes position : Int) (junk : ℕ → Buffer)
  | writeAt (src : Buffer) (numBytes position : Int) (junk : ℕ → Buffer)

namespace FileAccess

/-- The number of bytes is an `int`. -/
def IsInt : FileAccess → Prop
  | .readAt numBytes _ _ => numBytes ≤ maxInt
  | .writeAt _ numBytes _ _ => numBytes ≤ maxInt

end FileAccess

namespace FileSystem

/-- `ReadAt` through the object that `Open` returns, if it is not `NULL`. It leaves everything as it
is, if no runtime check fails. -/
def openReadAt (s : FileSystem) (name : Buffer) (numBytes position : Int) (junk : ℕ → Buffer) :
    Option FileSystem :=
  (s.openFile name junk).bind fun file =>
    match file with
    | none => some s
    | some f => (f.readAt s.disk numBytes position).map fun _ => s

/-- One read or write of the file with the given name. -/
def access (s : FileSystem) (name : Buffer) : FileAccess → Option FileSystem
  | .readAt numBytes position junk => s.openReadAt name numBytes position junk
  | .writeAt src numBytes position junk => s.openWriteAt name src numBytes position junk

/-- Reads and writes of the file one after the other; `none` if a runtime check fails. -/
def accesses (s : FileSystem) (name : Buffer) : List FileAccess → Option FileSystem
  | [] => some s
  | a :: rest => (s.access name a).bind fun s' => s'.accesses name rest

end FileSystem

/-! ### Any number of writes -/

section Writes

variable {d d' d'' : Disk} {i : ℕ} {e : DirectoryEntry}

theorem Wrote.refl (h : (directoryOn d).Holds i e) : Wrote d d i e := ⟨h, fun _ _ => rfl⟩

/-- A second write changes sectors of the same file: its header is where it was. -/
theorem Wrote.trans (hd : DiskInv d) (h : Wrote d d' i e) (h' : Wrote d' d'' i e) :
    Wrote d d'' i e := by
  refine ⟨h.holds, fun s hs => ?_⟩
  have hs' : s ∉ (header d' e.sector.toNat).sectors := by
    rw [h.header_file hd h.holds]
    exact hs
  rw [h'.other s hs', h.other s hs]

end Writes

namespace FileSystem

variable {s s' : FileSystem} {name : Buffer} {i : ℕ} {e : DirectoryEntry}

/-- `Open` finds the entry with the name. -/
theorem Inv.openFile_holds (h : s.Inv) (he : (directoryOn s.disk).Holds i e)
    (hname : nameOf e.nameBuffer = nameOf name) (junk : ℕ → Buffer) :
    s.openFile name junk = some (some ⟨header s.disk e.sector.toNat, 0⟩) := by
  rcases h.openFile_cases name junk with ⟨hmiss, -⟩ | ⟨j, e', he', hname', hopen⟩
  · exact absurd hname (hmiss i e he)
  · have hji : j = i := h.disk.distinct j i e' e he' he (hname'.trans hname.symm)
    subst hji
    rw [hopen, he'.unique he]

/-- **Step.** A read or write changes data sectors of the file only. -/
theorem Inv.access_wrote (h : s.Inv) (he : (directoryOn s.disk).Holds i e)
    (hname : nameOf e.nameBuffer = nameOf name) {a : FileAccess} (ha : a.IsInt)
    (hs : s.access name a = some s') :
    Wrote s.disk s'.disk i e ∧ s' = { s with disk := s'.disk } := by
  cases a with
  | readAt numBytes position junk =>
    rw [access, openReadAt, h.openFile_holds he hname, Option.bind_some] at hs
    obtain ⟨r, -, rfl⟩ := Option.map_eq_some_iff.mp hs
    exact ⟨.refl he, rfl⟩
  | writeAt src numBytes position junk =>
    rw [access, openWriteAt, h.openFile_holds he hname, Option.bind_some] at hs
    obtain ⟨⟨k, d'⟩, hwrite, rfl⟩ := Option.map_eq_some_iff.mp hs
    have hwf : (header s.disk e.sector.toNat).WellFormed := h.disk.opens_wf ⟨i, e, he, rfl, rfl⟩
    refine ⟨⟨he, fun x hx => ?_⟩, rfl⟩
    exact OpenFile.writeAt_kept (f := ⟨header s.disk e.sector.toNat, 0⟩) hwf.covers ha hwrite hx

/-- **Run.** So do any number of them. -/
theorem Inv.accesses_wrote (h : s.Inv) (he : (directoryOn s.disk).Holds i e)
    (hname : nameOf e.nameBuffer = nameOf name) {as : List FileAccess} (has : ∀ a ∈ as, a.IsInt)
    (hs : s.accesses name as = some s') :
    Wrote s.disk s'.disk i e ∧ s' = { s with disk := s'.disk } := by
  induction as generalizing s with
  | nil =>
    cases hs
    exact ⟨.refl he, rfl⟩
  | cons a rest ih =>
    rw [accesses] at hs
    obtain ⟨s₁, hfirst, hrest⟩ := Option.bind_eq_some_iff.mp hs
    obtain ⟨hw, hs₁⟩ := h.access_wrote he hname (has a List.mem_cons_self) hfirst
    have hinv : s₁.Inv := by
      rw [hs₁]
      exact h.wrote hw
    have he₁ : (directoryOn s₁.disk).Holds i e := by
      rw [hw.directoryOn_eq h.disk]
      exact he
    obtain ⟨hw', hs'⟩ := ih hinv he₁ (fun b hb => has b (List.mem_cons_of_mem a hb)) hrest
    refine ⟨hw.trans h.disk hw', ?_⟩
    rw [hs', hs₁]

end FileSystem

/-! ### There and back -/

/-- Disk `d'` has the stored free map, the entries in use and the files of disk `d`. -/
structure Restored (d d' : Disk) : Prop where
  freeMap_eq : freeMapOn d' = freeMapOn d
  holds_iff : ∀ j e, (directoryOn d').Holds j e ↔ (directoryOn d).Holds j e
  file_eq : ∀ j e, (directoryOn d).Holds j e → ∀ s ∈ sectorsOf d (.file j), d' s = d s

section Undo

variable {d d₁ d₂ d₃ : Disk} {name : Buffer} {n i sec : ℕ} {e : DirectoryEntry} {hdr : FileHeader}

/-- The header of the new file is still what `Create` has written, so the sectors that `Remove`
gives back are those that were taken. -/
theorem Created.sectorsOf_wrote (h : DiskInv d) (hc : Created d d₁ name n i e sec hdr)
    (hw : Wrote d₁ d₂ i (e.assign name sec)) :
    sectorsOf d₂ (.file i) = sec :: hdr.sectors := by
  have h₁ := hc.inv h
  have hsec : (e.assign name sec).sector = (sec : Int) := rfl
  have hholds : (directoryOn d₂).Holds i (e.assign name sec) := by
    rw [hw.directoryOn_eq h₁]
    exact hw.holds
  have hheader := hw.header_file h₁ hw.holds
  rw [sectorsOf_file hholds, hheader, hsec, Int.toNat_natCast, hc.header_eq]

/-- **Create, write, remove.** -/
theorem Created.removed (h : DiskInv d) (hc : Created d d₁ name n i e sec hdr)
    (hw : Wrote d₁ d₂ i (e.assign name sec)) (hr : Removed d₂ d₃ i (e.assign name sec)) :
    Restored d d₃ := by
  have h₁ := hc.inv h
  have h₂ := hw.inv h₁
  constructor
  · apply Bitmap.eq_of_marked_eq (by decide)
    have hdisjoint : Disjoint (freeMapOn d).marked (sec :: hdr.sectors).toFinset :=
      Finset.disjoint_right.mpr fun s hs => hc.fresh s (List.mem_toFinset.mp hs)
    calc (freeMapOn d₃).marked
        = (freeMapOn d₂).marked \ (sec :: hdr.sectors).toFinset := by
          rw [hr.marked_eq, hc.sectorsOf_wrote h hw]
      _ = ((freeMapOn d).marked ∪ (sec :: hdr.sectors).toFinset) \
            (sec :: hdr.sectors).toFinset := by
          rw [hw.freeMapOn_eq h₁, hc.marked_eq]
      _ = (freeMapOn d).marked := Finset.union_sdiff_cancel_right hdisjoint
  · intro j e'
    rw [hr.holds_iff, hw.directoryOn_eq h₁, hc.holds_iff]
    constructor
    · rintro ⟨hne, ⟨hji, -⟩ | hold⟩
      · exact absurd hji hne
      · exact hold
    · intro hold
      refine ⟨?_, .inr hold⟩
      rintro rfl
      exact hc.not_holds e' hold
  · intro j e' hold s hs
    have hne : j ≠ i := by
      rintro rfl
      exact hc.not_holds e' hold
    have hold₁ : (directoryOn d₁).Holds j e' := hc.holds_iff.mpr (.inr hold)
    have hold₂ : (directoryOn d₂).Holds j e' := by
      rw [hw.directoryOn_eq h₁]
      exact hold₁
    have hs₁ : s ∈ sectorsOf d₁ (.file j) := by
      rw [sectorsOf_file hold₁, h.header_file hc.keeps hold, ← sectorsOf_file hold]
      exact hs
    have hs₂ : s ∈ sectorsOf d₂ (.file j) := by
      rw [sectorsOf_file hold₂, hw.header_file h₁ hold₁, ← sectorsOf_file hold₁]
      exact hs₁
    calc d₃ s = d₂ s := h₂.file_kept hr.keeps hold₂ hs₂
      _ = d₁ s := hw.kept h₁ (file_mem_owners.mpr ⟨e', hold₁⟩) (by simpa using hne) hs₁
      _ = d s := h.file_kept hc.keeps hold hs

end Undo

/-- **`Remove` undoes `Create`.** From every reachable state, for every name and size that fits a
header: if `Create` succeeds, then after any reads and writes of the file `Remove` of the name
succeeds; the stored free map and the entries in use are what they were before the `Create`, and
so are the header and the data of every other file. -/
theorem remove_undoes_create (s : FileSystem) (h : callSystem.Reachable s) (name : Buffer)
    (initialSize : Int) (h0 : 0 ≤ initialSize) (hmax : initialSize ≤ maxFileSize)
    (junk junk' : ℕ → Buffer) (s₁ : FileSystem)
    (hcreate : s.create name initialSize junk = some (true, s₁)) (as : List FileAccess)
    (has : ∀ a ∈ as, a.IsInt) (s₂ : FileSystem) (haccess : s₁.accesses name as = some s₂) :
    ∃ s₃, s₂.remove name junk' = some (true, s₃) ∧ Restored s.disk s₃.disk := by
  have hinv := call_inv h
  obtain ⟨n, rfl⟩ := Int.eq_ofNat_of_zero_le h0
  obtain ⟨d₁, i, e, sec, hdr, rfl, hc⟩ := hinv.created hcreate
  -- The new entry is the one that the accesses and `Remove` find.
  have hinv₁ := hinv.of_keeps hc.keeps (hc.inv hinv.disk)
  have hnew : (directoryOn d₁).Holds i (e.assign name sec) := hc.holds_iff.mpr (.inl ⟨rfl, rfl⟩)
  have hname := DirectoryEntry.nameOf_assign e name sec
  obtain ⟨hw, hs₂⟩ := hinv₁.accesses_wrote hnew hname has haccess
  have hinv₂ : s₂.Inv := by
    rw [hs₂]
    exact hinv₁.wrote hw
  have hnew₂ : (directoryOn s₂.disk).Holds i (e.assign name sec) := by
    rw [hw.directoryOn_eq hinv₁.disk]
    exact hnew
  rcases hinv₂.remove_cases name junk' with ⟨hmiss, -⟩ | ⟨d₃, j, e', hname', hremove, hr⟩
  · exact absurd hname (hmiss i _ hnew₂)
  have hji : j = i := hinv₂.disk.distinct j i e' _ hr.holds hnew₂ (hname'.trans hname.symm)
  subst hji
  rw [hr.holds.unique hnew₂] at hr
  exact ⟨_, hremove, hc.removed hinv.disk hw hr⟩

/-- The disk of zeros is formatted, the file `a` of 200 bytes is created, all its bytes are written,
and it is removed. -/
theorem remove_undoes_create_written :
    ∃ s s₁ s₂ s₃, callSystem.Reachable s ∧
      s.create (fun k => [97].getD k 0) 200 (fun _ _ => 0) = some (true, s₁) ∧
      s₁.accesses (fun k => [97].getD k 0) [.writeAt (fun _ => 1) 200 0 fun _ _ => 0] = some s₂ ∧
      s₂.remove (fun k => [97].getD k 0) (fun _ _ => 0) = some (true, s₃) ∧
      Restored s.disk s₃.disk := by
  obtain ⟨s, d₁, i, e, sec, hdr, hformat, hinv, hcreate, hc⟩ :=
    FileSystem.exists_created (fun k => [97].getD k 0) (n := 200) (by decide)
  have hs : callSystem.Reachable s := .init ⟨_, _, hformat⟩
  have hinv₁ := hinv.of_keeps hc.keeps (hc.inv hinv.disk)
  have hnew := hc.holds_iff.mpr (.inl ⟨rfl, rfl⟩)
  have hopen := hinv₁.openFile_holds hnew (DirectoryEntry.nameOf_assign ..) fun _ _ => 0
  have hsec : (e.assign (fun k => [97].getD k 0) sec).sector = (sec : Int) := rfl
  rw [hsec, Int.toNat_natCast, hc.header_eq] at hopen
  obtain ⟨d₂, hwrite, -⟩ :=
    OpenFile.writeAt_all (f := ⟨hdr, 0⟩) hc.hdr_wf d₁ (fun _ => 0) fun _ => 1
  have haccess : (⟨d₁, s.freeMapFile, s.directoryFile⟩ : FileSystem).accesses
      (fun k => [97].getD k 0) [.writeAt (fun _ => 1) 200 0 fun _ _ => 0]
      = some ⟨d₂, s.freeMapFile, s.directoryFile⟩ := by
    rw [hc.hdr_length, Nat.cast_ofNat] at hwrite
    rw [FileSystem.accesses, FileSystem.access, FileSystem.openWriteAt, hopen, Option.bind_some]
    simp only [hwrite]
    rfl
  obtain ⟨s₃, hremove, hrestored⟩ := remove_undoes_create s hs _ 200 (by decide) (by decide) _
    (fun _ _ => 0) _ hcreate _ (by simp [FileAccess.IsInt, maxInt]) _ haccess
  exact ⟨s, _, _, s₃, hs, hcreate, haccess, hremove, hrestored⟩

end Nachos.FileSys
