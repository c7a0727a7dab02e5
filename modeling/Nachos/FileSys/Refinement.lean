import Nachos.FileSys.Accounting
import Nachos.FileSys.Contents

namespace Nachos.FileSys

open Base Function

/-!
# FileSys — the file system as a store of byte arrays

The file system together with the `OpenFile` objects that its users hold. The history lists what
was done and what the callers got for it, as events of a store whose names are the file names up
to the first NUL and at most `FileNameMaxLen` long.

* `Session.next` — one call; a handle can be used until its file is removed;
* `Session.Inv` — the history is a trace of the store that the disk stands for;
* `Session.noOverflow` — the requests whose end is an `int`;
* `file_store_refinement` — in every run of such requests no call faults, a read returns what was
  last written, and a call changes no other file;
* `file_store_read_faults` — a request that overflows is not clipped to the file and faults.
-/

/-! ### Calls -/

/-- An `OpenFile` that somebody holds, and the name it was opened under. -/
structure Handle where
  file : OpenFile
  name : List UInt8

/-- The file system, the open files, and the events so far, latest first. -/
structure Session (H : Type*) where
  fs : FileSystem
  handle : H → Option Handle
  history : List (StoreEvent (List UInt8) UInt8)

/-- The calls. `junk` is memory that is allocated and not initialised. -/
inductive SessionAction (H : Type*) where
  | create (name : Buffer) (initialSize : Int) (junk : ℕ → Buffer)
  | remove (name : Buffer) (junk : ℕ → Buffer)
  | openFile (h : H) (name : Buffer) (junk : ℕ → Buffer)
  | readAt (h : H) (numBytes position : Int)
  | writeAt (h : H) (src : Buffer) (numBytes position : Int) (junk : Buffer)
  | read (h : H) (numBytes : Int)
  | write (h : H) (src : Buffer) (numBytes : Int) (junk : Buffer)
  | seek (h : H) (position : Int)

namespace Session

variable {H : Type*}

/-- The session after a call, with the event of the call. -/
def after (s : Session H) (fs : FileSystem) (handle : H → Option Handle)
    (ev : StoreEvent (List UInt8) UInt8) : Session H :=
  ⟨fs, handle, ev :: s.history⟩

/-- A call on an open file. -/
def call (s : Session H) (h : H) (k : Handle → Outcome (Session H)) : Outcome (Session H) :=
  match s.handle h with
  | none => .disabled
  | some f => k f

theorem call_eq {s : Session H} {h : H} {f : Handle} (hf : s.handle h = some f)
    (k : Handle → Outcome (Session H)) : s.call h k = k f := by
  rw [call, hf]

/-- `FileSystem::Create`, for a size that fits a header. -/
def create (s : Session H) (name : Buffer) (initialSize : Int) (junk : ℕ → Buffer) :
    Outcome (Session H) :=
  if 0 ≤ initialSize ∧ initialSize ≤ maxFileSize then
    match s.fs.create name initialSize junk with
    | none => .fault
    | some (ok, fs) => .next (s.after fs s.handle (.create (nameOf name) initialSize.toNat ok))
  else .disabled

/-- `FileSystem::Remove`. The handles of a file that is gone are not used any more. -/
def remove (s : Session H) (name : Buffer) (junk : ℕ → Buffer) : Outcome (Session H) :=
  match s.fs.remove name junk with
  | none => .fault
  | some (ok, fs) => .next (s.after fs
      (fun h => if ok then (s.handle h).filter (·.name ≠ nameOf name) else s.handle h)
      (.remove (nameOf name) ok))

variable [DecidableEq H]

/-- `FileSystem::Open`. -/
def openFile (s : Session H) (h : H) (name : Buffer) (junk : ℕ → Buffer) : Outcome (Session H) :=
  match s.fs.openFile name junk with
  | none => .fault
  | some file => .next (s.after s.fs
      (update s.handle h (file.map fun f => ⟨f, nameOf name⟩))
      (.lookup (nameOf name) file.isSome))

/-- `OpenFile::ReadAt`, for a position that is not negative. -/
def readAt (s : Session H) (f : Handle) (numBytes position : Int) : Outcome (Session H) :=
  if 0 ≤ position then
    match f.file.readAt s.fs.disk numBytes position with
    | none => .fault
    | some (count, bytes) => .next (s.after s.fs s.handle
        (.read f.name numBytes.toNat position.toNat ((List.range count).map bytes)))
  else .disabled

/-- `OpenFile::WriteAt`, for a position that is not negative. -/
def writeAt (s : Session H) (f : Handle) (src : Buffer) (numBytes position : Int) (junk : Buffer) :
    Outcome (Session H) :=
  if 0 ≤ position then
    match f.file.writeAt s.fs.disk junk src numBytes position with
    | none => .fault
    | some (count, d) => .next (s.after { s.fs with disk := d } s.handle
        (.write f.name numBytes.toNat position.toNat ((List.range count).map src)))
  else .disabled

/-- `OpenFile::Read`, from a position that is not negative. -/
def read (s : Session H) (h : H) (f : Handle) (numBytes : Int) : Outcome (Session H) :=
  if 0 ≤ f.file.seekPosition then
    match f.file.read s.fs.disk numBytes with
    | none => .fault
    | some (count, bytes, file) => .next (s.after s.fs
        (update s.handle h (some { f with file := file }))
        (.read f.name numBytes.toNat f.file.seekPosition.toNat ((List.range count).map bytes)))
  else .disabled

/-- `OpenFile::Write`, to a position that is not negative. -/
def write (s : Session H) (h : H) (f : Handle) (src : Buffer) (numBytes : Int) (junk : Buffer) :
    Outcome (Session H) :=
  if 0 ≤ f.file.seekPosition then
    match f.file.write s.fs.disk junk src numBytes with
    | none => .fault
    | some (count, d, file) => .next (s.after { s.fs with disk := d }
        (update s.handle h (some { f with file := file }))
        (.write f.name numBytes.toNat f.file.seekPosition.toNat ((List.range count).map src)))
  else .disabled

/-- `OpenFile::Seek`. -/
def seek (s : Session H) (h : H) (f : Handle) (position : Int) : Outcome (Session H) :=
  .next (s.after s.fs
    (update s.handle h (some { f with file := f.file.seek position })) .skip)

/-- One call. -/
def next (s : Session H) : SessionAction H → Outcome (Session H)
  | .create name initialSize junk => s.create name initialSize junk
  | .remove name junk => s.remove name junk
  | .openFile h name junk => s.openFile h name junk
  | .readAt h numBytes position => s.call h fun f => s.readAt f numBytes position
  | .writeAt h src numBytes position junk =>
    s.call h fun f => s.writeAt f src numBytes position junk
  | .read h numBytes => s.call h fun f => s.read h f numBytes
  | .write h src numBytes junk => s.call h fun f => s.write h f src numBytes junk
  | .seek h position => s.call h fun f => s.seek h f position

/-- The end of the request is an `int`, if the request starts inside the file. -/
def noOverflow (s : Session H) : SessionAction H → Bool
  | .readAt h numBytes position => (s.handle h).all fun f => f.file.Fits numBytes position
  | .writeAt h _ numBytes position _ => (s.handle h).all fun f => f.file.Fits numBytes position
  | .read h numBytes => (s.handle h).all fun f => f.file.Fits numBytes f.file.seekPosition
  | .write h _ numBytes _ => (s.handle h).all fun f => f.file.Fits numBytes f.file.seekPosition
  | _ => true

end Session

/-- Sessions start on a disk that has just been formatted. -/
def sessions (H : Type*) [DecidableEq H] : LTS (Session H) (SessionAction H) where
  init := fun s => (∃ d junk, FileSystem.format d junk = some s.fs) ∧ (∀ h, s.handle h = none) ∧
    s.history = []
  next := Session.next

theorem sessions_next {H : Type*} [DecidableEq H] (s : Session H) (a : SessionAction H) :
    (sessions H).next s a = s.next a := rfl

/-! ### The invariant -/

namespace Session

variable {H : Type*} {s : Session H} {fs : FileSystem} {handle : H → Option Handle}
  {ev : StoreEvent (List UInt8) UInt8}

/-- The disk is consistent, the handles have the headers that are on the disk, and the events
lead to the store that the disk stands for. -/
structure Inv (s : Session H) : Prop where
  fs : s.fs.Inv
  opens : ∀ h f, s.handle h = some f → Opens s.fs.disk f.name f.file.hdr
  trace : ArrayStore.Trace s.history (contents s.fs.disk)

/-- What a call does: the event is a step of the store, and the handles stay good. -/
structure Does (s : Session H) (fs : FileSystem) (handle : H → Option Handle)
    (ev : StoreEvent (List UInt8) UInt8) : Prop where
  consistent : fs.Inv
  opens : ∀ h f, handle h = some f → Opens fs.disk f.name f.file.hdr
  step : (contents s.fs.disk).Step ev (contents fs.disk)

theorem Does.inv (h : s.Inv) (hd : Does s fs handle ev) : (s.after fs handle ev).Inv :=
  ⟨hd.consistent, hd.opens, h.trace.cons hd.step⟩

variable {x : H} {f : Handle} {n : Int} {p : ℕ}

theorem Inv.readAt_step (h : s.Inv) (hf : s.handle x = some f) (hfits : f.file.Fits n p) :
    ∃ bytes, f.file.readAt s.fs.disk n p = some (f.file.transferred n p, bytes) ∧
      (contents s.fs.disk).Step
        (.read f.name n.toNat p ((List.range (f.file.transferred n p)).map bytes))
        (contents s.fs.disk) := by
  have ho := h.opens x f hf
  obtain ⟨bytes, hread, hbytes⟩ :=
    OpenFile.readAt_bytes (h.fs.disk.opens_wf ho) s.fs.disk hfits
  refine ⟨bytes, hread, ?_⟩
  rw [hbytes]
  exact .read _ _ (h.fs.disk.contents_of_opens ho)

theorem Inv.writeAt_step (h : s.Inv) (hf : s.handle x = some f) (hfits : f.file.Fits n p)
    (junk src : Buffer) :
    ∃ d', f.file.writeAt s.fs.disk junk src n p = some (f.file.transferred n p, d') ∧
      ({ s.fs with disk := d' } : FileSystem).Inv ∧
      (∀ name hdr, Opens s.fs.disk name hdr → Opens d' name hdr) ∧
      (contents s.fs.disk).Step
        (.write f.name n.toNat p ((List.range (f.file.transferred n p)).map src))
        (contents d') := by
  have ho := h.opens x f hf
  obtain ⟨d', hwrite, hother, hbytes⟩ :=
    OpenFile.writeAt_bytes (h.fs.disk.opens_wf ho) s.fs.disk junk src hfits
  have hcontents := h.fs.disk.contents_of_opens ho
  -- What has changed is in the sectors that the header of the handle lists.
  obtain ⟨i, e, he, hname, hhdr⟩ := ho
  have hw : Wrote s.fs.disk d' i e := ⟨he, by rw [hhdr]; exact hother⟩
  refine ⟨d', hwrite, h.fs.wrote hw, fun _ _ => (hw.opens_iff h.fs.disk).mpr, ?_⟩
  rw [hw.contents_eq h.fs.disk, hname, hhdr, hbytes]
  refine .write hcontents ?_
  rw [List.length_map, List.length_range, length_fileBytes, OpenFile.transferred]

/-! ### Steps -/

variable [DecidableEq H]

/-- The handles stay good when one of them is replaced by a good one. -/
theorem Inv.opens_update (h : s.Inv) {o : Option Handle}
    (ho : ∀ f, o = some f → Opens s.fs.disk f.name f.file.hdr) (y : H) (f : Handle)
    (hf : update s.handle x o y = some f) : Opens s.fs.disk f.name f.file.hdr := by
  by_cases hyx : y = x
  · rw [hyx, update_self] at hf
    exact ho f hf
  · rw [update_of_ne hyx] at hf
    exact h.opens y f hf

/-- The call returns, and does what its event says. -/
def Returns (s : Session H) (a : SessionAction H) : Prop :=
  ∃ fs handle ev, s.next a = .next (s.after fs handle ev) ∧ Does s fs handle ev

theorem Inv.create (h : s.Inv) (name : Buffer) {k : ℕ} (hk : k ≤ maxFileSize)
    (junk : ℕ → Buffer) : s.Returns (.create name k junk) := by
  have hsize : 0 ≤ (k : Int) ∧ (k : Int) ≤ maxFileSize := by omega
  rcases h.fs.create_cases name k junk with ⟨-, hfail⟩ | ⟨d', i, e, sec, hdr, hcreate, hc⟩ | hlarge
  · refine ⟨s.fs, s.handle, .create (nameOf name) k false, ?_, h.fs, h.opens, .createFailed _ _⟩
    simp only [Session.next, Session.create, if_pos hsize, hfail, Int.toNat_natCast]
  · -- The new array is whatever the sectors of the file held before.
    have hstep := ArrayStore.Step.create (a := fileBytes d' hdr) hc.contents_none
    rw [length_fileBytes, hc.hdr_length, ← hc.contents_eq h.fs.disk] at hstep
    refine ⟨{ s.fs with disk := d' }, s.handle, .create (nameOf name) k true, ?_,
      h.fs.of_keeps hc.keeps (hc.inv h.fs.disk), fun x f hf => ?_, hstep⟩
    · simp only [Session.next, Session.create, if_pos hsize, hcreate, Int.toNat_natCast]
    · exact (hc.opens_iff h.fs.disk).mpr (.inr (h.opens x f hf))
  · omega

/-- `Remove`: the handles that are left are those of other files. -/
theorem Inv.remove (h : s.Inv) (name : Buffer) (junk : ℕ → Buffer) :
    s.Returns (.remove name junk) := by
  rcases h.fs.remove_cases name junk with ⟨hmiss, hfail⟩ | ⟨d', i, e, hname, hremove, hr⟩
  · refine ⟨s.fs, s.handle, .remove (nameOf name) false, ?_, h.fs, h.opens, .removeFailed ?_⟩
    · simp only [Session.next, Session.remove, hfail, Bool.false_eq_true, if_false]
    · exact contents_eq_none fun _ ⟨j, e, he, hname, _⟩ => hmiss j e he hname
  · refine ⟨{ s.fs with disk := d' }, fun x => (s.handle x).filter (·.name ≠ nameOf name),
      .remove (nameOf name) true, ?_, h.fs.of_keeps hr.keeps (hr.inv h.fs.disk),
      fun x f hf => ?_, ?_⟩
    · simp only [Session.next, Session.remove, hremove, if_true]
    · -- A handle that is left has another name, so its file is still there.
      rw [Option.filter_eq_some_iff, decide_eq_true_eq] at hf
      refine (hr.opens_iff h.fs.disk).mpr ⟨?_, h.opens x f hf.1⟩
      rw [hname]
      exact hf.2
    · rw [hr.contents_eq h.fs.disk, hname]
      refine .remove ?_
      rw [h.fs.disk.contents_of_opens ⟨i, e, hr.holds, hname, rfl⟩]
      exact Option.some_ne_none _

/-- `Open` of a name that leads to a header. -/
theorem Inv.openFile_eq (h : s.Inv) {name : Buffer} {hdr : FileHeader}
    (ho : Opens s.fs.disk (nameOf name) hdr) (x : H) (junk : ℕ → Buffer) :
    s.next (.openFile x name junk) = .next (s.after s.fs
      (update s.handle x (some ⟨⟨hdr, 0⟩, nameOf name⟩)) (.lookup (nameOf name) true)) := by
  simp only [Session.next, Session.openFile, h.fs.openFile_eq ho, Option.map_some,
    Option.isSome_some]

theorem Inv.openFile (h : s.Inv) (x : H) (name : Buffer) (junk : ℕ → Buffer) :
    s.Returns (.openFile x name junk) := by
  rcases h.fs.openFile_cases name junk with ⟨hmiss, hnull⟩ | ⟨i, e, he, hname, -⟩
  · refine ⟨s.fs, update s.handle x none, .lookup (nameOf name) false, ?_, h.fs,
      h.opens_update ?_, .lookup ?_⟩
    · simp only [Session.next, Session.openFile, hnull, Option.map_none, Option.isSome_none]
    · intro f hf
      cases hf
    · rw [contents_eq_none fun _ ⟨j, e, he, hname, _⟩ => hmiss j e he hname, Option.isSome_none]
  · have ho : Opens s.fs.disk (nameOf name) (header s.fs.disk e.sector.toNat) :=
      ⟨i, e, he, hname, rfl⟩
    refine ⟨s.fs, _, _, h.openFile_eq ho x junk, h.fs, h.opens_update ?_, .lookup ?_⟩
    · intro f hf
      rw [← Option.some.inj hf]
      exact ho
    · rw [h.fs.disk.contents_of_opens ho, Option.isSome_some]

theorem Inv.readAt (h : s.Inv) (hf : s.handle x = some f) (hfits : f.file.Fits n p) :
    s.Returns (.readAt x n p) := by
  obtain ⟨bytes, hread, hstep⟩ := h.readAt_step hf hfits
  refine ⟨s.fs, s.handle, _, ?_, h.fs, h.opens, hstep⟩
  simp only [Session.next, call_eq hf, Session.readAt, hread, if_pos (Int.natCast_nonneg p),
    Int.toNat_natCast]

theorem Inv.writeAt (h : s.Inv) (hf : s.handle x = some f) (hfits : f.file.Fits n p)
    (src junk : Buffer) : s.Returns (.writeAt x src n p junk) := by
  obtain ⟨d', hwrite, hfs, hopens, hstep⟩ := h.writeAt_step hf hfits junk src
  refine ⟨{ s.fs with disk := d' }, s.handle, _, ?_, hfs,
    fun y g hg => hopens _ _ (h.opens y g hg), hstep⟩
  simp only [Session.next, call_eq hf, Session.writeAt, hwrite, if_pos (Int.natCast_nonneg p),
    Int.toNat_natCast]

/-- A handle whose position moves stays good. -/
theorem Inv.opens_moved (h : s.Inv) (hf : s.handle x = some f) (position : Int) (y : H) (g : Handle)
    (hg : update s.handle x
      (some { f with file := { f.file with seekPosition := position } }) y = some g) :
    Opens s.fs.disk g.name g.file.hdr := by
  refine h.opens_update ?_ y g hg
  rintro g ⟨rfl⟩
  exact h.opens x f hf

/-- `Read`: a `ReadAt` that moves the position. -/
theorem Inv.read (h : s.Inv) (hf : s.handle x = some f) (hp : f.file.seekPosition = p)
    (hfits : f.file.Fits n p) : s.Returns (.read x n) := by
  obtain ⟨bytes, hread, hstep⟩ := h.readAt_step hf hfits
  refine ⟨s.fs, _, _, ?_, h.fs, h.opens_moved hf (p + f.file.transferred n p), hstep⟩
  simp only [Session.next, call_eq hf, Session.read, OpenFile.read, hp, hread,
    if_pos (Int.natCast_nonneg p), Option.map_some, Int.toNat_natCast]

/-- `Write`: a `WriteAt` that moves the position. -/
theorem Inv.write (h : s.Inv) (hf : s.handle x = some f) (hp : f.file.seekPosition = p)
    (hfits : f.file.Fits n p) (src junk : Buffer) : s.Returns (.write x src n junk) := by
  obtain ⟨d', hwrite, hfs, hopens, hstep⟩ := h.writeAt_step hf hfits junk src
  refine ⟨{ s.fs with disk := d' }, _, _, ?_, hfs,
    fun y g hg => hopens _ _ (h.opens_moved hf (p + f.file.transferred n p) y g hg), hstep⟩
  simp only [Session.next, call_eq hf, Session.write, OpenFile.write, hp, hwrite,
    if_pos (Int.natCast_nonneg p), Option.map_some, Int.toNat_natCast]

theorem Inv.seek (h : s.Inv) (hf : s.handle x = some f) (position : Int) :
    s.Returns (.seek x position) := by
  refine ⟨s.fs, _, .skip, ?_, h.fs, h.opens_moved hf position, .skip⟩
  simp only [Session.next, call_eq hf, Session.seek, OpenFile.seek]

/-- A call that starts at a position, where that is not negative. -/
theorem returns_of_position {a : SessionAction H} (position : Handle → Int)
    {k : Handle → Outcome (Session H)}
    (ha : s.next a = s.call x fun f => if 0 ≤ position f then k f else .disabled)
    (h : ∀ f (p : ℕ), s.handle x = some f → position f = p → s.Returns a) :
    s.next a = .disabled ∨ s.Returns a := by
  cases hf : s.handle x with
  | none => exact .inl (by rw [ha, call, hf])
  | some f =>
    by_cases hp : 0 ≤ position f
    · obtain ⟨p, hpos⟩ := Int.eq_ofNat_of_zero_le hp
      exact .inr (h f p hf hpos)
    · exact .inl (by rw [ha, call_eq hf, if_neg hp])

/-- **Step.** A call whose request does not overflow is not available, or it returns. -/
theorem Inv.next (h : s.Inv) (a : SessionAction H) (ha : s.noOverflow a = true) :
    s.next a = .disabled ∨ s.Returns a := by
  cases a with
  | create name initialSize junk =>
    by_cases hsize : 0 ≤ initialSize ∧ initialSize ≤ maxFileSize
    · obtain ⟨k, rfl⟩ := Int.eq_ofNat_of_zero_le hsize.1
      exact .inr (h.create name (by omega) junk)
    · left
      simp only [Session.next, Session.create, if_neg hsize]
  | remove name junk => exact .inr (h.remove name junk)
  | openFile x name junk => exact .inr (h.openFile x name junk)
  | readAt x numBytes position =>
    refine returns_of_position (fun _ => position) rfl fun f p hf hp => ?_
    obtain rfl : position = p := hp
    exact h.readAt hf (by simpa [noOverflow, hf] using ha)
  | writeAt x src numBytes position junk =>
    refine returns_of_position (fun _ => position) rfl fun f p hf hp => ?_
    obtain rfl : position = p := hp
    exact h.writeAt hf (by simpa [noOverflow, hf] using ha) src junk
  | read x numBytes =>
    refine returns_of_position (·.file.seekPosition) rfl fun f p hf hp => ?_
    exact h.read hf hp (by simpa [noOverflow, hf, hp] using ha)
  | write x src numBytes junk =>
    refine returns_of_position (·.file.seekPosition) rfl fun f p hf hp => ?_
    exact h.write hf hp (by simpa [noOverflow, hf, hp] using ha) src junk
  | seek x position =>
    cases hf : s.handle x with
    | none => exact .inl (by simp only [Session.next, call, hf])
    | some f => exact .inr (h.seek hf position)

/-- Before the first call there is no file. -/
theorem Inv.init (h : (sessions H).init s) : s.Inv := by
  obtain ⟨⟨d, junk, hformat⟩, hhandle, hhistory⟩ := h
  obtain ⟨fs, hfs, hinv, hempty, -⟩ := FileSystem.format_eq d junk
  rw [hformat] at hfs
  cases hfs
  -- The empty directory stands for the empty store.
  have hcontents : contents s.fs.disk = fun _ => none := by
    ext1 name
    exact contents_eq_none fun _ ⟨i, e, he, _⟩ => hempty i e he
  refine ⟨hinv, fun x f hf => ?_, ?_⟩
  · rw [hhandle x] at hf
    cases hf
  · rw [hhistory, hcontents]
    exact .nil

/-- **Run.** The invariant holds in every state that requests without overflow lead to. -/
theorem inv_of_reachable
    (h : ((sessions H).restrict fun s a => s.noOverflow a).Reachable s) : s.Inv := by
  apply h.invariant
  · exact fun s h0 => Inv.init h0
  · intro s a s' hi hs
    obtain ⟨ha, hs⟩ := LTS.restrict_next hs
    rcases hi.next a ha with hdis | ⟨fs, handle, ev, hret, hdoes⟩
    · rw [sessions_next, hdis] at hs
      cases hs
    · rw [sessions_next, hret] at hs
      cases hs
      exact hdoes.inv hi

end Session

/-! ### The file system refines a store of byte arrays -/

section Refinement

variable {H : Type*} [DecidableEq H]

/-- **Refinement.** In every state of every run whose requests do not overflow,

    * the calls so far, with their results, are a trace of the store that the disk stands for;
    * no call faults;
    * `ReadAt` returns, at every offset of the request that has been written since the file was
      created, the byte that was written last;
    * a call is a step of the store, and it changes no byte of a file that it is not about. -/
theorem file_store_refinement {s : Session H}
    (h : ((sessions H).restrict fun s a => s.noOverflow a).Reachable s) :
    ArrayStore.Trace s.history (contents s.fs.disk) ∧
    (∀ a, s.noOverflow a = true → s.next a ≠ .fault) ∧
    (∀ x f, s.handle x = some f → ∀ (n : Int) (p : ℕ), f.file.Fits n p →
      ∃ k bytes, f.file.readAt s.fs.disk n p = some (k, bytes) ∧
        ∀ o b, p ≤ o → o < p + n.toNat → lastWritten s.history f.name o = some b →
          o - p < k ∧ bytes (o - p) = b) ∧
    (∀ a s', s.noOverflow a = true → s.next a = .next s' → ∃ ev, s'.history = ev :: s.history ∧
      (contents s.fs.disk).Step ev (contents s'.fs.disk) ∧
      ∀ name, ev.target ≠ some name → contents s'.fs.disk name = contents s.fs.disk name) := by
  have hinv := Session.inv_of_reachable h
  refine ⟨hinv.trace, fun a ha hfault => ?_, fun x f hf n p hfits => ?_, fun a s' ha hs => ?_⟩
  · rcases hinv.next a ha with hdis | ⟨fs, handle, ev, hret, -⟩
    · rw [hdis] at hfault; cases hfault
    · rw [hret] at hfault; cases hfault
  · obtain ⟨bytes, hread, hstep⟩ := hinv.readAt_step hf hfits
    refine ⟨_, bytes, hread, fun o b hlo hhi hb => ?_⟩
    have hdata := hinv.trace.read_lastWritten hstep hlo hhi hb
    obtain ⟨hlt, hval⟩ := List.getElem?_eq_some_iff.mp hdata
    rw [List.length_map, List.length_range] at hlt
    rw [List.getElem_map, List.getElem_range] at hval
    exact ⟨hlt, hval⟩
  · rcases hinv.next a ha with hdis | ⟨fs, handle, ev, hret, hdoes⟩
    · rw [hdis] at hs; cases hs
    · rw [hret] at hs
      cases hs
      exact ⟨ev, rfl, hdoes.step, fun name hne => hdoes.step.other hne⟩

/-! ### A run -/

section Run

variable {s : Session H} {name : Buffer}
  (h : ((sessions H).restrict fun s a => s.noOverflow a).Reachable s)

include h

/-- A file can be created when there is room. -/
theorem Session.reachable_create {n : ℕ} (hn : n ≤ maxFileSize) (hroom : Room s.fs.disk name n)
    (junk : ℕ → Buffer) : ∃ s' hdr, ((sessions H).restrict fun s a => s.noOverflow a).Reachable s' ∧
      Opens s'.fs.disk (nameOf name) hdr ∧ hdr.length = n := by
  have hinv := Session.inv_of_reachable h
  obtain ⟨d', i, e, sec, hdr, hcreate, hc⟩ := hinv.fs.create_of_room hn hroom junk
  refine ⟨s.after { s.fs with disk := d' } s.handle (.create (nameOf name) n true), hdr,
    h.step_restrict (l := .create name n junk) rfl ?_,
    (hc.opens_iff hinv.fs.disk).mpr (.inl ⟨rfl, rfl⟩), hc.hdr_length⟩
  simp only [sessions_next, Session.next, Session.create, hcreate, Int.toNat_natCast]
  rw [if_pos (by omega)]

/-- A name that leads to a header can be opened. -/
theorem Session.reachable_openFile {hdr : FileHeader} (ho : Opens s.fs.disk (nameOf name) hdr)
    (x : H)
    (junk : ℕ → Buffer) : ∃ s', ((sessions H).restrict fun s a => s.noOverflow a).Reachable s' ∧
      s'.handle x = some ⟨⟨hdr, 0⟩, nameOf name⟩ :=
  ⟨_, h.step_restrict (l := .openFile x name junk) rfl
    ((Session.inv_of_reachable h).openFile_eq ho x junk), update_self ..⟩

/-- An open file can be written. -/
theorem Session.reachable_writeAt {x : H} {f : Handle} (hf : s.handle x = some f) {n : Int} {p : ℕ}
    (hfits : f.file.Fits n p) (src junk : Buffer) :
    ∃ s', ((sessions H).restrict fun s a => s.noOverflow a).Reachable s' ∧
      s'.handle x = some f ∧ s'.history =
        .write f.name n.toNat p ((List.range (f.file.transferred n p)).map src) :: s.history := by
  obtain ⟨d', hwrite, -⟩ := (Session.inv_of_reachable h).writeAt_step hf hfits junk src
  refine ⟨s.after { s.fs with disk := d' } s.handle _,
    h.step_restrict (l := .writeAt x src n p junk) ?_ ?_, hf, rfl⟩
  · simpa [Session.noOverflow, hf] using hfits
  · simp only [sessions_next, Session.next, Session.call_eq hf, Session.writeAt, hwrite,
      if_pos (Int.natCast_nonneg p), Int.toNat_natCast]

end Run

/-- On a disk of zeros, the file `a` of ten bytes is created and opened, and its byte at offset 1
is written. -/
theorem Session.reachable_written :
    ∃ (s : Session Unit) (f : Handle),
      ((sessions Unit).restrict fun s a => s.noOverflow a).Reachable s ∧ s.handle () = some f ∧
      f.file.fileLength = 10 ∧ lastWritten s.history f.name 1 = some 7 := by
  obtain ⟨fs, hformat, -, hempty, hclear⟩ := FileSystem.format_eq (fun _ _ => 0) fun _ _ => 0
  have hinit : ((sessions Unit).restrict fun s a => s.noOverflow a).Reachable
      ⟨fs, fun _ => none, []⟩ := .init ⟨⟨_, _, hformat⟩, fun _ => rfl, rfl⟩
  have hroom := FileSystem.room_of_format hempty hclear (fun k => [97].getD k 0) (n := 10)
    (by decide)
  obtain ⟨s₁, hdr, hs₁, ho, hlen⟩ := Session.reachable_create hinit (by decide) hroom fun _ _ => 0
  obtain ⟨s₂, hs₂, hf⟩ := Session.reachable_openFile hs₁ ho () fun _ _ => 0
  obtain ⟨s, hs, hf, hhistory⟩ := Session.reachable_writeAt hs₂ hf (n := 1) (p := 1)
    (fun _ => by decide) (fun _ => 7) fun _ => 0
  refine ⟨s, _, hs, hf, ?_, ?_⟩
  · have hwf := (Session.inv_of_reachable hs₁).fs.disk.opens_wf ho
    rw [OpenFile.fileLength, FileHeader.fileLength, hwf.numBytes_eq, hlen]
    rfl
  · -- One byte is transferred, because the file is longer.
    rw [hhistory, OpenFile.transferred, hlen]
    simp [lastWritten, writtenAt]

/-- The byte is read back. -/
theorem file_store_refinement_read_back :
    ∃ (s : Session Unit) (f : Handle) (k : ℕ) (bytes : Buffer),
      ((sessions Unit).restrict fun s a => s.noOverflow a).Reachable s ∧ s.handle () = some f ∧
      f.file.readAt s.fs.disk 5 0 = some (k, bytes) ∧ 1 < k ∧ bytes 1 = 7 := by
  obtain ⟨s, f, hs, hf, -, hwritten⟩ := Session.reachable_written
  obtain ⟨k, bytes, hread, hval⟩ := (file_store_refinement hs).2.2.1 () f hf 5 0
    (fun _ => by decide)
  obtain ⟨hk, hb⟩ := hval 1 7 (by omega) (by decide) hwritten
  exact ⟨s, f, k, bytes, hs, hf, hread, hk, hb⟩

/-- **A read that faults.** With position 1 and the largest `int` for the number of bytes, their sum
wraps around, so that the request is not clipped to the ten bytes of the file; the size of the
buffer for it is negative. -/
theorem file_store_read_faults :
    ∃ (s : Session Unit) (f : Handle), (sessions Unit).Reachable s ∧ s.handle () = some f ∧
      f.file.fileLength = 10 ∧ lastWritten s.history f.name 1 = some 7 ∧
      f.file.readAt s.fs.disk maxInt 1 = none ∧ s.next (.readAt () maxInt 1) = .fault := by
  obtain ⟨s, f, hs, hf, hlen, hwritten⟩ := Session.reachable_written
  -- Only the length of the file matters: the disk is never looked at.
  have hread : f.file.readAt s.fs.disk maxInt 1 = none := by
    rw [OpenFile.fileLength] at hlen
    simp only [OpenFile.readAt, OpenFile.clip, hlen]
    rw [if_neg (by decide), if_pos (by decide)]
  refine ⟨s, f, hs.of_restrict, hf, hlen, hwritten, hread, ?_⟩
  simp only [Session.next, Session.call_eq hf, Session.readAt, hread]
  rw [if_pos (by decide)]

end Refinement

end Nachos.FileSys
