import Nachos.Base.Cursor
import Nachos.FileSys.CallEffect
import Nachos.UserProg.FileCalls

namespace Nachos.UserProg

open Base FileSys.Stub Function

/-!
# UserProg — a file descriptor as a byte array with a cursor

`SysSeek`, `SysRead` and `SysWrite` on one descriptor behind the console, down to the calls of the
host. A host descriptor has a position of its own, which `Length`, `ReadAt` and `WriteAt` all move;
the offset that a program sees is in the `OpenFile`.

* `HostKernel` — the descriptor table, the host files and the positions of the host descriptors;
* `readAt_eq`, `writeAt_eq`, `length_eq` — each of the three moves the host position before it uses
  it, so what they do does not depend on it;
* `specOp` — the calls on a byte array with a cursor;
* `descriptor_cursor_iff` — the calls of a program are those of the byte array exactly as long as
  the cursor, and the length where it is asked for, is an `int`.
-/

/-! ### The model -/

/-- What the three calls use of the kernel and of the host. -/
structure HostKernel where
  fileSystem : FileSystem
  /-- The file of a host descriptor. -/
  inode : ℕ → ℕ
  contents : ℕ → HostFile
  /-- Where a host descriptor is in its file. -/
  position : ℕ → ℕ

inductive Whence where
  | seekSet
  | seekEnd

namespace HostKernel

variable (h : HostKernel)

/-- The file of a host descriptor. -/
def file (fd : ℕ) : HostFile := h.contents (h.inode fd)

/-- `Lseek`: an offset that is not an `int`, or is negative, fails the assertion. -/
def lseek (fd : ℕ) (offset : Int) (whence : Whence) : Except Fault HostKernel :=
  let target : Int := match whence with
    | .seekSet => offset
    | .seekEnd => (h.file fd).length + offset
  if target < 0 ∨ maxInt < target then .error .hostFailed
  else .ok { h with position := update h.position fd target.toNat }

/-- `Tell`. -/
def tell (fd : ℕ) : Int := wrap32 (h.position fd)

/-- `ReadPartial`: the result and the bytes. The host refuses a negative count. -/
def readPartial (fd : ℕ) (nBytes : Int) : Int × List UInt8 × HostKernel :=
  if nBytes < 0 then (-1, [], h)
  else
    let bytes := ((h.file fd).drop (h.position fd)).take nBytes.toNat
    (bytes.length, bytes,
      { h with position := update h.position fd (h.position fd + bytes.length) })

/-- `WriteFile`, which asserts that the host writes everything. -/
def writeFile (fd : ℕ) (buffer : List UInt8) (nBytes : Int) : Except Fault HostKernel :=
  if nBytes < 0 then
    -- The host refuses the count; its answer passes the assertion if that was `-1`.
    if nBytes = -1 then .ok h else .error .hostFailed
  else
    .ok { h with
      contents := update h.contents (h.inode fd)
        ((h.file fd).writeAt (firstChars buffer nBytes.toNat) (h.position fd))
      position := update h.position fd (h.position fd + nBytes.toNat) }

/-- `OpenFile::ReadAt`. -/
def readAt (fd : ℕ) (numBytes position : Int) : Except Fault (Int × List UInt8 × HostKernel) := do
  let h ← h.lseek fd position .seekSet
  return h.readPartial fd numBytes

/-- `OpenFile::WriteAt`. -/
def writeAt (fd : ℕ) (buffer : List UInt8) (numBytes position : Int) : Except Fault HostKernel := do
  let h ← h.lseek fd position .seekSet
  h.writeFile fd buffer numBytes

/-- `OpenFile::Length`. -/
def length (fd : ℕ) : Except Fault (Int × HostKernel) := do
  let h ← h.lseek fd 0 .seekEnd
  return (h.tell fd, h)

/-- A call of `Length` that is made under a condition. -/
def lengthIf (asked : Prop) [Decidable asked] (fd : ℕ) : Except Fault (Int × HostKernel) :=
  if asked then h.length fd else .ok (0, h)

/-- The file that the calls below reach with an id: one behind the console. -/
def openFile (id : Int) : Option OpenFile :=
  match h.fileSystem.entry id with
  | .ok o => if 2 ≤ id then o else none
  | .error _ => none

/-- `SysRead`: the result and the buffer. -/
def sysRead (buffer : List UInt8) (size openFileID : Int) :
    Except Fault ((Int × List UInt8) × HostKernel) :=
  match h.openFile openFileID with
  | none => do
    let (result, fileSystem) ← h.fileSystem.sysRead openFileID 0
    return ((result, buffer), { h with fileSystem := fileSystem })
  | some f => do
    let (numRead, bytes, h) ← h.readAt f.file size f.currentOffset
    let (result, fileSystem) ← h.fileSystem.sysRead openFileID numRead
    return ((result, bytes ++ buffer.drop bytes.length), { h with fileSystem := fileSystem })

/-- `SysWrite`. -/
def sysWrite (buffer : List UInt8) (size openFileId : Int) : Except Fault (Int × HostKernel) := do
  let h ← match h.openFile openFileId with
    -- The host is not asked for a file that cannot be written.
    | some f => if f.fileType = 1 then .ok h else h.writeAt f.file buffer size f.currentOffset
    | none => .ok h
  let (result, fileSystem) ← h.fileSystem.sysWrite size openFileId size
  return (result, { h with fileSystem := fileSystem })

/-- `SysSeek`. `FileSystem::Seek` asks for the length if it is to go there, and to compare. -/
def sysSeek (pos openFileId : Int) : Except Fault (Int × HostKernel) :=
  match h.openFile openFileId with
  | none => do
    let (result, fileSystem) ← h.fileSystem.sysSeek pos openFileId 0 0
    return (result, { h with fileSystem := fileSystem })
  | some f => do
    let (len₁, h) ← h.lengthIf (pos = -1) f.file
    let (len₂, h) ← h.lengthIf (pos ≥ -1) f.file
    let (result, fileSystem) ← h.fileSystem.sysSeek pos openFileId len₁ len₂
    return (result, { h with fileSystem := fileSystem })

end HostKernel

/-- A call on a descriptor; the size of a transfer is not negative. -/
inductive FileOp where
  | seek (pos : Int)
  | read (buffer : List UInt8) (size : ℕ)
  | write (buffer : List UInt8) (size : ℕ)

/-- The result of a call, the buffer of a read, and the state. -/
def HostKernel.fileOp (h : HostKernel) (id : Int) :
    FileOp → Except Fault ((Int × List UInt8) × HostKernel)
  | .seek pos => do
    let (result, h) ← h.sysSeek pos id
    return ((result, []), h)
  | .read buffer size => h.sysRead buffer size id
  | .write buffer size => do
    let (result, h) ← h.sysWrite buffer size id
    return ((result, []), h)

/-! ### The byte array -/

/-- The calls on a byte array with a cursor. -/
def specOp (c : Cursor UInt8) : FileOp → (Int × List UInt8) × Cursor UInt8
  | .seek pos =>
    if pos = -1 then ((c.contents.length, []), c.seek c.contents.length le_rfl)
    else if h : 0 ≤ pos ∧ pos ≤ c.contents.length then ((pos, []), c.seek pos.toNat (by omega))
    else ((-1, []), c)
  | .read buffer size =>
    ((if (c.ahead size).length = 0 then -1 else (c.ahead size).length,
      c.ahead size ++ buffer.drop (c.ahead size).length), c.skip size)
  | .write buffer size =>
    if size = 0 then ((-1, []), c) else ((size, []), c.write (firstChars buffer size))

/-- The cursor behind the call is an `int`, and so is the length if the call compares with it. -/
def FileOp.Fits (c : Cursor UInt8) : FileOp → Prop
  | .seek pos => -1 ≤ pos → (c.contents.length : Int) ≤ maxInt
  | .read _ size => (c.position + (c.ahead size).length : Int) ≤ maxInt
  | .write _ size => (c.position + size : Int) ≤ maxInt

instance FileOp.Fits.decidable (c : Cursor UInt8) : ∀ op, Decidable (FileOp.Fits c op)
  | .seek pos => inferInstanceAs (Decidable (-1 ≤ pos → (c.contents.length : Int) ≤ maxInt))
  | .read _ size =>
    inferInstanceAs (Decidable ((c.position + (c.ahead size).length : Int) ≤ maxInt))
  | .write _ size => inferInstanceAs (Decidable ((c.position + size : Int) ≤ maxInt))

/-- The entry `i` is open for reading and writing; its file holds the bytes, and its offset, which
is an `int`, is the cursor. -/
structure Represents (i : Fin maxFile) (h : HostKernel) (c : Cursor UInt8) : Prop where
  entry : ∃ f, h.fileSystem.table i = some f ∧ f.fileType ≠ 1 ∧ h.file f.file = c.contents ∧
    f.currentOffset = c.position
  int : (c.position : Int) ≤ maxInt

/-! ### The calls of the host -/

namespace HostFile

/-- A write that leaves no gap. -/
theorem writeAt_eq {f : HostFile} {position : ℕ} (h : position ≤ f.length) (bytes : List UInt8) :
    f.writeAt bytes position = f.take position ++ bytes ++ f.drop (position + bytes.length) := by
  by_cases hnil : bytes = []
  · subst hnil
    rw [writeAt, if_pos rfl, List.append_nil, List.length_nil, Nat.add_zero, List.take_append_drop]
  · have hlen : (f.writeAt bytes position).length = max f.length (position + bytes.length) :=
      length_writeAt hnil
    apply List.ext_getElem?
    intro o
    -- In front of the bytes, among them, behind them in the old file, and behind the end.
    rcases Nat.lt_or_ge o position with hlt | hge
    · rw [getElem?_writeAt_of_notMem (by omega) (.inl hlt), List.append_assoc,
        List.getElem?_append_left (by rw [List.length_take]; omega), List.getElem?_take_of_lt hlt]
    obtain ⟨k, rfl⟩ := Nat.exists_eq_add_of_le hge
    have htake : (f.take position).length = position := List.length_take_of_le h
    rw [List.append_assoc, List.getElem?_append_right (by omega), htake, Nat.add_sub_cancel_left]
    rcases Nat.lt_or_ge k bytes.length with hk | hk
    · rw [getElem?_writeAt hk, List.getElem?_append_left hk]
    · rw [List.getElem?_append_right hk, List.getElem?_drop]
      have hindex : position + bytes.length + (k - bytes.length) = position + k := by omega
      rw [hindex]
      by_cases hend : position + k < f.length
      · exact getElem?_writeAt_of_notMem hend (.inr (by omega))
      · rw [List.getElem?_eq_none (by omega), List.getElem?_eq_none (by omega)]

end HostFile

namespace HostKernel

variable {h : HostKernel} {fd : ℕ} {p : Int}

theorem lseek_set (hp : 0 ≤ p ∧ p ≤ maxInt) : h.lseek fd p .seekSet =
    .ok { h with position := update h.position fd p.toNat } :=
  if_neg (by simp only; omega)

/-- What is read does not depend on where the host descriptor was. -/
theorem readAt_eq (fd : ℕ) (hp : 0 ≤ p ∧ p ≤ maxInt) (size : ℕ) : ∃ position, h.readAt fd size p =
    .ok ((((h.file fd).drop p.toNat).take size).length, ((h.file fd).drop p.toNat).take size,
      { h with position := position }) := by
  refine ⟨update (update h.position fd p.toNat) fd
    (p.toNat + (((h.file fd).drop p.toNat).take size).length), ?_⟩
  rw [readAt, lseek_set hp, ok_bind, readPartial, if_neg (by omega)]
  simp only [file, update_self, Int.toNat_natCast]
  rfl

theorem writeAt_eq (fd : ℕ) (hp : 0 ≤ p ∧ p ≤ maxInt) (buffer : List UInt8) (size : ℕ) :
    ∃ position, h.writeAt fd buffer size p = .ok { h with
      contents := update h.contents (h.inode fd)
        ((h.file fd).writeAt (firstChars buffer size) p.toNat)
      position := position } := by
  refine ⟨update (update h.position fd p.toNat) fd (p.toNat + size), ?_⟩
  rw [writeAt, lseek_set hp, ok_bind, writeFile, if_neg (by omega)]
  simp only [file, update_self, Int.toNat_natCast]

theorem length_eq (hlen : ((h.file fd).length : Int) ≤ maxInt) : ∃ position, h.length fd =
    .ok (((h.file fd).length : Int), { h with position := position }) := by
  have hmax : maxInt = 2147483647 := rfl
  refine ⟨update h.position fd (h.file fd).length, ?_⟩
  have hlseek : h.lseek fd 0 .seekEnd = .ok { h with
      position := update h.position fd (h.file fd).length } := by
    rw [lseek]
    simp only [Int.add_zero, Int.toNat_natCast]
    exact if_neg (by omega)
  rw [length, hlseek, ok_bind]
  simp only [tell, update_self]
  rw [wrap32_natCast (by omega)]
  rfl

theorem length_eq_error (hlen : ¬((h.file fd).length : Int) ≤ maxInt) :
    h.length fd = .error .hostFailed := by
  have hlseek : h.lseek fd 0 .seekEnd = .error .hostFailed := by
    rw [lseek]
    simp only [Int.add_zero]
    exact if_pos (by omega)
  rw [length, hlseek]
  rfl

theorem lengthIf_of {asked : Prop} [Decidable asked] (ha : asked) :
    h.lengthIf asked fd = h.length fd := if_pos ha

theorem lengthIf_of_not {asked : Prop} [Decidable asked] (ha : ¬asked) :
    h.lengthIf asked fd = .ok (0, h) := if_neg ha

/-! ### The calls of a program -/

variable {i : Fin maxFile} {f : OpenFile} {c : Cursor UInt8}

theorem openFile_eq (h2 : 2 ≤ (i : ℕ)) (hi : h.fileSystem.table i = some f) :
    h.openFile (i : Int) = some f := by
  rw [openFile, FileSystem.entry_fin, hi]
  exact if_pos (by omega)

section Calls

variable (h2 : 2 ≤ (i : ℕ)) (hi : h.fileSystem.table i = some f)
  (hoff : 0 ≤ f.currentOffset ∧ f.currentOffset ≤ maxInt)

include h2 hi hoff

theorem sysRead_eq (buffer : List UInt8) (size : ℕ) : ∃ position,
    h.sysRead buffer size (i : Int) =
      let bytes := ((h.file f.file).drop f.currentOffset.toNat).take size
      .ok ((if bytes.length = 0 then -1 else bytes.length, bytes ++ buffer.drop bytes.length),
        { h with
          fileSystem := h.fileSystem.moved i f (wrap32 (f.currentOffset + bytes.length))
          position := position }) := by
  obtain ⟨position, hread⟩ := readAt_eq (h := h) f.file hoff size
  refine ⟨position, ?_⟩
  rw [sysRead, openFile_eq h2 hi]
  simp only [hread, ok_bind, FileSystem.sysRead_eq h2 hi, FileSystem.transfer_eq hoff.1, pure_eq_ok,
    Int.natCast_nonpos_iff]

theorem sysWrite_eq (htype : f.fileType ≠ 1) (buffer : List UInt8) (size : ℕ) : ∃ position,
    h.sysWrite buffer size (i : Int) = .ok (if size = 0 then -1 else size, { h with
      fileSystem := h.fileSystem.moved i f (wrap32 (f.currentOffset + size))
      contents := update h.contents (h.inode f.file)
        ((h.file f.file).writeAt (firstChars buffer size) f.currentOffset.toNat)
      position := position }) := by
  obtain ⟨position, hwrite⟩ := writeAt_eq (h := h) f.file hoff buffer size
  refine ⟨position, ?_⟩
  rw [sysWrite, openFile_eq h2 hi]
  simp only [if_neg htype, hwrite, ok_bind, FileSystem.sysWrite_eq h2 hi, FileSystem.write_eq h2 hi,
    if_true, FileSystem.transfer_eq hoff.1, pure_eq_ok, Int.natCast_nonpos_iff]

omit hoff in
/-- A position below `-1` is refused before the host is asked. -/
theorem sysSeek_refused {pos : Int} (hpos : pos < -1) : h.sysSeek pos (i : Int) = .ok (-1, h) := by
  rw [sysSeek, openFile_eq h2 hi]
  have hend : pos ≠ -1 := by omega
  have hlow : ¬pos ≥ -1 := by omega
  have hseek : h.fileSystem.sysSeek pos (i : Int) 0 0 = .ok (-1, h.fileSystem) := by
    rw [FileSystem.sysSeek_eq h2 hi, if_neg (by omega), if_neg hend]
    exact if_pos (.inl hpos)
  simp only [lengthIf_of_not hend, lengthIf_of_not hlow, ok_bind, hseek]
  rfl

omit hoff in
theorem sysSeek_eq_error {pos : Int} (hpos : -1 ≤ pos)
    (hlen : ¬((h.file f.file).length : Int) ≤ maxInt) :
    h.sysSeek pos (i : Int) = .error .hostFailed := by
  rw [sysSeek, openFile_eq h2 hi]
  simp only
  by_cases hend : pos = -1
  · rw [lengthIf_of hend, length_eq_error hlen]
    rfl
  · rw [lengthIf_of_not hend, ok_bind]
    simp only
    rw [lengthIf_of hpos, length_eq_error hlen]
    rfl

omit hoff in
theorem sysSeek_end (hlen : ((h.file f.file).length : Int) ≤ maxInt) : ∃ position,
    h.sysSeek (-1) (i : Int) = .ok (((h.file f.file).length : Int), { h with
      fileSystem := h.fileSystem.moved i f (h.file f.file).length
      position := position }) := by
  obtain ⟨position₁, hasked⟩ := length_eq hlen
  obtain ⟨position₂, hcompared⟩ : ∃ position₂,
      ({ h with position := position₁ } : HostKernel).length f.file =
        .ok (((h.file f.file).length : Int), { h with position := position₂ }) := length_eq hlen
  have hseek : h.fileSystem.sysSeek (-1) (i : Int) (h.file f.file).length
      (h.file f.file).length = .ok (((h.file f.file).length : Int),
        h.fileSystem.moved i f (h.file f.file).length) := by
    rw [FileSystem.sysSeek_eq h2 hi, if_neg (by omega), if_pos rfl]
    exact if_neg (by omega)
  refine ⟨position₂, ?_⟩
  rw [sysSeek, openFile_eq h2 hi]
  show (h.lengthIf (-1 = (-1 : Int)) f.file >>= _) = _
  rw [lengthIf_of rfl, hasked, ok_bind]
  show (lengthIf _ (-1 ≥ (-1 : Int)) f.file >>= _) = _
  rw [lengthIf_of le_rfl, hcompared, ok_bind]
  simp only [hseek, ok_bind, pure_eq_ok]

omit hoff in
theorem sysSeek_eq {pos : Int} (hpos : 0 ≤ pos) (hlen : ((h.file f.file).length : Int) ≤ maxInt) :
    ∃ position, h.sysSeek pos (i : Int) =
      if pos ≤ (h.file f.file).length then
        .ok (pos, { h with fileSystem := h.fileSystem.moved i f pos, position := position })
      else .ok (-1, { h with position := position }) := by
  obtain ⟨position, hcompared⟩ := length_eq hlen
  have hend : pos ≠ -1 := by omega
  have hlow : pos ≥ -1 := by omega
  have hseek : h.fileSystem.sysSeek pos (i : Int) 0 (h.file f.file).length =
      if pos ≤ (h.file f.file).length then .ok (pos, h.fileSystem.moved i f pos)
      else .ok (-1, h.fileSystem) := by
    rw [FileSystem.sysSeek_eq h2 hi, if_neg (by omega), if_neg hend]
    by_cases hle : pos ≤ (h.file f.file).length
    · rw [if_pos hle]
      exact if_neg (by omega)
    · rw [if_neg hle]
      exact if_pos (by omega)
  refine ⟨position, ?_⟩
  rw [sysSeek, openFile_eq h2 hi]
  simp only [lengthIf_of_not hend, ok_bind, lengthIf_of hlow, hcompared, hseek]
  split <;> rfl

end Calls

end HostKernel

/-! ### One call -/

section Step

variable {h : HostKernel} {i : Fin maxFile} {f : OpenFile} {c : Cursor UInt8}

/-- The entry with another offset, and the file with other contents. -/
theorem represents_moved_iff (c' : Cursor UInt8) (htype : f.fileType ≠ 1) {contents : ℕ → HostFile}
    {position : ℕ → ℕ} {offset : Int} (hcontents : contents (h.inode f.file) = c'.contents) :
    Represents i ⟨h.fileSystem.moved i f offset, h.inode, contents, position⟩ c' ↔
      offset = c'.position ∧ (c'.position : Int) ≤ maxInt := by
  constructor
  · rintro ⟨⟨g, hg, -, -, hoff⟩, hint⟩
    rw [FileSystem.table_moved, update_self, Option.some.injEq] at hg
    subst hg
    exact ⟨hoff, hint⟩
  · rintro ⟨hoff, hint⟩
    exact ⟨⟨_, update_self .., htype, hcontents, hoff⟩, hint⟩

/-- An offset that has not wrapped around. -/
theorem wrap32_eq_natCast_iff {n : ℕ} :
    wrap32 (n : Int) = (n : Int) ∧ (n : Int) ≤ maxInt ↔ (n : Int) ≤ maxInt := by
  have hmin : minInt = -2147483648 := rfl
  constructor
  · exact And.right
  · exact fun hle => ⟨wrap32_eq_self (by omega) hle, hle⟩

/-- A call that succeeds with the output of the array leads to its state, or it does not follow
it. -/
theorem exists_ok_iff {S O ε : Type*} {o : O} {s : S} {P : S → Prop} :
    (∃ s', (.ok (o, s) : Except ε (O × S)) = .ok (o, s') ∧ P s') ↔ P s := by
  constructor
  · rintro ⟨s', hs, hP⟩
    cases hs
    exact hP
  · exact fun hP => ⟨s, rfl, hP⟩

variable (h2 : 2 ≤ (i : ℕ)) (hrep : Represents i h c)

include h2 hrep

theorem follows_read (buffer : List UInt8) (size : ℕ) :
    (∃ h', h.fileOp (i : Int) (.read buffer size) = .ok ((specOp c (.read buffer size)).1, h') ∧
      Represents i h' (specOp c (.read buffer size)).2) ↔ FileOp.Fits c (.read buffer size) := by
  obtain ⟨⟨f, hi, htype, hfile, hoff⟩, hint⟩ := hrep
  obtain ⟨position, hread⟩ := HostKernel.sysRead_eq h2 hi (by omega) buffer size
  have hahead : ((h.file f.file).drop f.currentOffset.toNat).take size = c.ahead size := by
    rw [hfile, hoff, Int.toNat_natCast]
    rfl
  simp only [hahead] at hread
  rw [HostKernel.fileOp, hread, specOp]
  refine exists_ok_iff.trans ((represents_moved_iff (c.skip size) htype hfile).trans ?_)
  rw [hoff]
  exact wrap32_eq_natCast_iff

theorem follows_write (buffer : List UInt8) (size : ℕ) :
    (∃ h', h.fileOp (i : Int) (.write buffer size) = .ok ((specOp c (.write buffer size)).1, h') ∧
      Represents i h' (specOp c (.write buffer size)).2) ↔ FileOp.Fits c (.write buffer size) := by
  obtain ⟨⟨f, hi, htype, hfile, hoff⟩, hint⟩ := hrep
  obtain ⟨position, hwrite⟩ := HostKernel.sysWrite_eq h2 hi (by omega) htype buffer size
  have hcontents : update h.contents (h.inode f.file)
      ((h.file f.file).writeAt (firstChars buffer size) f.currentOffset.toNat) (h.inode f.file) =
        (c.write (firstChars buffer size)).contents := by
    rw [update_self, hfile, hoff, Int.toNat_natCast, HostFile.writeAt_eq c.position_le]
    rfl
  have hposition : (c.write (firstChars buffer size)).position = c.position + size := by
    show c.position + (firstChars buffer size).length = _
    rw [length_firstChars]
  rw [HostKernel.fileOp, hwrite, ok_bind]
  by_cases hzero : size = 0
  · subst hzero
    -- Nothing is written, and the cursor stays.
    have hsame : (c.write (firstChars buffer 0)).contents = c.contents := by
      show c.contents.take c.position ++ [] ++ c.contents.drop (c.position + 0) = c.contents
      rw [List.append_nil, Nat.add_zero, List.take_append_drop]
    refine exists_ok_iff.trans ((represents_moved_iff c htype (hcontents.trans hsame)).trans ?_)
    rw [hoff]
    exact wrap32_eq_natCast_iff
  · have hspec : specOp c (.write buffer size) =
        (((size : Int), []), c.write (firstChars buffer size)) := if_neg hzero
    rw [hspec, if_neg hzero]
    refine exists_ok_iff.trans ((represents_moved_iff _ htype hcontents).trans ?_)
    rw [hoff, hposition]
    exact wrap32_eq_natCast_iff

theorem follows_seek (pos : Int) :
    (∃ h', h.fileOp (i : Int) (.seek pos) = .ok ((specOp c (.seek pos)).1, h') ∧
      Represents i h' (specOp c (.seek pos)).2) ↔ FileOp.Fits c (.seek pos) := by
  obtain ⟨⟨f, hi, htype, hfile, hoff⟩, hint⟩ := hrep
  have hlen : (h.file f.file).length = c.contents.length := congrArg List.length hfile
  rw [HostKernel.fileOp]
  rcases Int.lt_or_le pos (-1) with hlow | hpos
  · have hspec : specOp c (.seek pos) = ((-1, []), c) := by
      rw [specOp, if_neg (by omega), dif_neg (by omega)]
    rw [HostKernel.sysSeek_refused h2 hi hlow, ok_bind, hspec]
    refine exists_ok_iff.trans (iff_of_true ⟨⟨f, hi, htype, hfile, hoff⟩, hint⟩ ?_)
    intro hge
    omega
  by_cases hfits : (c.contents.length : Int) ≤ maxInt
  · refine iff_of_true ?_ fun _ => hfits
    by_cases hend : pos = -1
    · obtain ⟨position, hseek⟩ := HostKernel.sysSeek_end h2 hi (by omega)
      have hspec : specOp c (.seek pos) =
          (((c.contents.length : Int), []), c.seek c.contents.length le_rfl) := if_pos hend
      rw [hend, hseek, ok_bind, ← hend, hspec, hlen]
      exact exists_ok_iff.mpr
        ((represents_moved_iff (c.seek c.contents.length le_rfl) htype hfile).mpr ⟨rfl, hfits⟩)
    · obtain ⟨position, hseek⟩ := HostKernel.sysSeek_eq h2 hi (show 0 ≤ pos by omega) (by omega)
      rw [hseek, hlen]
      by_cases hle : pos ≤ c.contents.length
      · have hspec : specOp c (.seek pos) = ((pos, []), c.seek pos.toNat (by omega)) := by
          rw [specOp, if_neg hend, dif_pos (by omega)]
        rw [if_pos hle, ok_bind, hspec]
        have hnat : ((pos.toNat : ℕ) : Int) = pos := Int.toNat_of_nonneg (by omega)
        refine exists_ok_iff.mpr
          ((represents_moved_iff (c.seek pos.toNat (by omega)) htype hfile).mpr ⟨hnat.symm, ?_⟩)
        show ((pos.toNat : ℕ) : Int) ≤ maxInt
        omega
      · have hspec : specOp c (.seek pos) = ((-1, []), c) := by
          rw [specOp, if_neg hend, dif_neg (by omega)]
        rw [if_neg hle, ok_bind, hspec]
        exact exists_ok_iff.mpr ⟨⟨f, hi, htype, hfile, hoff⟩, hint⟩
  · refine iff_of_false ?_ fun hall => hfits (hall hpos)
    rintro ⟨h', hseek, -⟩
    rw [HostKernel.sysSeek_eq_error h2 hi hpos (by omega)] at hseek
    cases hseek

theorem follows_fileOp (op : FileOp) :
    (∃ h', h.fileOp (i : Int) op = .ok ((specOp c op).1, h') ∧ Represents i h' (specOp c op).2) ↔
      FileOp.Fits c op := by
  cases op with
  | seek pos => exact follows_seek h2 hrep pos
  | read buffer size => exact follows_read h2 hrep buffer size
  | write buffer size => exact follows_write h2 hrep buffer size

end Step

/-! ### The calls of a program -/

/-- **A descriptor is a byte array with a cursor, up to 2 GiB.** Calls in a row on one descriptor
return what they return on the array, leave the bytes and the cursor there, and keep the cursor
between `0` and the length, exactly if no cursor passes the largest `int` and no `Seek` asks for the
length of a file that is longer. -/
theorem descriptor_cursor_iff {i : Fin maxFile} (h2 : 2 ≤ (i : ℕ)) {h : HostKernel}
    {c : Cursor UInt8} (hrep : Represents i h c) (ops : List FileOp) :
    Follows (fun h => h.fileOp (i : Int)) specOp (Represents i) h c ops ↔
      SpecAlways specOp FileOp.Fits c ops :=
  follows_iff (R := Represents i) (fun _ _ op hrep => follows_fileOp h2 hrep op) hrep ops

/-- A file in entry `2` with the offset `offset`; the host descriptor is somewhere else in it. -/
def oneFile (file : HostFile) (offset : ℕ) : HostKernel where
  fileSystem :=
    ⟨fun i => if (i : ℕ) = 2 then some ⟨-1, 7, offset, 0⟩ else FileSystem.started.table i,
    insert 7 FileSystem.started.hostOpen⟩
  inode _ := 0
  contents _ := file
  position _ := 1

theorem represents_oneFile {i : Fin maxFile} (h2 : (i : ℕ) = 2) (c : Cursor UInt8)
    (hint : (c.position : Int) ≤ maxInt) : Represents i (oneFile c.contents c.position) c :=
  ⟨⟨⟨-1, 7, c.position, 0⟩, if_pos h2, by simp, rfl, rfl⟩, hint⟩

/-- Two bytes are read, a third one is written behind them, and the cursor is moved around. -/
theorem descriptor_cursor_text : ∃ (i : Fin maxFile) (c : Cursor UInt8), (i : ℕ) = 2 ∧
    c.contents = [104, 105] ∧ c.position = 0 ∧
    Follows (fun h => h.fileOp (i : Int)) specOp (Represents i) (oneFile [104, 105] 0) c
      [.read [0, 0, 0, 0] 4, .write [33] 1, .seek 4, .seek (-1), .seek 0, .read [0] 1] :=
  ⟨⟨2, by decide⟩, ⟨[104, 105], 0, Nat.zero_le _⟩, rfl, rfl, rfl,
    (descriptor_cursor_iff (by decide) (represents_oneFile rfl ⟨[104, 105], 0, Nat.zero_le _⟩
      (by decide)) _).mpr (by decide)⟩

/-- At the end of a file of 2 GiB minus one byte, a write of one byte succeeds and leaves a negative
offset; the next read fails the assertion in `Lseek`. -/
theorem large_file_breaks_cursor : ∃ (i : Fin maxFile) (h h' : HostKernel) (c : Cursor UInt8)
    (f : OpenFile), (i : ℕ) = 2 ∧ Represents i h c ∧ c.contents = List.replicate 2147483647 0 ∧
    h.fileOp (i : Int) (.write [33] 1) = .ok ((1, []), h') ∧
    h'.fileSystem.table i = some f ∧ f.currentOffset = -2147483648 ∧
    h'.fileOp (i : Int) (.read [0] 1) = .error .hostFailed := by
  obtain ⟨i, h2⟩ : ∃ i : Fin maxFile, (i : ℕ) = 2 := ⟨⟨2, by decide⟩, rfl⟩
  obtain ⟨c, hcontents, hposition⟩ : ∃ c : Cursor UInt8,
      c.contents = List.replicate 2147483647 0 ∧ c.position = 2147483647 :=
    ⟨⟨List.replicate 2147483647 0, 2147483647, List.length_replicate.ge⟩, rfl, rfl⟩
  have hrep := represents_oneFile h2 c (by rw [hposition]; decide)
  obtain ⟨f, hi, htype, -, hoff⟩ := hrep.entry
  rw [hposition] at hoff
  obtain ⟨position, hwrite⟩ := HostKernel.sysWrite_eq h2.ge hi (by rw [hoff]; decide) htype [33] 1
  have hwrap : wrap32 (f.currentOffset + (1 : ℕ)) = -2147483648 := by
    rw [hoff]
    decide
  rw [hwrap] at hwrite
  obtain ⟨h', hcall, hentry⟩ : ∃ h', (oneFile c.contents c.position).sysWrite [33] 1 (i : Int) =
      .ok (1, h') ∧ h'.fileSystem.table i = some { f with currentOffset := -2147483648 } :=
    ⟨_, hwrite, update_self ..⟩
  refine ⟨i, _, h', c, { f with currentOffset := -2147483648 }, h2, hrep, hcontents, ?_, hentry,
    rfl, ?_⟩
  · show ((oneFile c.contents c.position).sysWrite [33] 1 (i : Int) >>= _) = _
    rw [hcall]
    rfl
  · rw [HostKernel.fileOp, HostKernel.sysRead, HostKernel.openFile_eq h2.ge hentry]
    rfl

end Nachos.UserProg
