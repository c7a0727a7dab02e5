import Nachos.Base.ArrayStore
import Nachos.FileSys.DescriptorTable
import Nachos.Machine.ConsoleInput
import Nachos.UserProg.UserMemory

namespace Nachos.UserProg

open Base FileSys.Stub Machine UserProg.Exception Function

/-!
# UserProg — reading and writing with the bytes

`SysRead` and `SysWrite` of `userprog/ksyscall.h` with the bytes they move: `GetString` and
`PutString` of `userprog/synchconsole.cc`, and the `Read` and `Write` of the stub file system over
the contents of host files. What they do to the descriptor table is taken from
`DescriptorTable.lean`.

`FileServices` is a kernel in which the system calls end in these functions. A thread that reads or
writes a file does not wait; one at the console does, and other threads run meanwhile (`Resumes`).
-/

/-! ### Host files -/

/-- `write` of the host at `position`; a gap behind the end of the file is filled with zeros. -/
def HostFile.writeAt (f : HostFile) (bytes : List UInt8) (position : ℕ) : HostFile :=
  if bytes = [] then f
  else overwrite (f ++ List.replicate (position + bytes.length - f.length) 0) position bytes

namespace HostFile

variable {f : HostFile} {bytes : List UInt8} {position i : ℕ}

/-- The bytes that are written. -/
theorem getElem?_writeAt (hi : i < bytes.length) :
    (f.writeAt bytes position)[position + i]? = bytes[i]? := by
  have hlt : position + i <
      (f ++ List.replicate (position + bytes.length - f.length) 0).length := by
    rw [List.length_append, List.length_replicate]
    omega
  unfold writeAt
  rw [if_neg (List.ne_nil_of_length_pos (by omega)), getElem?_overwrite,
    List.getElem?_eq_getElem hlt, writtenAt, if_pos (Nat.le_add_right ..), Nat.add_sub_cancel_left,
    List.getElem?_eq_getElem hi]
  rfl

/-- The other bytes of the file. -/
theorem getElem?_writeAt_of_notMem (hi : i < f.length)
    (h : i < position ∨ position + bytes.length ≤ i) : (f.writeAt bytes position)[i]? = f[i]? := by
  have hnone : writtenAt position bytes i = none := by
    by_contra hne
    obtain ⟨b, hb⟩ := Option.ne_none_iff_exists'.mp hne
    have hlt := lt_of_writtenAt hb
    omega
  unfold writeAt
  split
  · rfl
  · rw [getElem?_overwrite, hnone, List.getElem?_append_left hi]
    exact Option.map_id'

theorem length_writeAt (h : bytes ≠ []) :
    (f.writeAt bytes position).length = max f.length (position + bytes.length) := by
  unfold writeAt overwrite
  rw [if_neg h, List.length_mapIdx, List.length_append, List.length_replicate]
  omega

end HostFile

/-! ### The model -/

/-- What `SysRead` and `SysWrite` use of the kernel, and what is behind it. -/
structure FileKernel where
  fileSystem : FileSystem
  /-- The file of a host descriptor; two descriptors may have the same one. -/
  inode : ℕ → ℕ
  contents : ℕ → HostFile
  /-- What `SynchConsoleInput::GetChar` is going to return. -/
  input : ℕ → UInt8
  /-- What the thread has given to `SynchConsoleOutput::PutChar`. -/
  output : List UInt8

/-- The loop of `GetString`, with the number of rounds that are left: what it stores, and whether it
gets to the end. -/
def getChars (input : ℕ → UInt8) : ℕ → List UInt8 × Bool
  | 0 => ([], true)
  | n + 1 =>
    -- The byte 255 is taken for `EOF`; a zero is stored in its place.
    if (input 0).toInt8 = eof then ([0], false)
    else
      let (rest, done) := getChars (fun i => input (i + 1)) n
      (input 0 :: rest, done)

/-- The first characters of a buffer; what is behind the list is zero. -/
def firstChars (buffer : List UInt8) (n : ℕ) : List UInt8 :=
  (List.range n).map fun i => buffer.getD i 0

theorem length_firstChars (buffer : List UInt8) (n : ℕ) : (firstChars buffer n).length = n := by
  unfold firstChars
  rw [List.length_map, List.length_range]

namespace FileKernel

variable (k : FileKernel)

/-- The file that is open in an entry. -/
def hostFile (f : OpenFile) : HostFile := k.contents (k.inode f.file)

/-- `SynchConsoleInput::GetString`. -/
def getString (buffer : List UInt8) (size : Int) : Int × List UInt8 × FileKernel :=
  let (chars, done) := getChars k.input size.toNat
  (if done then size else -1, chars ++ buffer.drop chars.length,
    { k with input := fun i => k.input (i + chars.length) })

/-- `SynchConsoleOutput::PutString`. -/
def putString (buffer : List UInt8) (size : Int) : Int × FileKernel :=
  (size, { k with output := k.output ++ firstChars buffer size.toNat })

/-- `FileSystem::Read`. The host refuses a negative count. -/
def read (buffer : List UInt8) (charCount openFileId : Int) :
    Except Fault (Int × List UInt8 × FileKernel) :=
  if openFileId < 0 ∨ openFileId ≥ 20 then .ok (-1, buffer, k)
  else do
    match ← k.fileSystem.entry openFileId with
    | none => return (-1, buffer, k)
    | some f =>
      match (k.hostFile f).readAt charCount f.currentOffset with
      -- `ASSERT(retVal >= 0)` in `Lseek`
      | none => .error .hostFailed
      | some bytes =>
        let numRead : Int := if charCount < 0 then -1 else bytes.length
        let (result, fileSystem) ← k.fileSystem.read openFileId numRead
        return (result, bytes ++ buffer.drop bytes.length, { k with fileSystem := fileSystem })

/-- `FileSystem::Write`. `WriteFile` asserts that the host writes everything. -/
def write (buffer : List UInt8) (charCount openFileId : Int) : Except Fault (Int × FileKernel) :=
  if openFileId ≥ 20 then .ok (-1, k)
  else do
    match ← k.fileSystem.entry openFileId with
    | none => return (-1, k)
    | some f =>
      if openFileId = 1 then return (-1, k)
      let (result, fileSystem) ← k.fileSystem.write charCount openFileId charCount
      let file := (k.hostFile f).writeAt (firstChars buffer charCount.toNat) f.currentOffset.toNat
      return (result, { k with
        fileSystem := fileSystem
        contents := update k.contents (k.inode f.file) file })

/-- `SysRead`: the result and the buffer. -/
def sysRead (buffer : List UInt8) (size openFileID : Int) :
    Except Fault (Int × List UInt8 × FileKernel) :=
  if openFileID < 0 ∨ openFileID ≥ 20 then .ok (-1, buffer, k)
  else do
    if (← k.fileSystem.getFileDescriptorByID openFileID) = none then return (-1, buffer, k)
    -- `ConsoleOutput` cannot be read, and `ConsoleInput` is not read through its entry.
    if openFileID = 1 then return (-1, buffer, k)
    if openFileID = 0 then return k.getString buffer size
    k.read buffer size openFileID

/-- `SysWrite`. -/
def sysWrite (buffer : List UInt8) (size openFileId : Int) : Except Fault (Int × FileKernel) :=
  if openFileId < 0 ∨ openFileId ≥ 20 then .ok (-1, k)
  else do
    if (← k.fileSystem.getFileDescriptorByID openFileId) = none then return (-1, k)
    if openFileId = 0 then return (-1, k)
    if openFileId = 1 then return k.putString buffer size
    -- Read-only files cannot be written.
    let file2write ← FileSystem.member (← k.fileSystem.getFileDescriptorByID openFileId)
    if file2write.fileType = 1 then return (-1, k)
    k.write buffer size openFileId

/-! ### What the calls do -/

/-- `fileDescriptorTable[id]`, if there is such an entry. -/
def descriptor (id : Int) : Option OpenFile :=
  match k.fileSystem.entry id with
  | .ok f => f
  | .error _ => none

/-- The next bytes behind a descriptor, at most `n`. -/
def next (id : Int) (n : ℕ) : List UInt8 :=
  if id = 0 then (List.range n).map k.input
  else ((k.descriptor id).map fun f => ((k.hostFile f).drop f.currentOffset.toNat).take n).getD []

theorem length_next_le (id : Int) (n : ℕ) : (k.next id n).length ≤ n := by
  unfold next
  split
  · rw [List.length_map, List.length_range]
  · cases k.descriptor id with
    | none => exact Nat.zero_le n
    | some f => exact List.length_take_le ..

/-- As many bytes as there are. -/
theorem next_length (id : Int) (n : ℕ) : k.next id (k.next id n).length = k.next id n := by
  unfold next
  split
  · rw [List.length_map, List.length_range]
  · cases k.descriptor id with
    | none => rfl
    | some f =>
      show List.take (List.take n _).length _ = List.take n _
      rw [List.length_take, List.take_eq_take_iff]
      omega

variable {k} {buffer : List UInt8} {size id : Int}

theorem entry_eq (h0 : 0 ≤ id) (h20 : id < 20) : k.fileSystem.entry id = .ok (k.descriptor id) := by
  have hmax : maxFile = 20 := rfl
  unfold descriptor FileSystem.entry
  rw [dif_pos (by omega)]

theorem descriptor_eq_none (h : id < 0 ∨ 20 ≤ id) : k.descriptor id = none := by
  have hmax : maxFile = 20 := rfl
  unfold descriptor FileSystem.entry
  rw [dif_neg (by omega)]

theorem mem_of_descriptor {f : OpenFile} (h : k.descriptor id = some f) : 0 ≤ id ∧ id < 20 := by
  by_contra hout
  rw [descriptor_eq_none (by omega)] at h
  cases h

theorem getFileDescriptorByID_eq (id : Int) :
    k.fileSystem.getFileDescriptorByID id = .ok (k.descriptor id) := by
  have hmax : maxFile = 20 := rfl
  unfold FileSystem.getFileDescriptorByID
  by_cases h : id < 0 ∨ id ≥ maxFile
  · rw [if_pos h, descriptor_eq_none (by omega)]
  · rw [if_neg h, entry_eq (by omega) (by omega)]

/-- The characters of a `GetString` that gets to the end. -/
theorem getChars_eq {input : ℕ → UInt8} {n : ℕ} {chars : List UInt8}
    (h : getChars input n = (chars, true)) : chars = (List.range n).map input := by
  induction n generalizing input chars with
  | zero =>
    cases h
    rfl
  | succ n ih =>
    unfold getChars at h
    split at h
    · cases h
    · cases hrest : getChars (fun i => input (i + 1)) n with
      | mk rest done =>
        rw [hrest] at h
        cases h
        rw [ih hrest, List.range_succ_eq_map, List.map_cons, List.map_map]
        rfl

/-- Moving on in a file that has been opened does not fail. -/
theorem transfer_eq_ok (hid : 0 ≤ id ∧ id < 20) {f : OpenFile} (hoff : 0 ≤ f.currentOffset)
    (n : Int) : ∃ fileSystem, k.fileSystem.transfer id f n = .ok fileSystem := by
  have hmax : maxFile = 20 := rfl
  unfold FileSystem.transfer FileSystem.setEntry
  rw [if_neg (by omega), dif_pos (by omega)]
  exact ⟨_, rfl⟩

/-- What a read that delivers `bytes` leaves in the buffer. -/
abbrev Delivered (bytes buffer : List UInt8) (size result : Int) (buffer' : List UInt8) : Prop :=
  -1 ≤ result ∧ result ≤ size ∧ (0 < result → result = bytes.length ∧
  buffer' = bytes ++ buffer.drop bytes.length)

theorem getString_spec (hsize : 0 ≤ size) :
    Delivered (k.next 0 size.toNat) buffer size (k.getString buffer size).1
      (k.getString buffer size).2.1 := by
  have hnext : k.next 0 size.toNat = (List.range size.toNat).map k.input := if_pos rfl
  unfold getString
  cases hchars : getChars k.input size.toNat with
  | mk chars done =>
    cases done with
    | false =>
      show (-1 : Int) ≤ -1 ∧ (-1 : Int) ≤ size ∧ (0 < (-1 : Int) → _)
      omega
    | true =>
      have hchars := getChars_eq hchars
      rw [hnext, ← hchars]
      refine ⟨by simp only [if_true]; omega, le_rfl, fun _ => ⟨?_, rfl⟩⟩
      rw [hchars, List.length_map, List.length_range]
      exact (Int.toNat_of_nonneg hsize).symm

theorem read_spec (hsize : 0 ≤ size) (hid : id ≠ 0) {f : OpenFile}
    (hf : k.descriptor id = some f) (hoff : 0 ≤ f.currentOffset) :
    ∃ result buffer' k', k.read buffer size id = .ok (result, buffer', k') ∧
      Delivered (k.next id size.toNat) buffer size result buffer' := by
  have hlen := k.length_next_le id size.toNat
  have hbytes : (k.hostFile f).readAt size f.currentOffset = some (k.next id size.toNat) := by
    unfold HostFile.readAt next
    rw [if_neg (by omega), if_neg (by omega), hf]
    rfl
  generalize k.next id size.toNat = bytes at *
  obtain ⟨h0, h20⟩ := mem_of_descriptor hf
  have hentry := entry_eq (k := k) h0 h20
  rw [hf] at hentry
  obtain ⟨fileSystem, htransfer⟩ := transfer_eq_ok (k := k) ⟨h0, h20⟩ hoff bytes.length
  have hread : k.fileSystem.read id bytes.length =
      .ok (if (bytes.length : Int) ≤ 0 then -1 else bytes.length, fileSystem) := by
    unfold FileSystem.read
    rw [if_neg (by omega), hentry, ok_bind]
    show (k.fileSystem.transfer id f _ >>= _) = _
    rw [htransfer]
    rfl
  refine ⟨if (bytes.length : Int) ≤ 0 then -1 else bytes.length, bytes ++ buffer.drop bytes.length,
    { k with fileSystem := fileSystem }, ?_, ?_, ?_, fun hpos => ⟨?_, rfl⟩⟩
  · unfold read
    rw [if_neg (by omega), hentry, ok_bind]
    show (match (k.hostFile f).readAt size f.currentOffset with
      | none => _
      | some bytes => _) = _
    rw [hbytes]
    show (k.fileSystem.read id (if size < 0 then -1 else bytes.length) >>= _) = _
    rw [if_neg (by omega), hread]
    rfl
  · split <;> omega
  · split <;> omega
  · split at hpos
    · omega
    · rename_i hne
      exact if_neg hne

/-- **A read that returns a number has read so many bytes**, into the front of the buffer. -/
theorem sysRead_spec (buffer : List UInt8) (hsize : 0 ≤ size)
    (hoff : ∀ f, k.descriptor id = some f → 0 ≤ f.currentOffset) :
    ∃ result buffer' k', k.sysRead buffer size id = .ok (result, buffer', k') ∧
      Delivered (k.next id size.toNat) buffer size result buffer' := by
  by_cases hid : id < 0 ∨ id ≥ 20
  · exact ⟨-1, buffer, k, if_pos hid, by omega⟩
  rw [sysRead, if_neg hid, getFileDescriptorByID_eq, ok_bind]
  cases hf : k.descriptor id with
  | none => exact ⟨-1, buffer, k, rfl, by omega⟩
  | some f =>
    rw [if_neg (by simp)]
    by_cases h1 : id = 1
    · exact ⟨-1, buffer, k, if_pos h1, by omega⟩
    rw [if_neg h1]
    by_cases h0 : id = 0
    · subst h0
      rw [if_pos rfl]
      exact ⟨_, _, _, rfl, getString_spec hsize⟩
    · rw [if_neg h0]
      exact read_spec hsize h0 hf (hoff f hf)

/-- A write to no file, or to the console's input, is refused. -/
theorem sysWrite_refused (h : k.descriptor id = none ∨ id = 0) :
    k.sysWrite buffer size id = .ok (-1, k) := by
  unfold sysWrite
  by_cases hid : id < 0 ∨ id ≥ 20
  · exact if_pos hid
  rw [if_neg hid, getFileDescriptorByID_eq, ok_bind]
  cases hf : k.descriptor id with
  | none => rfl
  | some f =>
    have h0 : id = 0 := h.resolve_left (by rw [hf]; simp)
    rw [if_neg (by simp), if_pos h0]
    rfl

theorem sysWrite_console (h : k.descriptor 1 ≠ none) :
    k.sysWrite buffer size 1 = .ok (k.putString buffer size) := by
  unfold sysWrite
  rw [if_neg (by decide), getFileDescriptorByID_eq, ok_bind, if_neg h, if_neg (by decide),
    if_pos rfl]
  rfl

/-- A write to a file that is open for writing puts the whole buffer there. -/
theorem sysWrite_file (buffer : List UInt8) (hsize : 0 < size) (hid : 2 ≤ id) {f : OpenFile}
    (hf : k.descriptor id = some f) (htype : f.fileType ≠ 1) (hoff : 0 ≤ f.currentOffset) :
    ∃ k', k.sysWrite buffer size id = .ok (size, k') ∧ k'.hostFile f
      = (k.hostFile f).writeAt (firstChars buffer size.toNat) f.currentOffset.toNat := by
  obtain ⟨h0, h20⟩ := mem_of_descriptor hf
  have hentry := entry_eq (k := k) h0 h20
  rw [hf] at hentry
  obtain ⟨fileSystem, htransfer⟩ := transfer_eq_ok (k := k) ⟨h0, h20⟩ hoff size
  have hwrite : k.fileSystem.write size id size = .ok (size, fileSystem) := by
    unfold FileSystem.write
    rw [if_neg (by omega), hentry, ok_bind]
    show (if id = 1 then _ else if size = size then _ else _) = _
    rw [if_neg (by omega), if_pos rfl]
    show (k.fileSystem.transfer id f _ >>= _) = _
    rw [htransfer, ok_bind, if_neg (by omega)]
    rfl
  refine ⟨{ k with
    fileSystem := fileSystem
    contents := update k.contents (k.inode f.file)
      ((k.hostFile f).writeAt (firstChars buffer size.toNat) f.currentOffset.toNat) }, ?_, ?_⟩
  · unfold sysWrite
    rw [if_neg (by omega), getFileDescriptorByID_eq, ok_bind, hf, if_neg (by simp),
      if_neg (by omega), if_neg (by omega)]
    show (if f.fileType = 1 then _ else k.write buffer size id) = _
    rw [if_neg htype]
    unfold write
    rw [if_neg (by omega), hentry, ok_bind]
    show (if id = 1 then _ else k.fileSystem.write size id size >>= _) = _
    rw [if_neg (by omega), hwrite]
    rfl
  · exact update_self ..

end FileKernel

/-! ### A kernel with these functions -/

/-- How a call of the thread with the descriptor `id` comes back to it, if the call leaves `k`.
While it waits for the console other threads may run: they do not reach its memory, and what they
put on the console is not its output. -/
structure Resumes (id : Int) (s : CallState FileKernel) (k : FileKernel)
    (s' : CallState FileKernel) : Prop where
  output : s'.kernel.output = k.output
  user : ∀ l : PageMap, l.Installed s.machine →
    l.Installed s'.machine ∧ l.byteAt s'.machine = l.byteAt s.machine
  kernel : 2 ≤ id → s'.kernel = k

/-- The rest of the kernel, with `SysRead` and `SysWrite` as they are. -/
structure FileServices extends Services FileKernel where
  serve_read : ∀ {s : CallState FileKernel} {buffer : List UInt8} {size id : BitVec 32}
    {result : Int} {buffer' : List UInt8} {k : FileKernel},
    s.kernel.sysRead buffer size.toInt id.toInt = .ok (result, buffer', k) →
      ∃ s', serve s (.sysRead buffer size id) = .returned (BitVec.ofInt 32 result) buffer' s' ∧
        Resumes id.toInt s k s'
  serve_write : ∀ {s : CallState FileKernel} {buffer : List UInt8} {size id : BitVec 32}
    {result : Int}
    {k : FileKernel}, s.kernel.sysWrite buffer size.toInt id.toInt = .ok (result, k) →
      ∃ buffer' s', serve s (.sysWrite buffer size id) =
        .returned (BitVec.ofInt 32 result) buffer' s' ∧ Resumes id.toInt s k s'

/-- The only thread of the kernel, whose other system calls do nothing. -/
def singleThread : FileServices where
  serve s
    | .sysHalt | .exitUpdate _ => .stopped .finished s
    | .sysRead buffer size id =>
      match s.kernel.sysRead buffer size.toInt id.toInt with
      | .ok (result, buffer', k) =>
        .returned (BitVec.ofInt 32 result) buffer' { s with kernel := k }
      | .error _ => .stopped .crashed s
    | .sysWrite buffer size id =>
      match s.kernel.sysWrite buffer size.toInt id.toInt with
      | .ok (result, k) => .returned (BitVec.ofInt 32 result) buffer { s with kernel := k }
      | .error _ => .stopped .crashed s
    | _ => .returned 0 [] s
  halts _ := rfl
  restores {s r result buffer s'} h := by
    cases r with
    | sysRead buffer size id | sysWrite buffer size id =>
      simp only at h
      split at h <;> cases h
      rfl
    | _ => cases h <;> rfl
  maxAlloc := 65536
  buffers := by decide
  addresses := by decide
  serve_read {s buffer size id result buffer' k} h := by
    refine ⟨{ s with kernel := k }, ?_, rfl, fun l hl => ⟨hl, rfl⟩, fun _ => rfl⟩
    simp only [h]
  serve_write {s buffer size id result k} h := by
    refine ⟨buffer, { s with kernel := k }, ?_, rfl, fun l hl => ⟨hl, rfl⟩, fun _ => rfl⟩
    simp only [h]

end Nachos.UserProg
