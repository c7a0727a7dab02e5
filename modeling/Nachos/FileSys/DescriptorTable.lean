import Mathlib.Data.Finset.Insert
import Nachos.Base.CInt
import Nachos.Base.Except
import Nachos.Base.Transition

namespace Nachos.FileSys.Stub

open Base Function

/-!
# FileSys — the descriptor table of the stub file system

`FileSystem` and `OpenFile` as they are compiled with `FILESYS_STUB` (`filesys/filesys.h`,
`filesys/openfile.h`), with the kernel's side of the system calls in `userprog/ksyscall.h`. A file
is a descriptor of the host; the table has `MAX_FILE` entries, the first two for the console.

The host decides what its calls return. Its answers are arguments here, and all that is assumed
is that `open` does not return a descriptor that is open already. `OpenFile` keeps a copy of its
name without the terminating zero, so what `strcmp` finds in it is an answer of the host as well.

`Fault` says why a call does not return. Every access to the table goes through `entry` and
`setEntry`, every access to a member of an entry through `member`.

What a call can do to the table and to the descriptors of the host is said once, by `Effect`.
-/

/-! ### The model -/

/-- `MAX_FILE`. -/
def maxFile : ℕ := 20

/-- `plusSocketId`. -/
def plusSocketId : Int := 100

/-- `OpenFile`. -/
structure OpenFile where
  socketId : Int
  file : ℕ
  currentOffset : Int
  fileType : Int
  deriving DecidableEq

/-- `OpenFile::isSocket`. -/
def OpenFile.isSocket (f : OpenFile) : Bool := f.socketId ≠ -1

/-- Why a call does not return. -/
inductive Fault where
  /-- An access outside the table. -/
  | badIndex
  /-- An access to a member of a `NULL` entry. -/
  | nullEntry
  /-- A call of the host failed that the kernel asserts to succeed. -/
  | hostFailed
  /-- The host does not behave so. -/
  | notPosix
  deriving DecidableEq

/-- The table, and the descriptors that are open on the host. -/
structure FileSystem where
  table : Fin maxFile → Option OpenFile
  hostOpen : Finset ℕ

namespace FileSystem

/-- Read `fileDescriptorTable[i]`. -/
def entry (s : FileSystem) (i : Int) : Except Fault (Option OpenFile) :=
  if h : 0 ≤ i ∧ i.toNat < maxFile then .ok (s.table ⟨i.toNat, h.2⟩) else .error .badIndex

/-- Write `fileDescriptorTable[i]`. -/
def setEntry (s : FileSystem) (i : Int) (o : Option OpenFile) : Except Fault FileSystem :=
  if h : 0 ≤ i ∧ i.toNat < maxFile then
    .ok { s with table := update s.table ⟨i.toNat, h.2⟩ o }
  else .error .badIndex

/-- Follow a pointer from the table. -/
def member : Option OpenFile → Except Fault OpenFile
  | none => .error .nullEntry
  | some f => .ok f

/-- `open` or `socket` on the host; `none` is `-1`. -/
def hostDescriptor (s : FileSystem) : Option ℕ → Except Fault FileSystem
  | none => .ok s
  | some fd =>
    if fd ∈ s.hostOpen then .error .notPosix else .ok { s with hostOpen := insert fd s.hostOpen }

/-- `delete fileDescriptorTable[i]; fileDescriptorTable[i] = NULL`, for the entry `f`. The
destructor asserts that `close` succeeds. -/
def deleteEntry (s : FileSystem) (i : Int) (f : OpenFile) : Except Fault FileSystem :=
  if f.file ∈ s.hostOpen then
    ({ s with hostOpen := s.hostOpen.erase f.file } : FileSystem).setEntry i none
  else .error .hostFailed

/-- `FileSystem::Close`. -/
def close (s : FileSystem) (fileId : Int) : Except Fault (Int × FileSystem) :=
  if fileId < 2 ∨ fileId ≥ maxFile then .ok (-1, s)
  else do
    match ← s.entry fileId with
    | none => .ok (-1, s)
    | some f => .ok (0, ← s.deleteEntry fileId f)

/-- `FileSystem::Create`. `OpenForWrite` asserts that `open` succeeds; `Close` is the member
function. -/
def create (s : FileSystem) (answer : Option ℕ) : Except Fault (Bool × FileSystem) :=
  match answer with
  | none => .error .hostFailed
  | some fileDescriptor => do
    let s₁ ← s.hostDescriptor (some fileDescriptor)
    let (_, s₂) ← s₁.close fileDescriptor
    return (true, s₂)

/-- `FileSystem::Open(name, mode)`; with any other mode no file is opened and the descriptor
is `0`. -/
def openMode (s : FileSystem) (mode : Int) (answer : Option ℕ) :
    Except Fault (Option OpenFile × FileSystem) :=
  if mode = 0 ∨ mode = 1 then do
    return (answer.map fun fd => ⟨-1, fd, 0, mode⟩, ← s.hostDescriptor answer)
  else .ok (some ⟨-1, 0, 0, mode⟩, s)

/-- The loop of `GetFileDescriptorEmptySlot`. -/
def emptySlotFrom (s : FileSystem) : List ℕ → Except Fault Int
  | [] => .ok (-1)
  | i :: rest => do
    match ← s.entry i with
    | none => .ok i
    | some _ => emptySlotFrom s rest

/-- `FileSystem::GetFileDescriptorEmptySlot`. -/
def getFileDescriptorEmptySlot (s : FileSystem) : Except Fault Int :=
  s.emptySlotFrom (List.range' 2 (maxFile - 2))

/-- The loop of `GetFileDescriptorID` and `GetFileDescriptorByName`; `same i` is whether `strcmp`
finds the name in entry `i` equal. -/
def findName (s : FileSystem) (same : ℕ → Bool) : List ℕ → Except Fault Int
  | [] => .ok (-1)
  | i :: rest => do
    match ← s.entry i with
    | none => findName s same rest
    | some _ => if same i then .ok i else findName s same rest

/-- `FileSystem::GetFileDescriptorID`. -/
def getFileDescriptorID (s : FileSystem) (same : ℕ → Bool) : Except Fault Int :=
  s.findName same (List.range maxFile)

/-- `FileSystem::GetFileDescriptorByID`. -/
def getFileDescriptorByID (s : FileSystem) (openFileID : Int) : Except Fault (Option OpenFile) :=
  if openFileID < 0 ∨ openFileID ≥ maxFile then .ok none else s.entry openFileID

/-- `FileSystem::AddToFileDescriptorTable`. -/
def addToFileDescriptorTable (s : FileSystem) (index mode : Int) (answer : Option ℕ) :
    Except Fault (Option OpenFile × FileSystem) := do
  match ← s.entry index with
  | some _ => return (none, s)
  | none =>
    let (f, s₁) ← s.openMode mode answer
    return (f, ← s₁.setEntry index f)

/-- The loop of `RemoveFileDescriptor` over the sockets. `CloseSocket` ignores errors. -/
def removeSocketFrom (s : FileSystem) (fileId : Int) : List ℕ → Except Fault (Bool × FileSystem)
  | [] => .ok (false, s)
  | i :: rest => do
    match ← s.entry i with
    | none => removeSocketFrom s fileId rest
    | some f =>
      if f.isSocket ∧ f.socketId = fileId then
        let s₁ := { s with hostOpen := s.hostOpen.erase (fileId - plusSocketId).toNat }
        return (true, ← s₁.deleteEntry i f)
      else removeSocketFrom s fileId rest

/-- `FileSystem::RemoveFileDescriptor`. -/
def removeFileDescriptor (s : FileSystem) (fileId : Int) : Except Fault (Bool × FileSystem) :=
  if fileId > maxFile ∨ fileId < 0 then s.removeSocketFrom fileId (List.range' 2 (maxFile - 2))
  else do
    match ← s.entry fileId with
    | none => return (false, s)
    | some f => return (true, ← s.deleteEntry fileId f)

/-- `OpenFile::Read` or `OpenFile::Write` on entry `i`: `Lseek` to the offset, which is asserted to
succeed, and move on by `n`. -/
def transfer (s : FileSystem) (i : Int) (f : OpenFile) (n : Int) : Except Fault FileSystem :=
  if f.currentOffset < 0 then .error .hostFailed
  else s.setEntry i (some { f with currentOffset := wrap32 (f.currentOffset + n) })

/-- `FileSystem::Read`; the host reads `n` bytes. -/
def read (s : FileSystem) (openFileId n : Int) : Except Fault (Int × FileSystem) :=
  if openFileId < 0 ∨ openFileId ≥ 20 then .ok (-1, s)
  else do
    match ← s.entry openFileId with
    | none => return (-1, s)
    | some f =>
      let s₁ ← s.transfer openFileId f n
      return (if n ≤ 0 then -1 else n, s₁)

/-- `FileSystem::Write`; the host writes `n` bytes, which is asserted to be all of them. -/
def write (s : FileSystem) (charCount openFileId n : Int) : Except Fault (Int × FileSystem) :=
  if openFileId ≥ 20 then .ok (-1, s)
  else do
    match ← s.entry openFileId with
    | none => return (-1, s)
    | some f =>
      if openFileId = 1 then return (-1, s)
      else if n = charCount then
        let s₁ ← s.transfer openFileId f n
        return (if n ≤ 0 then -1 else n, s₁)
      else .error .hostFailed

/-- `FileSystem::Seek`; `len₁` and `len₂` are the two lengths the host gives if it is asked. -/
def seek (s : FileSystem) (pos openFileId len₁ len₂ : Int) : Except Fault (Int × FileSystem) :=
  if openFileId ≤ 1 ∨ openFileId ≥ 20 then .ok (-1, s)
  else do
    let o ← s.entry openFileId
    match o with
    | none => return (-1, s)
    | some f =>
      -- `Length` asserts that the host can seek to the end.
      if (pos = -1 ∧ len₁ < 0) ∨ (pos ≥ -1 ∧ len₂ < 0) then throw .hostFailed
      let pos := if pos = -1 then len₁ else pos
      if pos < -1 ∨ pos > len₂ then return (-1, s)
      else return (pos, ← s.setEntry openFileId (some { f with currentOffset := pos }))

/-- `FileSystem::OpenNewSocket`; the host's answers to `socket`, which is asserted to succeed, and
to the two `open`s. -/
def openNewSocket (s : FileSystem) (socket created opened : Option ℕ) :
    Except Fault (Int × FileSystem) := do
  let emptySlot ← s.getFileDescriptorEmptySlot
  if emptySlot = -1 then return (-1, s)
  match socket with
  | none => throw .hostFailed
  | some socket =>
    let s₁ ← s.hostDescriptor (some socket)
    let socketDescriptor := socket + plusSocketId
    let (_, s₂) ← s₁.create created
    let (o, s₃) ← s₂.openMode 1 opened
    let s₄ ← s₃.setEntry emptySlot o
    let f ← member o
    return (socketDescriptor,
      ← s₄.setEntry emptySlot (some { f with socketId := socketDescriptor }))

/-- The loop of `SendSocketMessage` and `ReceiveSocketMessage`; `result i` is what the host returns
if it is asked at entry `i`. -/
def messageFrom (s : FileSystem) (socketDescriptor length : Int) (result : ℕ → Int) :
    List ℕ → Except Fault Int
  | [] => .ok (-1)
  | i :: rest => do
    let f ← member (← s.entry i)
    if f.isSocket ∧ f.socketId = socketDescriptor ∧ result i ≤ length then return result i
    else messageFrom s socketDescriptor length result rest

/-- `FileSystem::SendSocketMessage`. -/
def sendSocketMessage (s : FileSystem) (socketDescriptor length : Int) (result : ℕ → Int) :
    Except Fault Int :=
  s.messageFrom socketDescriptor length result (List.range 20)

/-- `FileSystem::ReceiveSocketMessage`. -/
def receiveSocketMessage (s : FileSystem) (socketDescriptor length : Int) (result : ℕ → Int) :
    Except Fault Int :=
  s.messageFrom socketDescriptor length result (List.range 20)

/-! ### System calls -/

/-- `SysCreate`. -/
def sysCreate (s : FileSystem) (fileName : String) (answer : Option ℕ) :
    Except Fault (Int × FileSystem) :=
  if fileName.isEmpty then .ok (-1, s)
  else do
    let (done, s₁) ← s.create answer
    return (if done then 1 else -1, s₁)

/-- `SysRemove`; `unlinked` is whether the host removes the file. -/
def sysRemove (s : FileSystem) (filename : String) (same : ℕ → Bool) (unlinked : Bool) :
    Except Fault (Int × FileSystem) :=
  if filename.isEmpty then .ok (-1, s)
  else do
    if (← s.getFileDescriptorID same) ≠ -1 then return (-1, s)
    else return (if unlinked then 1 else -1, s)

/-- `SysOpen`. -/
def sysOpen (s : FileSystem) (filename : String) (type : Int) (same : ℕ → Bool)
    (answer : Option ℕ) : Except Fault (Int × FileSystem) :=
  if filename.isEmpty then .ok (-1, s)
  else do
    let openFileId ← s.getFileDescriptorID same
    if openFileId ≠ -1 then return (openFileId, s)
    let emptySlot ← s.getFileDescriptorEmptySlot
    if emptySlot = -1 then return (-1, s)
    let (f, s₁) ← s.addToFileDescriptorTable emptySlot type answer
    return (if f.isSome then emptySlot else -1, s₁)

/-- `SysClose`. -/
def sysClose (s : FileSystem) (openFileID : Int) : Except Fault (Int × FileSystem) := do
  let (done, s₁) ← s.removeFileDescriptor openFileID
  return (if done then 0 else -1, s₁)

/-- `SysRead`; the console or the host reads `n` bytes. -/
def sysRead (s : FileSystem) (openFileID n : Int) : Except Fault (Int × FileSystem) :=
  if openFileID < 0 ∨ openFileID ≥ 20 then .ok (-1, s)
  else do
    if (← s.getFileDescriptorByID openFileID) = none then return (-1, s)
    if openFileID = 1 then return (-1, s)
    if openFileID = 0 then return (n, s)
    s.read openFileID n

/-- `SysSeek`. -/
def sysSeek (s : FileSystem) (pos openFileId len₁ len₂ : Int) : Except Fault (Int × FileSystem) :=
  if openFileId = 0 ∨ openFileId = 1 then .ok (-1, s)
  else if openFileId < 0 ∨ openFileId ≥ maxFile then .ok (-1, s)
  else do
    if (← s.getFileDescriptorByID openFileId) = none then return (-1, s)
    s.seek pos openFileId len₁ len₂

/-- `SysWrite`; the host writes `n` bytes. -/
def sysWrite (s : FileSystem) (size openFileId n : Int) : Except Fault (Int × FileSystem) :=
  if openFileId < 0 ∨ openFileId ≥ 20 then .ok (-1, s)
  else do
    if (← s.getFileDescriptorByID openFileId) = none then return (-1, s)
    if openFileId = 0 then return (-1, s)
    if openFileId = 1 then return (size, s)
    let file2write ← member (← s.getFileDescriptorByID openFileId)
    if file2write.fileType = 1 then return (-1, s)
    s.write size openFileId n

end FileSystem

/-- A system call on the stub file system, with the answers of the host. -/
inductive FsCall where
  | create (fileName : String) (answer : Option ℕ)
  | remove (fileName : String) (same : ℕ → Bool) (unlinked : Bool)
  /-- `SC_Open` passes the types `0` and `1` on. -/
  | openFile (fileName : String) (readOnly : Bool) (same : ℕ → Bool) (answer : Option ℕ)
  | close (id : Int)
  | read (id n : Int)
  | write (size id n : Int)
  | seek (pos id len₁ len₂ : Int)
  | socketTCP (socket created opened : Option ℕ)
  | send (id length : Int) (result : ℕ → Int)
  | receive (id length : Int) (result : ℕ → Int)

namespace FileSystem

/-- What a system call returns. -/
def call (s : FileSystem) : FsCall → Except Fault (Int × FileSystem)
  | .create fileName answer => s.sysCreate fileName answer
  | .remove fileName same unlinked => s.sysRemove fileName same unlinked
  | .openFile fileName readOnly same answer =>
    s.sysOpen fileName (if readOnly then 1 else 0) same answer
  | .close id => s.sysClose id
  | .read id n => s.sysRead id n
  | .write size id n => s.sysWrite size id n
  | .seek pos id len₁ len₂ => s.sysSeek pos id len₁ len₂
  | .socketTCP socket created opened => s.openNewSocket socket created opened
  | .send id length result => do return (← s.sendSocketMessage id length result, s)
  | .receive id length result => do return (← s.receiveSocketMessage id length result, s)

end FileSystem

/-! ### Memory safety of the table -/

/-- The file id or socket id a call is about. -/
def FsCall.descriptor : FsCall → Option Int
  | .close id | .read id _ | .write _ id _ | .seek _ id _ _ | .send id _ _ | .receive id _ _ =>
    some id
  | _ => none

/-- The call is about the offset of a file. -/
def FsCall.moves : FsCall → Bool
  | .read _ _ | .write _ _ _ | .seek _ _ _ _ => true
  | _ => false

namespace FileSystem

variable {s s' : FileSystem}

/-- The id is the number of an entry that holds a file. -/
def NamesFile (s : FileSystem) (id : Int) : Prop :=
  ∃ i : Fin maxFile, (i : Int) = id ∧ s.table i ≠ none

/-- The id is the socket id of an entry. -/
def NamesSocket (s : FileSystem) (id : Int) : Prop :=
  ∃ i f, s.table i = some f ∧ f.isSocket = true ∧ f.socketId = id

/-- The call neither leaves the table nor follows a `NULL` pointer from it. -/
def NoMemFault {α : Type} (r : Except Fault α) : Prop :=
  r ≠ .error .badIndex ∧ r ≠ .error .nullEntry

/-- What a call with the given id owes its caller. -/
structure Safe (s : FileSystem) (c : FsCall) (id : Int) : Prop where
  noMemFault : NoMemFault (s.call c)
  unnamed : ¬ s.NamesFile id → ¬ s.NamesSocket id → ∃ s', s.call c = .ok (-1, s')

/-- At every entry where a message loop finds `NULL` it has returned already, from a socket with
the given id. -/
def FoundFirst (s : FileSystem) (id length : Int) (result : ℕ → Int) : Prop :=
  ∀ j, s.table j = none → ∃ i f, i < j ∧ s.table i = some f ∧ f.isSocket = true ∧
    f.socketId = id ∧ result i ≤ length

/-- The calls that are safe. -/
def Allowed (s : FileSystem) : FsCall → Prop
  | .close id => id ≠ maxFile
  | .send id length result | .receive id length result => s.FoundFirst id length result
  | _ => True

@[simp] theorem noMemFault_ok {α : Type} (a : α) : NoMemFault (.ok a : Except Fault α) :=
  ⟨nofun, nofun⟩

@[simp] theorem noMemFault_hostFailed {α : Type} :
    NoMemFault (.error .hostFailed : Except Fault α) :=
  ⟨nofun, nofun⟩

theorem NoMemFault.bind {α β : Type} {r : Except Fault α} {f : α → Except Fault β}
    (hr : NoMemFault r) (hf : ∀ a, r = .ok a → NoMemFault (f a)) : NoMemFault (r >>= f) := by
  cases r with
  | error e => exact ⟨fun h => hr.1 (by cases h; rfl), fun h => hr.2 (by cases h; rfl)⟩
  | ok a => exact hf a rfl

@[simp] theorem entry_fin (s : FileSystem) (i : Fin maxFile) :
    s.entry (i : Int) = .ok (s.table i) := by
  simp [entry, i.isLt]

@[simp] theorem setEntry_fin (s : FileSystem) (i : Fin maxFile) (o : Option OpenFile) :
    s.setEntry (i : Int) o = .ok { s with table := update s.table i o } := by
  simp [setEntry, i.isLt]

theorem exists_fin {id : Int} (h : ¬ (id < 0 ∨ id ≥ maxFile)) :
    ∃ i : Fin maxFile, (i : Int) = id := by
  refine ⟨⟨id.toNat, by omega⟩, ?_⟩
  show ((id.toNat : ℕ) : Int) = id
  omega

theorem fin_lt (i : Fin maxFile) : (i : Int) < maxFile ∧ (maxFile : Int) = 20 :=
  ⟨by exact_mod_cast i.isLt, rfl⟩

theorem noMemFault_deleteEntry (s : FileSystem) (i : Fin maxFile) (f : OpenFile) :
    NoMemFault (s.deleteEntry (i : Int) f) := by
  unfold deleteEntry
  split <;> simp

theorem noMemFault_transfer (s : FileSystem) (i : Fin maxFile) (f : OpenFile) (n : Int) :
    NoMemFault (s.transfer (i : Int) f n) := by
  unfold transfer
  split <;> simp

/-- The entries behind the console, in the order of the loops. -/
def behind : List (Fin maxFile) := (List.finRange maxFile).drop 2

theorem map_finRange : List.range 20 = (List.finRange maxFile).map Fin.val := by decide

theorem map_behind : List.range' 2 (maxFile - 2) = behind.map Fin.val := by decide

theorem mem_behind : ∀ {i : Fin maxFile}, i ∈ behind ↔ 2 ≤ (i : ℕ) := by decide

/-- The loop over the sockets deletes an entry with the id, or finds none and changes nothing. -/
theorem removeSocketFrom_cases (s : FileSystem) (id : Int) (l : List (Fin maxFile)) :
    (∃ i ∈ l, ∃ f, s.table i = some f ∧ (f.isSocket = true ∧ f.socketId = id) ∧
      s.removeSocketFrom id (l.map Fin.val) =
        ({ s with hostOpen := s.hostOpen.erase (id - plusSocketId).toNat } : FileSystem).deleteEntry
          (i : Int) f >>= fun s₁ => .ok (true, s₁)) ∨
    s.removeSocketFrom id (l.map Fin.val) = .ok (false, s) := by
  induction l with
  | nil => exact .inr rfl
  | cons i rest ih =>
    simp only [List.map_cons, removeSocketFrom, entry_fin, ok_bind]
    have hskip := ih.imp_left (Exists.imp fun j => And.imp_left (List.mem_cons_of_mem i))
    cases hi : s.table i with
    | none => exact hskip
    | some f =>
      by_cases hf : f.isSocket = true ∧ f.socketId = id
      · exact .inl ⟨i, List.mem_cons_self, f, hi, hf, if_pos hf⟩
      · simp only [if_neg hf]
        exact hskip

/-- `Close` is safe unless the id is the one behind the last entry. -/
theorem safe_close (s : FileSystem) (id : Int) : s.Safe (.close id) id ↔ id ≠ maxFile := by
  constructor
  · rintro h rfl
    exact h.noMemFault.1 rfl
  · intro hne
    -- What is deleted is named by the id; otherwise nothing happens.
    suffices hremove : s.removeFileDescriptor id = .ok (false, s) ∨
      (s.NamesFile id ∨ s.NamesSocket id) ∧
        ∃ s₁ i f, s.removeFileDescriptor id =
          deleteEntry s₁ ((i : Fin maxFile) : Int) f >>= fun s₂ => .ok (true, s₂) by
      rcases hremove with heq | ⟨hnamed, s₁, i, f, heq⟩
      · have hcall : s.call (.close id) = .ok (-1, s) := by simp [call, sysClose, heq]
        exact ⟨hcall ▸ noMemFault_ok _, fun _ _ => ⟨s, hcall⟩⟩
      · refine ⟨?_, fun hfile hsocket => absurd hnamed (not_or.mpr ⟨hfile, hsocket⟩)⟩
        simp only [call, sysClose, heq]
        exact ((noMemFault_deleteEntry s₁ i f).bind fun _ _ => noMemFault_ok _).bind
          fun _ _ => noMemFault_ok _
    rw [removeFileDescriptor]
    split
    · rw [map_behind]
      rcases s.removeSocketFrom_cases id behind with ⟨i, -, f, hi, hf, heq⟩ | heq
      · exact .inr ⟨.inr ⟨i, f, hi, hf⟩, _, i, f, heq⟩
      · exact .inl heq
    · obtain ⟨i, rfl⟩ := exists_fin (show ¬ (id < 0 ∨ id ≥ maxFile) by omega)
      rw [entry_fin, ok_bind]
      cases hi : s.table i with
      | none => exact .inl rfl
      | some f => exact .inr ⟨.inl ⟨i, rfl, by simp [hi]⟩, s, i, f, rfl⟩

/-- The lookup that the system calls begin with. -/
theorem getFileDescriptorByID_fin (s : FileSystem) (i : Fin maxFile) :
    s.getFileDescriptorByID (i : Int) = .ok (s.table i) := by
  have hlt := fin_lt i
  rw [getFileDescriptorByID, if_neg (by omega), entry_fin]

/-- The call changes nothing, and refuses an id that is no number of an open entry. -/
def Leaves (s : FileSystem) (id : Int) (m : Except Fault (Int × FileSystem)) : Prop :=
  ∃ r, m = .ok (r, s) ∧ (¬ s.NamesFile id → r = -1)

/-- `Read`, `Write` and `Seek` with this id move no file. -/
structure Untouched (s : FileSystem) (id : Int) : Prop where
  read : ∀ n, s.Leaves id (s.sysRead id n)
  write : ∀ size n, s.Leaves id (s.sysWrite size id n)
  seek : ∀ pos len₁ len₂, s.Leaves id (s.sysSeek pos id len₁ len₂)

theorem untouched_of_unnamed {id : Int} (h : ¬ s.NamesFile id) : s.Untouched id := by
  have hnone : s.getFileDescriptorByID id = .ok none := by
    rw [getFileDescriptorByID]
    split
    · rfl
    · rename_i hrange
      obtain ⟨i, rfl⟩ := exists_fin hrange
      rw [entry_fin, Except.ok.injEq]
      by_contra hi
      exact h ⟨i, rfl, hi⟩
  refine ⟨fun n => ⟨-1, ?_, fun _ => rfl⟩, fun size n => ⟨-1, ?_, fun _ => rfl⟩,
    fun pos len₁ len₂ => ⟨-1, ?_, fun _ => rfl⟩⟩
  · simp [sysRead, hnone]
  · simp [sysWrite, hnone]
  · simp [sysSeek, hnone]

/-- The state in which the file of an entry has another offset. -/
def moved (s : FileSystem) (i : Fin maxFile) (f : OpenFile) (offset : Int) : FileSystem :=
  { s with table := update s.table i (some { f with currentOffset := offset }) }

section Files

variable {i : Fin maxFile} {f : OpenFile}

theorem untouched_of_console (h2 : (i : ℕ) < 2) (hi : s.table i = some f) :
    s.Untouched (i : Int) := by
  have hleaves (r : Int) : s.Leaves (i : Int) (.ok (r, s)) :=
    ⟨r, rfl, fun h => absurd ⟨i, rfl, by simp [hi]⟩ h⟩
  refine ⟨fun n => ?_, fun size n => ?_, fun pos len₁ len₂ => ?_⟩
  · rw [sysRead, if_neg (by omega), getFileDescriptorByID_fin, hi, ok_bind,
      if_neg (Option.some_ne_none f)]
    split
    · exact hleaves _
    · rw [if_pos (by omega)]
      exact hleaves _
  · rw [sysWrite, if_neg (by omega), getFileDescriptorByID_fin, hi, ok_bind,
      if_neg (Option.some_ne_none f)]
    split
    · exact hleaves _
    · rw [if_pos (by omega)]
      exact hleaves _
  · rw [sysSeek, if_pos (by omega)]
    exact hleaves _

theorem table_moved (offset : Int) : (s.moved i f offset).table =
    update s.table i (some { f with currentOffset := offset }) := rfl

theorem transfer_eq (h0 : 0 ≤ f.currentOffset) (n : Int) :
    s.transfer (i : Int) f n = .ok (s.moved i f (wrap32 (f.currentOffset + n))) := by
  rw [transfer, if_neg (by omega), setEntry_fin]
  rfl

variable (h2 : 2 ≤ (i : ℕ))

include h2

theorem sysRead_eq (hi : s.table i = some f) (n : Int) : s.sysRead (i : Int) n =
    s.transfer (i : Int) f n >>= fun s₁ => .ok (if n ≤ 0 then -1 else n, s₁) := by
  have hlt := fin_lt i
  rw [sysRead, if_neg (by omega), getFileDescriptorByID_fin, hi, ok_bind,
    if_neg (Option.some_ne_none f),
    if_neg (by omega), if_neg (by omega), read, if_neg (by omega), entry_fin, hi]
  rfl

theorem sysWrite_eq (hi : s.table i = some f) (size n : Int) : s.sysWrite size (i : Int) n =
    if f.fileType = 1 then .ok (-1, s) else s.write size (i : Int) n := by
  have hlt := fin_lt i
  rw [sysWrite, if_neg (by omega), getFileDescriptorByID_fin, hi, ok_bind,
    if_neg (Option.some_ne_none f), if_neg (by omega), if_neg (by omega)]
  rfl

theorem write_eq (hi : s.table i = some f) (size n : Int) : s.write size (i : Int) n =
    if n = size then
      s.transfer (i : Int) f n >>= fun s₁ => .ok (if n ≤ 0 then -1 else n, s₁)
    else .error .hostFailed := by
  have hlt := fin_lt i
  rw [write, if_neg (by omega), entry_fin, hi, ok_bind]
  simp only
  rw [if_neg (by omega)]
  rfl

theorem sysSeek_eq (hi : s.table i = some f) (pos len₁ len₂ : Int) :
    s.sysSeek pos (i : Int) len₁ len₂ =
      if (pos = -1 ∧ len₁ < 0) ∨ (pos ≥ -1 ∧ len₂ < 0) then .error .hostFailed
      else
        let target := if pos = -1 then len₁ else pos
        if target < -1 ∨ target > len₂ then .ok (-1, s)
        else .ok (target, s.moved i f target) := by
  have hlt := fin_lt i
  rw [sysSeek, if_neg (by omega), if_neg (by omega), getFileDescriptorByID_fin, hi, ok_bind,
    if_neg (Option.some_ne_none f), seek, if_neg (by omega), entry_fin, hi]
  simp only [ok_bind, setEntry_fin, pure_eq_ok]
  rfl

end Files

/-- An id is one of a file behind the console, or `Read`, `Write` and `Seek` change nothing. -/
theorem file_or_untouched (s : FileSystem) (id : Int) :
    (∃ (i : Fin maxFile) (f : OpenFile), (i : Int) = id ∧ 2 ≤ (i : ℕ) ∧ s.table i = some f) ∨
      s.Untouched id := by
  by_cases hid : s.NamesFile id
  · obtain ⟨i, rfl, hi⟩ := hid
    obtain ⟨f, hi⟩ := Option.ne_none_iff_exists'.mp hi
    by_cases h2 : 2 ≤ (i : ℕ)
    · exact .inl ⟨i, f, rfl, h2, hi⟩
    · exact .inr (untouched_of_console (by omega) hi)
  · exact .inr (untouched_of_unnamed hid)

/-- A call is safe that leaves the table or uses an entry behind the console. -/
theorem safe_of_file {c : FsCall} {id : Int} (huntouched : s.Untouched id → s.Leaves id (s.call c))
    (hfile : ∀ (i : Fin maxFile) f, (i : Int) = id → 2 ≤ (i : ℕ) → s.table i = some f →
      NoMemFault (s.call c)) : s.Safe c id := by
  rcases s.file_or_untouched id with ⟨i, f, rfl, h2, hi⟩ | h
  · exact ⟨hfile i f rfl h2 hi, fun hn => absurd ⟨i, rfl, by simp [hi]⟩ hn⟩
  · obtain ⟨r, hr, hunnamed⟩ := huntouched h
    exact ⟨hr ▸ noMemFault_ok _, fun hn _ => ⟨s, hunnamed hn ▸ hr⟩⟩

theorem noMemFault_transfer_bind (s : FileSystem) (i : Fin maxFile) (f : OpenFile) (n r : Int) :
    NoMemFault (s.transfer (i : Int) f n >>= fun s₁ => (.ok (r, s₁) : Except Fault _)) :=
  NoMemFault.bind (noMemFault_transfer s i f n) fun _ _ => noMemFault_ok _

theorem safe_read (s : FileSystem) (id n : Int) : s.Safe (.read id n) id := by
  refine safe_of_file (·.read n) ?_
  rintro i f rfl h2 hi
  rw [call, sysRead_eq h2 hi]
  exact noMemFault_transfer_bind s i f n _

theorem safe_write (s : FileSystem) (size id n : Int) : s.Safe (.write size id n) id := by
  refine safe_of_file (·.write size n) ?_
  rintro i f rfl h2 hi
  rw [call, sysWrite_eq h2 hi, write_eq h2 hi]
  split
  · exact noMemFault_ok _
  · split
    · exact noMemFault_transfer_bind s i f n _
    · exact noMemFault_hostFailed

theorem safe_seek (s : FileSystem) (pos id len₁ len₂ : Int) :
    s.Safe (.seek pos id len₁ len₂) id := by
  refine safe_of_file (·.seek pos len₁ len₂) ?_
  rintro i f rfl h2 hi
  rw [call, sysSeek_eq h2 hi]
  split
  · exact noMemFault_hostFailed
  · dsimp only
    generalize (if pos = -1 then len₁ else pos) = target
    split <;> exact noMemFault_ok _

/-- A message loop ends at the first entry that is `NULL` or the socket. -/
theorem messageFrom_eq (s : FileSystem) (id length : Int) (result : ℕ → Int)
    (l : List (Fin maxFile)) :
    s.messageFrom id length result (l.map Fin.val) =
      match l.find? fun i => (s.table i).all fun f =>
        f.isSocket = true ∧ f.socketId = id ∧ result i ≤ length with
      | none => .ok (-1)
      | some i => (member (s.table i)).map fun _ => result i := by
  induction l with
  | nil => rfl
  | cons i rest ih =>
    simp only [List.map_cons, messageFrom, entry_fin, ok_bind]
    cases hi : s.table i with
    | none => simp [hi, member, error_bind, Except.map]
    | some f =>
      by_cases hf : f.isSocket = true ∧ f.socketId = id ∧ result i ≤ length
      · simp [hi, hf, member, Except.map]
      · simp only [member, ok_bind, if_neg hf, ih]
        rw [List.find?_cons_of_neg (by simp [hi, hf])]

/-- A message loop over the whole table returns exactly if it does not meet `NULL` first, and
otherwise follows the pointer. If no entry is the socket, it returns `-1`. -/
theorem message_spec (s : FileSystem) (id length : Int) (result : ℕ → Int) :
    (s.FoundFirst id length result ∧ ∃ r, s.messageFrom id length result (List.range 20) = .ok r ∧
      (¬ s.NamesSocket id → r = -1)) ∨
    (¬ s.FoundFirst id length result ∧
      s.messageFrom id length result (List.range 20) = .error .nullEntry) := by
  rw [map_finRange, messageFrom_eq, ← Fin.find?_eq_find?_finRange]
  cases hfind : Fin.find? fun i => (s.table i).all fun f =>
      f.isSocket = true ∧ f.socketId = id ∧ result i ≤ length with
  | none =>
    refine .inl ⟨fun j hj => ?_, -1, rfl, fun _ => rfl⟩
    have hno := Fin.find?_eq_none_iff.mp hfind j
    simp [hj] at hno
  | some i =>
    obtain ⟨hi, hbefore⟩ := Fin.find?_eq_some_iff.mp hfind
    cases hfile : s.table i with
    | none =>
      refine .inr ⟨fun hfound => ?_, by simp only [hfile]; rfl⟩
      obtain ⟨j, f, hlt, hj, hf⟩ := hfound i hfile
      have hno := hbefore j hlt
      simp [hj, hf] at hno
    | some f =>
      simp only [hfile, Option.all_some, decide_eq_true_eq] at hi
      refine .inl ⟨fun j hj => ⟨i, f, ?_, hfile, hi⟩, result i, by simp only [hfile]; rfl,
        fun hn => absurd ⟨i, f, hfile, hi.1, hi.2.1⟩ hn⟩
      by_contra hge
      rcases lt_or_eq_of_le (not_lt.mp hge) with hlt | rfl
      · have hno := hbefore j hlt
        simp [hj] at hno
      · cases hj.symm.trans hfile

/-- `Send` and `Receive` are their loop. -/
theorem safe_message {c : FsCall} {id length : Int} {result : ℕ → Int}
    (hc : s.call c = s.messageFrom id length result (List.range 20) >>= fun r => .ok (r, s)) :
    s.Safe c id ↔ s.FoundFirst id length result := by
  rcases s.message_spec id length result with ⟨hfound, r, heq, hnone⟩ | ⟨hfound, heq⟩ <;>
    rw [heq] at hc
  · exact iff_of_true ⟨hc ▸ noMemFault_ok _, fun _ hn => ⟨s, hnone hn ▸ hc⟩⟩ hfound
  · exact iff_of_false (fun h => h.noMemFault.2 hc) hfound

end FileSystem

/-- **Descriptor-table safety.** A call with a file id or a socket id stays in the table, follows
no `NULL` pointer from it and returns `-1` for an id that names nothing, exactly when it is
not `Close(MAX_FILE)` and not a `Send` or `Receive` that meets an empty entry before it has
found its socket. -/
theorem descriptor_call_safe_iff (s : FileSystem) (c : FsCall) (id : Int)
    (h : c.descriptor = some id) : s.Safe c id ↔ s.Allowed c := by
  cases c <;> cases h
  case close => exact s.safe_close id
  case read n => exact iff_of_true (s.safe_read id n) trivial
  case write size n => exact iff_of_true (s.safe_write size id n) trivial
  case seek pos len₁ len₂ => exact iff_of_true (s.safe_seek pos id len₁ len₂) trivial
  case send length result => exact FileSystem.safe_message rfl
  case receive length result => exact FileSystem.safe_message rfl

/-! ### The life of the table -/

namespace FileSystem

/-- `FileSystem::FileSystem`, with the host's answers to its four `open`s. -/
def new (hostOpen : Finset ℕ) (input output inputFile outputFile : Option ℕ) :
    Except Fault FileSystem := do
  let (_, s₁) ← (⟨fun _ => none, hostOpen⟩ : FileSystem).create input
  let (_, s₂) ← s₁.create output
  let (f, s₃) ← s₂.openMode 0 inputFile
  let s₄ ← s₃.setEntry 0 f
  let (g, s₅) ← s₄.openMode 1 outputFile
  s₅.setEntry 1 g

end FileSystem

/-- What can happen next: a system call, or another part of the kernel opens or closes a
descriptor of its own. -/
inductive FsAction where
  | call (c : FsCall)
  | hostOpen (fd : ℕ)
  | hostClose (fd : ℕ)

/-- The host descriptors that an entry stands for: the file, and the socket. -/
def OpenFile.descriptors (f : OpenFile) : List ℕ :=
  f.file :: if f.isSocket then [(f.socketId - plusSocketId).toNat] else []

namespace FileSystem

/-- The host descriptor belongs to an entry of the table. -/
def Owns (s : FileSystem) (fd : ℕ) : Prop := ∃ i f, s.table i = some f ∧ fd ∈ f.descriptors

instance (s : FileSystem) (fd : ℕ) : Decidable (s.Owns fd) :=
  decidable_of_iff (∃ i, ∃ f ∈ s.table i, fd ∈ f.descriptors) (by simp [Owns])

/-- One action. -/
def next (s : FileSystem) : FsAction → Outcome FileSystem
  | .call c =>
    match s.call c with
    | .ok (_, s') => .next s'
    | .error .notPosix => .disabled
    | .error _ => .fault
  | .hostOpen fd =>
    if fd ∉ s.hostOpen then .next { s with hostOpen := insert fd s.hostOpen } else .disabled
  | .hostClose fd =>
    if ¬ s.Owns fd then .next { s with hostOpen := s.hostOpen.erase fd } else .disabled

end FileSystem

/-- Any sequence of system calls on the table. -/
def stubSystem : LTS FileSystem FsAction where
  init := fun s => ∃ hostOpen a b c d, FileSystem.new hostOpen a b c d = .ok s
  next := FileSystem.next

namespace FileSystem

/-- The table after the start, on a host where `0`, `1` and `2` were open. -/
def started : FileSystem :=
  ⟨fun i => if (i : ℕ) = 0 then some ⟨-1, 5, 0, 0⟩ else if (i : ℕ) = 1 then some ⟨-1, 6, 0, 1⟩
  else none,
    {0, 1, 2, 3, 4, 5, 6}⟩

theorem init_started : stubSystem.init started := by
  refine ⟨{0, 1, 2}, some 3, some 4, some 5, some 6, ?_⟩
  have hnew : ∃ s, FileSystem.new {0, 1, 2} (some 3) (some 4) (some 5) (some 6) = .ok s ∧
      (∀ i, s.table i = started.table i) ∧ s.hostOpen = started.hostOpen :=
    ⟨_, rfl, by decide, by decide⟩
  obtain ⟨⟨table, hostOpen⟩, hs, htable, rfl⟩ := hnew
  rw [hs]
  congr 2
  exact funext htable

theorem reachable_started : stubSystem.Reachable started := .init init_started

end FileSystem

/-- `Close(20)` is not safe on the table after the start, `Close(19)` is. -/
theorem descriptor_call_safe_iff_close :
    ¬ FileSystem.started.Safe (.close 20) 20 ∧ FileSystem.started.Safe (.close 19) 19 :=
  ⟨fun h => (descriptor_call_safe_iff _ _ _ rfl).mp h rfl,
    (descriptor_call_safe_iff _ (.close 19) _ rfl).mpr (by decide : (19 : Int) ≠ maxFile)⟩

/-- Right after the start, `Close(20)` reads behind the table, and `Send` and `Receive` follow a
`NULL` pointer. -/
theorem descriptor_call_unsafe : ∃ s, stubSystem.Reachable s ∧
    s.call (.close 20) = .error .badIndex ∧
    s.call (.send 107 4 fun _ => 4) = .error .nullEntry ∧
    s.call (.receive 107 4 fun _ => 4) = .error .nullEntry :=
  ⟨.started, FileSystem.reachable_started, rfl, rfl, rfl⟩

namespace FileSystem

/-- What an entry stands for is open on the host, and belongs to no other entry. -/
structure Inv (s : FileSystem) : Prop where
  isOpen : ∀ i f, s.table i = some f → ∀ k ∈ f.descriptors, k ∈ s.hostOpen
  nodup : ∀ i f, s.table i = some f → f.descriptors.Nodup
  disjoint : ∀ i j f g, i ≠ j → s.table i = some f → s.table j = some g →
    f.descriptors.Disjoint g.descriptors

variable {s s' : FileSystem}

theorem Inv.not_owns (h : s.Inv) {fd : ℕ} (hfd : fd ∉ s.hostOpen) : ¬ s.Owns fd := by
  rintro ⟨i, f, hi, hm⟩
  exact hfd (h.isOpen i f hi fd hm)

/-- The host opens descriptors and closes some that nobody owns. -/
theorem Inv.setHost (h : s.Inv) {hostOpen : Finset ℕ}
    (hh : ∀ k, s.Owns k → k ∈ hostOpen) : ({ s with hostOpen := hostOpen } : FileSystem).Inv :=
  ⟨fun i f hi k hk => hh k ⟨i, f, hi, hk⟩, h.nodup, h.disjoint⟩

/-- The host opens one more descriptor. -/
theorem Inv.hostOpen (h : s.Inv) (fd : ℕ) :
    ({ s with hostOpen := insert fd s.hostOpen } : FileSystem).Inv :=
  h.setHost fun k ⟨i, f, hi, hk⟩ => Finset.mem_insert_of_mem (h.isOpen i f hi k hk)

/-- An entry is cleared; what it owned may be closed. -/
theorem Inv.clear (h : s.Inv) {i : Fin maxFile} {f : OpenFile} (hi : s.table i = some f)
    {hostOpen : Finset ℕ} (hh : ∀ k ∈ s.hostOpen, k ∉ f.descriptors → k ∈ hostOpen) :
    (⟨update s.table i none, hostOpen⟩ : FileSystem).Inv := by
  have hother : ∀ {j g}, update s.table i none j = some g → j ≠ i ∧ s.table j = some g := by
    intro j g hj
    obtain ⟨-, hnone⟩ | hold := update_eq_cases hj
    · cases hnone
    · exact hold
  refine ⟨fun j g hj k hk => ?_, fun j g hj => ?_, fun j j' g g' hne hj hj' => ?_⟩
  · obtain ⟨hji, hj⟩ := hother hj
    exact hh k (h.isOpen j g hj k hk) fun hkf => h.disjoint j i g f hji hj hi hk hkf
  · exact h.nodup j g (hother hj).2
  · exact h.disjoint j j' g g' hne (hother hj).2 (hother hj').2

/-- An entry is set to a file whose descriptors are open and belong to no other entry. -/
theorem Inv.put (h : s.Inv) {i : Fin maxFile} {f : OpenFile}
    (hopen : ∀ k ∈ f.descriptors, k ∈ s.hostOpen) (hnd : f.descriptors.Nodup)
    (hdis : ∀ j g, j ≠ i → s.table j = some g → f.descriptors.Disjoint g.descriptors) :
    ({ s with table := update s.table i (some f) } : FileSystem).Inv := by
  refine ⟨fun j g hj => ?_, fun j g hj => ?_, fun j j' g g' hne hj hj' => ?_⟩
  · obtain ⟨-, hf⟩ | ⟨-, hj⟩ := update_eq_cases hj
    · cases hf
      exact hopen
    · exact h.isOpen j g hj
  · obtain ⟨-, hf⟩ | ⟨-, hj⟩ := update_eq_cases hj
    · cases hf
      exact hnd
    · exact h.nodup j g hj
  · obtain ⟨rfl, hf⟩ | ⟨hji, hj⟩ := update_eq_cases hj
    · cases hf
      obtain ⟨rfl, -⟩ | ⟨hji', hj'⟩ := update_eq_cases hj'
      · exact (hne rfl).elim
      · exact hdis j' g' hji' hj'
    · obtain ⟨-, hf⟩ | ⟨-, hj'⟩ := update_eq_cases hj'
      · cases hf
        exact (hdis j g hji hj).symm
      · exact h.disjoint j j' g g' hne hj hj'

/-- A change of the offset does not change what an entry stands for. -/
theorem Inv.setOffset (h : s.Inv) {i : Fin maxFile} {f : OpenFile} (hi : s.table i = some f)
    (offset : Int) : ({ s with
      table := update s.table i (some { f with currentOffset := offset }) } :
        FileSystem).Inv :=
  h.put (f := { f with currentOffset := offset }) (h.isOpen i f hi) (h.nodup i f hi)
    fun j g hj hg => h.disjoint i j f g (Ne.symm hj) hi hg

/-! ### What the calls do -/

/-- `delete` on an entry closes its file. -/
theorem Inv.deleteEntry_eq (h : s.Inv) {i : Fin maxFile} {f : OpenFile} (hi : s.table i = some f) :
    s.deleteEntry (i : Int) f =
      .ok ⟨update s.table i none, s.hostOpen.erase f.file⟩ := by
  rw [deleteEntry, if_pos (h.isOpen i f hi f.file (by simp [OpenFile.descriptors])), setEntry_fin]

/-- `Create` after a successful `open`: the descriptor number is taken for a file id. -/
theorem Inv.create_eq (h : s.Inv) {fd : ℕ} (hfd : fd ∉ s.hostOpen) :
    (∃ (i : Fin maxFile) (f : OpenFile), (i : ℕ) = fd ∧ 2 ≤ fd ∧ s.table i = some f ∧
      s.create (some fd) =
        .ok (true, ⟨update s.table i none, (insert fd s.hostOpen).erase f.file⟩)) ∨
    ((∀ i : Fin maxFile, (i : ℕ) = fd → 2 ≤ fd → s.table i = none) ∧
      s.create (some fd) = .ok (true, { s with hostOpen := insert fd s.hostOpen })) := by
  have hopen : s.hostDescriptor (some fd) = .ok { s with hostOpen := insert fd s.hostOpen } :=
    if_neg hfd
  have h₁ := h.hostOpen fd
  simp only [create, hopen, ok_bind, close]
  by_cases hrange : (fd : Int) < 2 ∨ (fd : Int) ≥ maxFile
  · refine .inr ⟨fun i hi h2 => ?_, ?_⟩
    · have := i.isLt
      omega
    · rw [if_pos hrange]; rfl
  · obtain ⟨i, hi⟩ := exists_fin (show ¬ ((fd : Int) < 0 ∨ (fd : Int) ≥ maxFile) by omega)
    have hi' : (i : ℕ) = fd := by exact_mod_cast hi
    rw [if_neg hrange, ← hi, entry_fin, ok_bind]
    cases ht : s.table i with
    | none =>
      refine .inr ⟨fun j hj _ => ?_, rfl⟩
      rw [Fin.ext (hj.trans hi'.symm)]
      exact ht
    | some f =>
      refine .inl ⟨i, f, hi', by omega, ht, ?_⟩
      simp only [h₁.deleteEntry_eq ht, ok_bind, pure_eq_ok]

/-- The descriptor is open and belongs to no entry. -/
def Spare (s : FileSystem) (k : ℕ) : Prop := k ∈ s.hostOpen ∧ ¬ s.Owns k

/-- What `Open` does to the host. -/
def HostOpened (s : FileSystem) (mode : Int) (r : Option OpenFile × FileSystem) : Prop :=
  r = (none, s) ∨ ∃ fd, fd ∉ s.hostOpen ∧
    r = (some ⟨-1, fd, 0, mode⟩, { s with hostOpen := insert fd s.hostOpen })

theorem post_openMode (s : FileSystem) {mode : Int} (hmode : mode = 0 ∨ mode = 1)
    (answer : Option ℕ) : Post (s.HostOpened mode) (s.openMode mode answer) := by
  rw [openMode, if_pos hmode]
  cases answer with
  | none => exact post_ok.mpr (.inl rfl)
  | some fd =>
    by_cases hfd : fd ∈ s.hostOpen
    · simp [hostDescriptor, hfd]
    · simp only [hostDescriptor, hfd, if_false, ok_bind, pure_eq_ok, Option.map_some, post_ok]
      exact .inr ⟨fd, hfd, rfl⟩

/-- A file that is opened goes into the table. -/
theorem Inv.openEntry (h : s.Inv) {i : Fin maxFile} {mode : Int} {fd : ℕ}
    (hfd : fd ∉ s.hostOpen) :
    (⟨update s.table i (some ⟨-1, fd, 0, mode⟩), insert fd s.hostOpen⟩ :
      FileSystem).Inv := by
  refine (h.hostOpen fd).put ?_ ?_ ?_
  · simp [OpenFile.descriptors, OpenFile.isSocket]
  · simp [OpenFile.descriptors, OpenFile.isSocket]
  · intro j g _ hg k hk hkg
    obtain rfl : k = fd := by simpa [OpenFile.descriptors, OpenFile.isSocket] using hk
    exact h.not_owns hfd ⟨j, g, hg, hkg⟩

/-- What `Open` has returned goes into the table. -/
theorem Inv.opened (h : s.Inv) (i : Fin maxFile) {mode : Int} {r : Option OpenFile × FileSystem}
    (hr : s.HostOpened mode r) :
    ({ r.2 with table := update r.2.table i r.1 } : FileSystem).Inv := by
  rcases hr with rfl | ⟨fd, hfd, rfl⟩
  · cases hi : s.table i with
    | none =>
      have hsame : update s.table i none = s.table := by
        rw [← hi, update_eq_self]
      rw [hsame]
      exact h
    | some f => exact h.clear hi fun k hk _ => hk
  · exact h.openEntry hfd

/-- An entry that has been read is in the table. -/
theorem post_entry (s : FileSystem) (id : Int) :
    Post (fun o => ∃ i : Fin maxFile, (i : Int) = id ∧ s.table i = o) (s.entry id) := by
  unfold entry
  split
  · rename_i hrange
    exact post_ok.mpr ⟨⟨id.toNat, hrange.2⟩, Int.toNat_of_nonneg hrange.1, rfl⟩
  · exact post_error

/-- A call that reads an entry goes on with one of the table. -/
theorem post_entry_bind {β : Type} {Q : β → Prop} {id : Int} {g : Option OpenFile → Except Fault β}
    (hnone : Post Q (g none))
    (hsome : ∀ (i : Fin maxFile) f, (i : Int) = id → s.table i = some f → Post Q (g (some f))) :
    Post Q (s.entry id >>= g) := by
  refine (s.post_entry id).bind fun o ho => ?_
  obtain ⟨i, hid, hi⟩ := ho
  cases o with
  | none => exact hnone
  | some f => exact hsome i f hid hi

/-- The search for a slot: a free one, or `-1` if there is none. -/
theorem emptySlotFrom_spec (s : FileSystem) (l : List (Fin maxFile)) :
    (∃ i ∈ l, s.table i = none ∧ s.emptySlotFrom (l.map Fin.val) = .ok (i : Int)) ∨
    ((∀ i ∈ l, s.table i ≠ none) ∧ s.emptySlotFrom (l.map Fin.val) = .ok (-1)) := by
  induction l with
  | nil => exact .inr ⟨nofun, rfl⟩
  | cons i rest ih =>
    simp only [List.map_cons, emptySlotFrom, entry_fin, ok_bind]
    cases hi : s.table i with
    | none => exact .inl ⟨i, List.mem_cons_self, hi, rfl⟩
    | some f =>
      rcases ih with ⟨j, hj, hnone, heq⟩ | ⟨hfull, heq⟩
      · exact .inl ⟨j, List.mem_cons_of_mem i hj, hnone, heq⟩
      · exact .inr ⟨List.forall_mem_cons.mpr ⟨by simp [hi], hfull⟩, heq⟩

theorem getFileDescriptorEmptySlot_spec (s : FileSystem) :
    (∃ i : Fin maxFile, 2 ≤ (i : ℕ) ∧ s.table i = none ∧
      s.getFileDescriptorEmptySlot = .ok (i : Int)) ∨
    ((∀ i : Fin maxFile, 2 ≤ (i : ℕ) → s.table i ≠ none) ∧ s.getFileDescriptorEmptySlot =
      .ok (-1)) := by
  rw [getFileDescriptorEmptySlot, map_behind]
  simpa only [mem_behind] using s.emptySlotFrom_spec behind

theorem post_getFileDescriptorEmptySlot (s : FileSystem) :
    Post (fun r => r = -1 ∨ ∃ i : Fin maxFile, (i : Int) = r ∧ 2 ≤ (i : ℕ) ∧ s.table i = none)
      s.getFileDescriptorEmptySlot := by
  rcases s.getFileDescriptorEmptySlot_spec with ⟨i, h2, hi, heq⟩ | ⟨-, heq⟩
  · rw [heq]
    exact post_ok.mpr (.inr ⟨i, rfl, h2, hi⟩)
  · rw [heq]
    exact post_ok.mpr (.inl rfl)

/-- The lookup by name: an entry with the name, or `-1` if there is none. -/
theorem findName_spec (s : FileSystem) (same : ℕ → Bool) (l : List (Fin maxFile)) :
    (∃ i f, s.table i = some f ∧ same i = true ∧ s.findName same (l.map Fin.val) = .ok (i : Int)) ∨
    ((∀ i ∈ l, ∀ f, s.table i = some f → same i = false) ∧
      s.findName same (l.map Fin.val) = .ok (-1)) := by
  induction l with
  | nil => exact .inr ⟨nofun, rfl⟩
  | cons i rest ih =>
    simp only [List.map_cons, findName, entry_fin, ok_bind, List.forall_mem_cons]
    cases hi : s.table i with
    | none => exact ih.imp_right fun ⟨hrest, heq⟩ => ⟨⟨nofun, hrest⟩, heq⟩
    | some f =>
      cases hsame : same i with
      | true => exact .inl ⟨i, f, hi, hsame, rfl⟩
      | false => exact ih.imp_right fun ⟨hrest, heq⟩ => ⟨⟨fun _ _ => rfl, hrest⟩, heq⟩

theorem getFileDescriptorID_spec (s : FileSystem) (same : ℕ → Bool) :
    (∃ (i : Fin maxFile) (f : OpenFile), s.table i = some f ∧ same i = true ∧
      s.getFileDescriptorID same = .ok (i : Int)) ∨
    ((∀ (i : Fin maxFile) (f : OpenFile), s.table i = some f → same i = false) ∧
      s.getFileDescriptorID same = .ok (-1)) := by
  rw [getFileDescriptorID, show List.range maxFile = _ from map_finRange]
  simpa only [List.mem_finRange, forall_const] using s.findName_spec same (List.finRange maxFile)

/-- The three results of `Open`: it is refused, it finds the name in the table, or it fills a free
entry. -/
theorem post_sysOpen {Q : Int × FileSystem → Prop} (fileName : String) {type : Int}
    (htype : type = 0 ∨ type = 1) {same : ℕ → Bool} (answer : Option ℕ) (hrefused : Q (-1, s))
    (hfound : ∀ (i : Fin maxFile) f, s.table i = some f → same i = true → Q ((i : Int), s))
    (hadded : (∀ j f, s.table j = some f → same j = false) → ∀ (i : Fin maxFile) fd, 2 ≤ (i : ℕ) →
      s.table i = none → fd ∉ s.hostOpen → Q ((i : Int),
        ⟨update s.table i (some ⟨-1, fd, 0, type⟩), insert fd s.hostOpen⟩)) :
    Post Q (s.sysOpen fileName type same answer) := by
  refine Post.guard hrefused fun _ => ?_
  rcases s.getFileDescriptorID_spec same with ⟨i, f, hi, hsame, heq⟩ | ⟨hno, heq⟩
  · rw [heq, ok_bind]
    exact Post.guard (hfound i f hi hsame) fun hne => absurd (show (i : Int) ≠ -1 by omega) hne
  · rw [heq, ok_bind]
    refine Post.ite (fun hne => absurd rfl hne) fun _ => ?_
    refine s.post_getFileDescriptorEmptySlot.bind fun slot hslot => ?_
    refine Post.guard hrefused fun hne => ?_
    obtain ⟨i, rfl, h2, hi⟩ := hslot.resolve_left hne
    simp only [addToFileDescriptorTable, entry_fin, ok_bind, hi]
    refine Post.bind (P := fun r => Q (if r.1.isSome then (i : Int) else -1, r.2)) ?_
      fun r hr => post_ok.mpr hr
    refine (s.post_openMode htype answer).bind fun r hr => ?_
    simp only [setEntry_fin, ok_bind, pure_eq_ok, post_ok]
    rcases hr with rfl | ⟨fd, hfd, rfl⟩
    · show Q (-1, ⟨update s.table i none, s.hostOpen⟩)
      rw [← hi, update_eq_self]
      exact hrefused
    · exact hadded hno i fd h2 hi hfd

/-- Nothing has been closed, or one of the entries that `p` allows has been deleted, with what it
stands for. -/
inductive Clears (p : Fin maxFile → Prop) (s : FileSystem) : FileSystem → Prop where
  | kept {hostOpen : Finset ℕ} : s.hostOpen ⊆ hostOpen → Clears p s { s with hostOpen := hostOpen }
  | cleared {i : Fin maxFile} {f : OpenFile} {hostOpen : Finset ℕ} : p i → s.table i = some f →
      (∀ k ∈ s.hostOpen, k ∉ f.descriptors → k ∈ hostOpen) →
      Clears p s ⟨update s.table i none, hostOpen⟩

variable {p : Fin maxFile → Prop} {i : Fin maxFile} {f : OpenFile} {hostOpen : Finset ℕ}

theorem Clears.refl (s : FileSystem) : s.Clears p s := .kept subset_rfl

theorem Clears.mono {q : Fin maxFile → Prop} (h : s.Clears p s') (hpq : ∀ i, p i → q i) :
    s.Clears q s' := by
  cases h with
  | kept hh => exact .kept hh
  | cleared hp hi hh => exact .cleared (hpq _ hp) hi hh

theorem clears_deleteEntry (hp : p i) (hi : s.table i = some f)
    (hh : ∀ k ∈ s.hostOpen, k ∉ f.descriptors → k ∈ hostOpen) :
    Post (s.Clears p) (({ s with hostOpen := hostOpen } : FileSystem).deleteEntry (i : Int) f) := by
  refine Post.ite (fun _ => ?_) fun _ => post_error
  rw [setEntry_fin, post_ok]
  refine .cleared hp hi fun k hk hkf => Finset.mem_erase.mpr ⟨?_, hh k hk hkf⟩
  rintro rfl
  exact hkf (by simp [OpenFile.descriptors])

theorem clears_close (hh : s.hostOpen ⊆ hostOpen) (fileId : Int) :
    Post (fun r => s.Clears (2 ≤ ·.val) r.2)
    (({ s with hostOpen := hostOpen } : FileSystem).close fileId) := by
  refine Post.guard (.kept hh) fun hid => ?_
  refine post_entry_bind (post_ok.mpr (.kept hh)) ?_
  rintro i f rfl hi
  have h2 : 2 ≤ (i : ℕ) := by omega
  exact (clears_deleteEntry (s := s) h2 hi fun k hk _ => hh hk).bind fun s₁ h₁ => post_ok.mpr h₁

theorem clears_create (s : FileSystem) (answer : Option ℕ) :
    Post (fun r => s.Clears (2 ≤ ·.val) r.2) (s.create answer) := by
  cases answer with
  | none => exact post_error
  | some fd =>
    refine Post.bind (P := (· = { s with hostOpen := insert fd s.hostOpen })) ?_ ?_
    · exact Post.ite (fun _ => post_error) fun _ => post_ok.mpr rfl
    · rintro _ rfl
      exact (clears_close (Finset.subset_insert fd _) fd).bind fun r hr => post_ok.mpr hr

/-- The loop that closes a socket closes both descriptors of one entry. -/
theorem clears_removeSocketFrom (s : FileSystem) (id : Int) {l : List (Fin maxFile)}
    (hl : ∀ i ∈ l, p i) :
    Post (fun r => s.Clears p r.2) (s.removeSocketFrom id (l.map Fin.val)) := by
  rcases s.removeSocketFrom_cases id l with ⟨i, hil, f, hi, hf, heq⟩ | heq <;> rw [heq]
  · refine (clears_deleteEntry (hl i hil) hi fun k hk hkf => ?_).bind fun s₁ h₁ => post_ok.mpr h₁
    simp only [OpenFile.descriptors, hf.1, if_true, hf.2, List.mem_cons, List.not_mem_nil,
      or_false, not_or] at hkf
    exact Finset.mem_erase.mpr ⟨hkf.2, hk⟩
  · exact post_ok.mpr (.refl s)

/-- `SysClose` does not refuse the ids of the console. -/
theorem clears_sysClose (s : FileSystem) (id : Int) :
    Post (fun r => s.Clears (fun i => 2 ≤ (i : ℕ) ∨ (i : Int) = id) r.2) (s.sysClose id) := by
  refine Post.bind ?_ fun r hr => post_ok.mpr hr
  refine Post.ite (fun _ => ?_) fun _ => ?_
  · rw [map_behind]
    exact s.clears_removeSocketFrom id fun i hi => .inl (mem_behind.mp hi)
  · refine post_entry_bind (post_ok.mpr (.refl s)) ?_
    rintro i f rfl hi
    exact (clears_deleteEntry (.inr rfl) hi fun k hk _ => hk).bind fun s₁ h₁ => post_ok.mpr h₁

/-- **What a call does.** It deletes an entry, moves the offset of a file behind the console, or
fills a free entry there with a file or a socket. -/
inductive Effect (c : FsCall) (s : FileSystem) : FileSystem → Prop where
  | clears {s' : FileSystem} : s.Clears (fun i => 2 ≤ (i : ℕ) ∨ c = .close (i : Int)) s' →
    Effect c s s'
  | moved {i : Fin maxFile} {f : OpenFile} (offset : Int) : c.moves = true → 2 ≤ (i : ℕ) →
    s.table i = some f →
      Effect c s (s.moved i f offset)
  | added {i : Fin maxFile} {fd : ℕ} {mode : Int} : 2 ≤ (i : ℕ) → s.table i = none →
    fd ∉ s.hostOpen →
      Effect c s ⟨update s.table i (some ⟨-1, fd, 0, mode⟩), insert fd s.hostOpen⟩
  | socket {i : Fin maxFile} {socket fd : ℕ} {s₁ : FileSystem} : 2 ≤ (i : ℕ) → s.table i = none →
      socket ∉ s.hostOpen → Clears (2 ≤ ·.val) { s with hostOpen := insert socket s.hostOpen } s₁ →
      fd ∉ s₁.hostOpen → Effect c s
        ⟨update s₁.table i (some ⟨socket + plusSocketId, fd, 0, 1⟩), insert fd s₁.hostOpen⟩

variable {c : FsCall}

theorem Effect.refl (s : FileSystem) : s.Effect c s := .clears (.refl s)

theorem effect_transfer (hc : c.moves = true) (h2 : 2 ≤ (i : ℕ)) (hi : s.table i = some f)
    (n r : Int) :
    Post (fun r => s.Effect c r.2) (s.transfer (i : Int) f n >>= fun s₁ => .ok (r, s₁)) := by
  refine Post.bind (Post.ite (fun _ => post_error) fun _ => ?_) fun s₁ h₁ => post_ok.mpr h₁
  rw [setEntry_fin, post_ok]
  exact .moved _ hc h2 hi

theorem Leaves.effect {id : Int} {m : Except Fault (Int × FileSystem)} (h : s.Leaves id m) :
    Post (fun r => s.Effect c r.2) m := by
  obtain ⟨r, rfl, -⟩ := h
  exact post_ok.mpr (.refl s)

theorem effect_sysRead (s : FileSystem) (id n : Int) :
    Post (fun r => s.Effect (.read id n) r.2) (s.sysRead id n) := by
  rcases s.file_or_untouched id with ⟨i, f, rfl, h2, hi⟩ | h
  · rw [sysRead_eq h2 hi]
    exact effect_transfer rfl h2 hi n _
  · exact (h.read n).effect

theorem effect_sysWrite (s : FileSystem) (size id n : Int) :
    Post (fun r => s.Effect (.write size id n) r.2) (s.sysWrite size id n) := by
  rcases s.file_or_untouched id with ⟨i, f, rfl, h2, hi⟩ | h
  · rw [sysWrite_eq h2 hi, write_eq h2 hi]
    refine Post.guard (.refl s) fun _ => ?_
    exact Post.ite (fun _ => effect_transfer rfl h2 hi n _) fun _ => post_error
  · exact (h.write size n).effect

theorem effect_sysSeek (s : FileSystem) (pos id len₁ len₂ : Int) :
    Post (fun r => s.Effect (.seek pos id len₁ len₂) r.2) (s.sysSeek pos id len₁ len₂) := by
  rcases s.file_or_untouched id with ⟨i, f, rfl, h2, hi⟩ | h
  · rw [sysSeek_eq h2 hi]
    refine Post.ite (fun _ => post_error) fun _ => Post.guard (.refl s) fun _ => ?_
    exact post_ok.mpr (.moved _ rfl h2 hi)
  · exact (h.seek pos len₁ len₂).effect

theorem effect_openNewSocket (s : FileSystem) (socket created opened : Option ℕ) :
    Post (fun r => s.Effect c r.2) (s.openNewSocket socket created opened) := by
  refine s.post_getFileDescriptorEmptySlot.bind fun slot hslot => ?_
  refine Post.guard (.refl s) fun hne => ?_
  obtain ⟨i, rfl, h2, hi⟩ := hslot.resolve_left hne
  obtain _ | socket := socket
  · exact post_error
  by_cases hsock : socket ∈ s.hostOpen
  · simp [hostDescriptor, hsock]
  simp only [hostDescriptor, hsock, if_false, ok_bind]
  refine (clears_create _ created).bind fun r hr => ?_
  refine (r.2.post_openMode (.inr rfl) opened).bind fun r' hr' => ?_
  rcases hr' with rfl | ⟨fd, hfd, rfl⟩
  · simp [member, error_bind]
  · simp only [setEntry_fin, member, ok_bind, pure_eq_ok, post_ok, update_idem]
    exact .socket h2 hi hsock hr hfd

/-- **One call.** -/
theorem effect_call (s : FileSystem) (c : FsCall) : Post (fun r => s.Effect c r.2) (s.call c) := by
  cases c with
  | create fileName answer =>
    refine Post.guard (.refl s) fun _ => ?_
    exact (s.clears_create answer).bind fun r hr => post_ok.mpr (.clears (hr.mono fun _ => .inl))
  | remove fileName same unlinked =>
    refine Post.guard (.refl s) fun _ => ?_
    refine (post_true _).bind fun id _ => ?_
    exact Post.guard (.refl s) fun _ => post_ok.mpr (.refl s)
  | openFile fileName readOnly same answer =>
    refine post_sysOpen fileName (by cases readOnly <;> simp) answer (.refl s) ?_ ?_
    · exact fun i f _ _ => .refl s
    · exact fun _ i fd h2 hi hfd => .added h2 hi hfd
  | close id =>
    refine fun r hr => .clears ((s.clears_sysClose id r hr).mono fun i => Or.imp_right ?_)
    rintro rfl
    rfl
  | read id n => exact s.effect_sysRead id n
  | write size id n => exact s.effect_sysWrite size id n
  | seek pos id len₁ len₂ => exact s.effect_sysSeek pos id len₁ len₂
  | socketTCP socket created opened => exact s.effect_openNewSocket socket created opened
  | send id length result => exact (post_true _).bind fun _ _ => post_ok.mpr (.refl s)
  | receive id length result => exact (post_true _).bind fun _ _ => post_ok.mpr (.refl s)

theorem Inv.clears (h : s.Inv) (hs : s.Clears p s') : s'.Inv := by
  cases hs with
  | kept hh => exact h.setHost fun k ⟨i, f, hi, hk⟩ => hh (h.isOpen i f hi k hk)
  | cleared _ hi hh => exact h.clear hi hh

/-- Nothing is closed that belongs to no entry. -/
theorem Clears.spare (hs : s.Clears p s') {k : ℕ} (hk : s.Spare k) : s'.Spare k := by
  obtain ⟨hk, hno⟩ := hk
  cases hs with
  | kept hh => exact ⟨hh hk, hno⟩
  | @cleared i f _ _ hi hh =>
    refine ⟨hh k hk fun hkf => hno ⟨i, f, hi, hkf⟩, ?_⟩
    rintro ⟨j, g, hj, hkg⟩
    obtain ⟨-, hnone⟩ | ⟨-, hj⟩ := update_eq_cases hj
    · cases hnone
    · exact hno ⟨j, g, hj, hkg⟩

/-- A new entry for a socket and a file that are both open and belong to nobody yet. -/
theorem Inv.socketEntry (h : s.Inv) {i : Fin maxFile} {socket fd : ℕ} (hs : s.Spare socket)
    (hfd : fd ∉ s.hostOpen) :
    (⟨update s.table i (some ⟨socket + plusSocketId, fd, 0, 1⟩), insert fd s.hostOpen⟩ :
      FileSystem).Inv := by
  have hd : OpenFile.descriptors ⟨socket + plusSocketId, fd, 0, 1⟩ = [fd, socket] := by
    have hne : ((socket : Int) + plusSocketId ≠ -1) := by unfold plusSocketId; omega
    simp [OpenFile.descriptors, OpenFile.isSocket, hne]
  refine (h.hostOpen fd).put ?_ ?_ ?_ <;> rw [hd]
  · simp [hs.1]
  · have hne : fd ≠ socket := fun heq => hfd (heq ▸ hs.1)
    simp [hne]
  · intro j g _ hg k hk hkg
    rcases List.mem_pair.mp hk with rfl | rfl
    · exact h.not_owns hfd ⟨j, g, hg, hkg⟩
    · exact hs.2 ⟨j, g, hg, hkg⟩

theorem Inv.effect (h : s.Inv) (hs : s.Effect c s') : s'.Inv := by
  cases hs with
  | clears hs => exact h.clears hs
  | moved offset _ _ hi => exact h.setOffset hi offset
  | added _ _ hfd => exact h.openEntry hfd
  | socket _ _ hsock hs hfd =>
    have hspare : ({ s with hostOpen := insert _ s.hostOpen } : FileSystem).Spare _ :=
      ⟨Finset.mem_insert_self _ _, h.not_owns hsock⟩
    exact ((h.hostOpen _).clears hs).socketEntry (hs.spare hspare) hfd

/-- The constructor creates two files and then opens the console in the first two entries. -/
theorem post_new {I : FileSystem → Prop} (hostOpen : Finset ℕ) (a b c d : Option ℕ)
    (h₀ : I ⟨fun _ => none, hostOpen⟩)
    (hcreate : ∀ {s}, I s → ∀ answer, Post (fun r => I r.2) (s.create answer))
    (hopened : ∀ {s}, I s → ∀ i : Fin maxFile, (i : ℕ) < 2 → ∀ {mode r},
      s.HostOpened mode r → I { r.2 with table := update r.2.table i r.1 }) :
    Post I (FileSystem.new hostOpen a b c d) := by
  refine (hcreate h₀ a).bind fun r₁ h₁ => ?_
  refine (hcreate h₁ b).bind fun r₂ h₂ => ?_
  refine (r₂.2.post_openMode (.inl rfl) c).bind fun r₃ h₃ => ?_
  have hin : r₃.2.setEntry 0 r₃.1 = .ok _ := r₃.2.setEntry_fin ⟨0, by decide⟩ r₃.1
  simp only [hin, ok_bind]
  refine (post_openMode _ (.inr rfl) d).bind fun r₄ h₄ => ?_
  have hout : r₄.2.setEntry 1 r₄.1 = .ok _ := r₄.2.setEntry_fin ⟨1, by decide⟩ r₄.1
  simp only [hout, post_ok]
  exact hopened (hopened h₂ _ (by decide) h₃) _ (by decide) h₄

theorem Inv.new (hostOpen : Finset ℕ) (a b c d : Option ℕ) :
    Post Inv (FileSystem.new hostOpen a b c d) := by
  apply post_new
  · exact ⟨nofun, nofun, nofun⟩
  · exact fun h answer r hr => h.clears (clears_create _ answer r hr)
  · exact fun h i _ _ _ hr => h.opened i hr

/-- **What an action can do**: a call that returns, or the host opens or closes a descriptor that is
not one of the table. -/
theorem next_cases {a : FsAction} (hs : s.next a = .next s') :
    (∃ c r, a = .call c ∧ s.call c = .ok (r, s')) ∨
      (∃ fd, a = .hostOpen fd ∧ fd ∉ s.hostOpen ∧
      s' = { s with hostOpen := insert fd s.hostOpen }) ∨
      (∃ fd, a = .hostClose fd ∧ ¬ s.Owns fd ∧
      s' = { s with hostOpen := s.hostOpen.erase fd }) := by
  cases a with
  | call c =>
    simp only [FileSystem.next] at hs
    split at hs
    · rename_i r s₁ hc
      cases hs
      exact .inl ⟨c, r, rfl, hc⟩
    · cases hs
    · cases hs
  | hostOpen fd =>
    obtain ⟨hno, hs⟩ := Outcome.guard_eq_next.mp hs
    cases hs
    exact .inr (.inl ⟨fd, rfl, hno, rfl⟩)
  | hostClose fd =>
    obtain ⟨hno, hs⟩ := Outcome.guard_eq_next.mp hs
    cases hs
    exact .inr (.inr ⟨fd, rfl, hno, rfl⟩)

theorem Inv.next (h : s.Inv) {a : FsAction} (hs : s.next a = .next s') : s'.Inv := by
  rcases next_cases hs with ⟨c, r, rfl, hc⟩ | ⟨fd, rfl, -, rfl⟩ | ⟨fd, rfl, hno, rfl⟩
  · exact h.effect (s.effect_call c _ hc)
  · exact h.hostOpen fd
  · refine h.setHost fun k hk => Finset.mem_erase.mpr ⟨?_, ?_⟩
    · rintro rfl
      exact hno hk
    · obtain ⟨i, f, hi, hkf⟩ := hk
      exact h.isOpen i f hi k hkf

/-- In every run the entries stand for open descriptors, each for its own. -/
theorem inv_of_reachable (h : stubSystem.Reachable s) : s.Inv := by
  refine h.invariant (fun s hs => ?_) fun s a s' hinv hs => hinv.next hs
  obtain ⟨hostOpen, a, b, c, d, hnew⟩ := hs
  exact Inv.new hostOpen a b c d s hnew

/-! ### `Create` -/

/-- What `Create` owes to the files that are open: it changes no entry of the table, and closes
the descriptor `fd` that it has opened. -/
def CreateClean (s : FileSystem) (fd : ℕ) : Prop :=
  ∃ s', s.create (some fd) = .ok (true, s') ∧ s'.table = s.table ∧ fd ∉ s'.hostOpen

end FileSystem

/-- **`Create` in the stub file system.** In every run `Create` returns `TRUE` and leaves the
host descriptor it has opened open, since it calls the member `Close`: what is deleted is the
entry with the number of that descriptor, if there is one, and nothing else changes. So on no
descriptor it does what it should. -/
theorem create_never_clean (s : FileSystem) (hs : stubSystem.Reachable s) (fd : ℕ)
    (hfd : fd ∉ s.hostOpen) :
    (∃ s', s.create (some fd) = .ok (true, s') ∧ fd ∈ s'.hostOpen ∧
      ∀ i : Fin maxFile, s'.table i = if (i : ℕ) = fd ∧ 2 ≤ fd then none else s.table i) ∧
    ¬ s.CreateClean fd := by
  have hinv := FileSystem.inv_of_reachable hs
  have hmain : ∃ s', s.create (some fd) = .ok (true, s') ∧ fd ∈ s'.hostOpen ∧
      ∀ i : Fin maxFile, s'.table i = if (i : ℕ) = fd ∧ 2 ≤ fd then none else s.table i := by
    rcases hinv.create_eq hfd with ⟨i, f, hi, h2, ht, heq⟩ | ⟨hnone, heq⟩
    · refine ⟨_, heq, Finset.mem_erase.mpr ⟨?_, Finset.mem_insert_self _ _⟩, fun j => ?_⟩
      · rintro rfl
        exact hfd (hinv.isOpen i f ht f.file (by simp [OpenFile.descriptors]))
      · by_cases hji : j = i
        · subst hji
          simp [hi, h2]
        · have hne : (j : ℕ) ≠ fd := fun heq => hji (Fin.ext (heq.trans hi.symm))
          simp [hji, hne]
    · refine ⟨_, heq, Finset.mem_insert_self _ _, fun j => ?_⟩
      split
      · rename_i hj
        exact hnone j hj.1 hj.2
      · rfl
  refine ⟨hmain, ?_⟩
  rintro ⟨s', hs', -, hclosed⟩
  obtain ⟨s'', hs'', hopen, -⟩ := hmain
  rw [hs'] at hs''
  cases hs''
  exact hclosed hopen

/-- The first `Create` after the start leaves descriptor `7` open. -/
theorem create_never_clean_started : ¬ FileSystem.started.CreateClean 7 :=
  (create_never_clean .started FileSystem.reachable_started 7 (by decide)).2

/-- Six files are opened and the first one is closed again. The next descriptor of the host is
`7`, and `Create` deletes the file in entry `7`. -/
theorem create_deletes_open_file : ∃ s s', stubSystem.Reachable s ∧ 7 ∉ s.hostOpen ∧
    (∀ fd < 7, fd ∈ s.hostOpen) ∧ s.create (some 7) = .ok (true, s') ∧ 7 ∈ s'.hostOpen ∧
    s.table ⟨7, by decide⟩ = some ⟨-1, 12, 0, 0⟩ ∧ s'.table ⟨7, by decide⟩ = none := by
  let opens (fd : ℕ) : FsAction := .call (.openFile "f" false (fun _ => false) (some fd))
  obtain ⟨s, hs, hopen, hseven⟩ := stubSystem.reaches FileSystem.init_started
    [opens 7, opens 8, opens 9, opens 10, opens 11, opens 12, .call (.close 2)]
    (fun s => s.hostOpen = {0, 1, 2, 3, 4, 5, 6, 8, 9, 10, 11, 12} ∧
      s.table ⟨7, by decide⟩ = some ⟨-1, 12, 0, 0⟩) (by decide)
  have h7 : 7 ∉ s.hostOpen := by rw [hopen]; decide
  rcases (FileSystem.inv_of_reachable hs).create_eq h7 with ⟨i, f, hi, -, ht, heq⟩ | ⟨hnone, -⟩
  · obtain rfl : i = ⟨7, by decide⟩ := Fin.ext hi
    cases hseven.symm.trans ht
    refine ⟨s, _, hs, h7, by rw [hopen]; decide, heq, ?_, hseven, by simp⟩
    show 7 ∈ (insert 7 s.hostOpen).erase 12
    simp
  · cases (hnone ⟨7, by decide⟩ rfl (by decide)).symm.trans hseven

end Nachos.FileSys.Stub
