import Nachos.FileSys.Directory
import Nachos.FileSys.PersistentBitmap

namespace Nachos.FileSys

open Base Lib

/-!
# FileSys — the file system

`FileSystem` of `filesys/filesys.cc` (the version on the simulated disk). The free map and the
directory are files whose headers are in the first two sectors; they stay open. Every
operation reads what it needs, changes it in memory and writes it back.

The result of an operation is `none` when a runtime check fails. `junk` is the memory that the
operation allocates and does not initialise, one buffer for each allocation.
-/

/-- `FreeMapSector`. -/
def freeMapSector : ℕ := 0

/-- `DirectorySector`. -/
def directorySector : ℕ := 1

/-- `FreeMapFileSize`. -/
def freeMapFileSize : ℕ := numDiskSectors / 8

/-- `NumDirEntries`. -/
def numDirEntries : ℕ := 10

/-- `DirectoryFileSize`. -/
def directoryFileSize : ℕ := DirectoryEntry.size * numDirEntries

/-- `FileSystem`, with the disk it is on. -/
structure FileSystem where
  disk : Disk
  freeMapFile : OpenFile
  directoryFile : OpenFile

namespace FileSystem

/-- `FileSystem(FALSE)`. -/
def mount (d : Disk) : Option FileSystem := do
  let freeMapFile ← OpenFile.new d freeMapSector
  let directoryFile ← OpenFile.new d directorySector
  return ⟨d, freeMapFile, directoryFile⟩

/-- An allocation in `FileSystem(TRUE)`, which is asserted to succeed. -/
def allocateOrFail (freeMap : Bitmap numDiskSectors) (fileSize : ℕ) (junk : Buffer) :
    Option (FileHeader × Bitmap numDiskSectors) :=
  ((FileHeader.ofBytes junk).allocate freeMap fileSize).bind fun r =>
    if r.1 then some r.2 else none

/-- `FileSystem(TRUE)` on a disk with any contents. -/
def format (d : Disk) (junk : ℕ → Buffer) : Option FileSystem := do
  -- The sectors of the two headers, which nobody else may get.
  let freeMap ← (Bitmap.new numDiskSectors).mark freeMapSector
  let freeMap ← freeMap.mark directorySector
  -- The data blocks of the two files.
  let (mapHdr, freeMap) ← allocateOrFail freeMap freeMapFileSize (junk 1)
  let (dirHdr, freeMap) ← allocateOrFail freeMap directoryFileSize (junk 2)
  -- The headers have to be on the disk before the files can be opened.
  let d ← mapHdr.writeBack d freeMapSector
  let d ← dirHdr.writeBack d directorySector
  let freeMapFile ← OpenFile.new d freeMapSector
  let directoryFile ← OpenFile.new d directorySector
  -- The free map now has the sectors of both files marked.
  let d ← PersistentBitmap.writeBack freeMap freeMapFile d (junk 3)
  let d ← (Directory.new numDirEntries (junk 0)).writeBack directoryFile d (junk 4) (junk 5)
  return ⟨d, freeMapFile, directoryFile⟩

/-- `new Directory` and `FetchFrom(directoryFile)`. -/
def fetchDirectory (s : FileSystem) (junk : ℕ → Buffer) : Option (Directory numDirEntries) :=
  (Directory.new numDirEntries (junk 0)).fetchFrom s.directoryFile s.disk (junk 1)

/-- `new PersistentBitmap(freeMapFile, NumSectors)`. -/
def fetchFreeMap (s : FileSystem) : Option (Bitmap numDiskSectors) :=
  PersistentBitmap.new numDiskSectors s.freeMapFile s.disk

/-- The end of `Create`: everything worked, flush all changes back to disk. -/
def flushCreate (s : FileSystem) (sector : Int) (hdr : FileHeader)
    (directory : Directory numDirEntries) (freeMap : Bitmap numDiskSectors) (junk : ℕ → Buffer) :
    Option FileSystem := do
  let d ← hdr.writeBack s.disk sector
  let d ← directory.writeBack s.directoryFile d (junk 3) (junk 4)
  let d ← PersistentBitmap.writeBack freeMap s.freeMapFile d (junk 5)
  return { s with disk := d }

/-- `FileSystem::Create`. -/
def create (s : FileSystem) (name : Buffer) (initialSize : Int) (junk : ℕ → Buffer) :
    Option (Bool × FileSystem) :=
  (s.fetchDirectory junk).bind fun directory =>
    -- The file is already in the directory.
    if directory.find name ≠ -1 then some (false, s)
    else
      s.fetchFreeMap.bind fun freeMap =>
        let (sector, freeMap) := freeMap.findAndSet
        -- No free block for the file header.
        if sector = -1 then some (false, s)
        else
          let (added, directory) := directory.add name sector
          -- No space in the directory.
          if added = false then some (false, s)
          else
            ((FileHeader.ofBytes (junk 2)).allocate freeMap initialSize).bind
              fun (allocated, hdr, freeMap) =>
                -- No space on the disk for the data.
                if allocated = false then some (false, s)
                else (s.flushCreate sector hdr directory freeMap junk).map fun s => (true, s)

/-- `FileSystem::Open`: the new object, or `NULL`. -/
def openFile (s : FileSystem) (name : Buffer) (junk : ℕ → Buffer) : Option (Option OpenFile) :=
  (s.fetchDirectory junk).bind fun directory =>
    if directory.find name ≥ 0 then (OpenFile.new s.disk (directory.find name)).map some
    else some none

/-- `Remove` of a file whose header is in the given sector. -/
def removeFile (s : FileSystem) (directory : Directory numDirEntries) (name : Buffer)
    (sector : Int) (junk : ℕ → Buffer) : Option FileSystem := do
  let fileHdr ← FileHeader.fetchFrom s.disk sector
  let freeMap ← s.fetchFreeMap
  -- The data blocks, then the header block.
  let freeMap ← fileHdr.deallocate freeMap
  let freeMap ← freeMap.clear sector
  let directory := (directory.remove name).2
  let d ← PersistentBitmap.writeBack freeMap s.freeMapFile s.disk (junk 3)
  let d ← directory.writeBack s.directoryFile d (junk 4) (junk 5)
  return { s with disk := d }

/-- `FileSystem::Remove`. -/
def remove (s : FileSystem) (name : Buffer) (junk : ℕ → Buffer) : Option (Bool × FileSystem) :=
  (s.fetchDirectory junk).bind fun directory =>
    if directory.find name = -1 then some (false, s)
    else (s.removeFile directory name (directory.find name) junk).map fun s => (true, s)

end FileSystem

end Nachos.FileSys
