import Nachos.FileSys.OpenFile

namespace Nachos.FileSys

open Base Lib

/-!
# FileSys — a bitmap in a file

`PersistentBitmap` of `filesys/pbitmap.cc`: a `Bitmap` whose words are read from a file and
written back to it as they are in memory.
-/

namespace PersistentBitmap

variable {n : ℕ}

/-- The bytes of the array `map`. -/
def toBytes (b : Bitmap n) : Buffer := fun o => wordByte (b.map[o / 4]?.getD 0).toNat (o % 4)

/-- The bitmap whose array `map` has the given bytes. -/
def ofBytes (n : ℕ) (bytes : Buffer) : Bitmap n where
  map := .ofFn fun w => .ofNat 32 (wordOfBytes fun j => bytes (4 * w + j))

/-- `numWords * sizeof(unsigned)`. -/
def fileSize (n : ℕ) : ℕ := numWords n * 4

/-- `PersistentBitmap::PersistentBitmap(OpenFile *, int)`. -/
def new (n : ℕ) (file : OpenFile) (d : Disk) : Option (Bitmap n) :=
  (file.readAt d (fileSize n) 0).map fun r => ofBytes n ((toBytes (Bitmap.new n)).copy 0 r.1 r.2)

/-- `PersistentBitmap::WriteBack`. -/
def writeBack (b : Bitmap n) (file : OpenFile) (d : Disk) (junk : Buffer) : Option Disk :=
  (file.writeAt d junk (toBytes b) (fileSize n) 0).map Prod.snd

/-- The words only depend on the bytes of the array. -/
theorem ofBytes_congr {b c : Buffer} (h : ∀ o < fileSize n, b o = c o) :
    ofBytes n b = ofBytes n c := by
  apply congrArg Bitmap.mk
  ext1 w hw
  simp only [Vector.getElem_ofFn]
  apply congrArg (BitVec.ofNat 32)
  apply wordOfBytes_congr
  intro j hj
  apply h
  unfold fileSize
  omega

/-- **Round trip.** -/
theorem ofBytes_toBytes (b : Bitmap n) : ofBytes n (toBytes b) = b := by
  have hmap : (ofBytes n (toBytes b)).map = b.map := by
    ext1 w hw
    -- The four bytes of word `w` are read back as the word.
    have hword : (wordOfBytes fun j => toBytes b (4 * w + j)) = (b.map[w]).toNat := by
      rw [← wordOfBytes_wordByte (b.map[w]).isLt]
      apply wordOfBytes_congr
      intro j hj
      have hdiv : (4 * w + j) / 4 = w := by omega
      have hmod : (4 * w + j) % 4 = j := by omega
      rw [toBytes, hdiv, hmod, Vector.getElem?_eq_getElem hw, Option.getD_some]
    simp only [ofBytes, Vector.getElem_ofFn]
    rw [hword, BitVec.ofNat_toNat, BitVec.setWidth_eq]
  exact congrArg Bitmap.mk hmap

variable {f : OpenFile}

/-- The bitmap that is read is the one stored in the file. -/
theorem new_eq (hwf : f.hdr.WellFormed) (hlen : f.hdr.length = fileSize n) (d : Disk) :
    new n f d = some (ofBytes n (fileByte d f.hdr)) := by
  obtain ⟨bytes, hread, hval⟩ := OpenFile.readAt_all hwf d
  rw [hlen] at hread hval
  rw [new, hread, Option.map_some]
  apply congrArg some
  apply ofBytes_congr
  intro o ho
  -- Every byte of the bitmap is overwritten with one of the file.
  rw [Buffer.copy_of_mem _ _ (Nat.zero_le o) (by omega), Nat.sub_zero]
  exact hval o ho

/-- The bitmap that is written is the one stored in the file afterwards. -/
theorem writeBack_eq (hwf : f.hdr.WellFormed) (hlen : f.hdr.length = fileSize n) (d : Disk)
    (b : Bitmap n) (junk : Buffer) :
    ∃ d', writeBack b f d junk = some d' ∧ (∀ s, s ∉ f.hdr.sectors → d' s = d s) ∧
      ofBytes n (fileByte d' f.hdr) = b := by
  obtain ⟨d', hwrite, hother, hval⟩ := OpenFile.writeAt_all hwf d junk (toBytes b)
  rw [hlen] at hwrite hval
  refine ⟨d', by rw [writeBack, hwrite]; rfl, hother, ?_⟩
  rw [ofBytes_congr hval, ofBytes_toBytes]

end PersistentBitmap

end Nachos.FileSys
