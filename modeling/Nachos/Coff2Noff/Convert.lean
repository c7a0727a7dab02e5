import Nachos.Base.CString
import Nachos.UserProg.FileCalls

namespace Nachos.Coff2Noff

open Base UserProg

/-!
# Coff2Noff — the program

`coff2noff.c` reads the headers of a COFF file and copies its sections one after the other into a
NOFF file, behind a gap; the NOFF header is put there at the end. The functions are computations
over the two open files. A `long` has 32 bits in this program, and the host is little-endian.

The host may refuse a block of memory or a transfer. `read` and `write` then return -1, which is
also what they return for a negative number of bytes: a section of -1 bytes is "copied".

* `coff2noff` — the whole program, `convertSection` — a round of its loop;
* `removes_coff2noff` — whenever it fails, it has removed the output.
-/

/-! ### The two files -/

/-- What the host may refuse. -/
structure Host where
  /-- `malloc` gives a block of this size. -/
  malloc : ℕ → Bool
  /-- One call of `read` or `write` moves this many bytes. -/
  moves : ℕ → Bool

/-- The messages of the program. -/
inductive ConvError where
  /-- "File is too short". -/
  | fileTooShort
  /-- "Unable to write file". -/
  | unableToWrite
  /-- "File is not a MIPSEL COFF file". -/
  | notMipsel
  /-- "File is not a OMAGIC file". -/
  | notOmagic
  /-- "Can't handle both bss and sbss". -/
  | bssAndSbss
  /-- "Unknown segment type". -/
  | unknownSegment
  deriving DecidableEq

/-- The two open files. -/
structure Files where
  /-- The offset of `fdIn`. -/
  inPos : ℕ
  out : HostFile
  /-- The offset of `fdOut`. -/
  outPos : ℕ
  /-- The output has not been removed. -/
  linked : Bool
  deriving DecidableEq

/-- The files when they have been opened. -/
def Files.opened : Files := ⟨0, [], 0, true⟩

/-- A computation of the program; an error is `exit(1)`. -/
abbrev Conv := EStateM ConvError Files

section Model

variable (H : Host) (coff : HostFile)

/-- A message, `unlink(noffFileName)` and `exit(1)`. -/
def fail {α : Type} (e : ConvError) : Conv α := fun s => .error e { s with linked := false }

/-- `lseek(fdIn, offset, 0)`, which the host refuses for a negative offset. -/
def seekIn (offset : Int) : Conv Unit := fun s =>
  .ok () (if offset < 0 then s else { s with inPos := offset.toNat })

/-- `lseek(fdOut, offset, 0)`. -/
def seekOut (offset : ℕ) : Conv Unit := fun s => .ok () { s with outPos := offset }

/-- The host does not return -1. `buf` is whether there is a block of memory. -/
def served (buf : Bool) (nBytes : Int) : Bool :=
  nBytes == 0 || (decide (0 < nBytes) && buf && H.moves nBytes.toNat)

/-- `Read`. -/
def read (buf : Bool) (nBytes : Int) : Conv (List UInt8) := fun s =>
  let bytes := (coff.drop s.inPos).take nBytes.toNat
  if served H buf nBytes then
    if (bytes.length : Int) ≠ nBytes then fail .fileTooShort s
    else .ok bytes { s with inPos := s.inPos + bytes.length }
  else if (-1 : Int) ≠ nBytes then fail .fileTooShort s
  else .ok [] s

/-- The largest offset of a file: `off_t` is a `long`. -/
def maxOffset : ℕ := 2147483647

/-- `Write`. The host does not write all the bytes if they go beyond the largest offset. -/
def write (buf : Bool) (buffer : List UInt8) (nBytes : Int) : Conv Unit := fun s =>
  if served H buf nBytes ∧ s.outPos + nBytes.toNat ≤ maxOffset then
    .ok () { s with
      out := s.out.writeAt (buffer.take nBytes.toNat) s.outPos
      outPos := s.outPos + nBytes.toNat }
  else if (-1 : Int) ≠ nBytes then fail .unableToWrite s
  else .ok () s

end Model

/-! ### The headers -/

/-- The segments of a NOFF file. -/
inductive SegKind where
  | text | data | rdata | bss
  deriving DecidableEq

/-- The names of the sections. -/
def SegKind.name : SegKind → CStr
  | text => ⟨[46, 116, 101, 120, 116], by decide⟩
  | data => ⟨[46, 100, 97, 116, 97], by decide⟩
  | rdata => ⟨[46, 114, 100, 97, 116, 97], by decide⟩
  | bss => ⟨[46, 98, 115, 115], by decide⟩

/-- `struct scnhdr`, with the fields that are used. -/
structure Scnhdr where
  s_name : List UInt8
  s_paddr : Int
  s_size : Int
  s_scnptr : Int
  deriving DecidableEq

namespace Scnhdr

/-- The 40 bytes of a section header. -/
def ofBytes (b : Buffer) : Scnhdr := ⟨(List.range 8).map b, b.intAt 8, b.intAt 16, b.intAt 20⟩

/-- The tests of the loop. All the names end inside of `s_name`, so `strcmp` does not look behind
it. -/
def kind (s : Scnhdr) : Option SegKind :=
  [.text, .data, .rdata, .bss].find? fun k => strcmpAt k.name (fun i => s.s_name.getD i 0) == 0

end Scnhdr

/-- An `unsigned short`. -/
def shortAt (b : List UInt8) (o : ℕ) : ℕ := (b.getD o 0).toNat + 256 * (b.getD (o + 1) 0).toNat

/-- `sizeof(struct filehdr)`. -/
def filehdrSize : ℕ := 20

/-- `sizeof(struct aouthdr)`. -/
def aouthdrSize : ℕ := 56

/-- `sizeof(struct scnhdr)`. -/
def scnhdrSize : ℕ := 40

/-- `sizeof(NoffHeader)`. -/
def noffHeaderSize : ℕ := 52

/-- `MIPSELMAGIC`. -/
def mipselMagic : ℕ := 0x0162

/-- `OMAGIC`, which is octal 407. -/
def oMagic : ℕ := 263

/-- The section headers in the bytes that have been read. -/
def scnhdrs (numsections : ℕ) (bytes : List UInt8) : List Scnhdr :=
  (List.range numsections).map fun i => Scnhdr.ofBytes fun j => bytes.getD (scnhdrSize * i + j) 0

end Nachos.Coff2Noff

namespace Nachos.UserProg.NoffHeader

open Base Coff2Noff

/-- The `int`s of the header, in the order of the declaration. -/
def word (h : NoffHeader) : ℕ → Int
  | 0 => h.noffMagic
  | 1 => h.code.virtualAddr
  | 2 => h.code.inFileAddr
  | 3 => h.code.size
  | 4 => h.initData.virtualAddr
  | 5 => h.initData.inFileAddr
  | 6 => h.initData.size
  | 7 => h.readonlyData.virtualAddr
  | 8 => h.readonlyData.inFileAddr
  | 9 => h.readonlyData.size
  | 10 => h.uninitData.virtualAddr
  | 11 => h.uninitData.inFileAddr
  | _ => h.uninitData.size

/-- The header as it is written. -/
def toBytes (h : NoffHeader) : List UInt8 :=
  (List.range noffHeaderSize).map fun i => intByte (h.word (i / 4)) (i % 4)

/-- The header before the first section; what is not set is what has been in memory. -/
def initial (junk : Buffer) : NoffHeader :=
  let h := NoffHeader.ofBytes junk
  { h with
    noffMagic := noffMagicNumber
    code := { h.code with size := 0 }
    initData := { h.initData with size := 0 }
    readonlyData := { h.readonlyData with size := 0 }
    uninitData := { h.uninitData with size := 0 } }

end Nachos.UserProg.NoffHeader

namespace Nachos.Coff2Noff

open Base UserProg

/-! ### The program -/

/-- The variables of the loop. -/
structure Locals where
  noffH : NoffHeader
  inNoffFile : Int

section Program

variable (H : Host) (coff : HostFile)

/-- The reading of the headers. -/
def readHeaders : Conv (List Scnhdr) := do
  let fileh ← read H coff true filehdrSize
  if shortAt fileh 0 ≠ mipselMagic then fail .notMipsel
  else do
    let systemh ← read H coff true aouthdrSize
    if shortAt systemh 0 ≠ oMagic then fail .notOmagic
    else do
      let numsections := shortAt fileh 2
      let size := numsections * scnhdrSize
      let sections ← read H coff (H.malloc size) size
      pure (scnhdrs numsections sections)

/-- The case of a section that is copied: `put` is the assignment to the segment. -/
def copySection (put : NoffHeader → Segment → NoffHeader) (s : Scnhdr) (l : Locals) :
    Conv Locals := do
  let noffH := put l.noffH ⟨s.s_paddr, l.inNoffFile, s.s_size⟩
  seekIn s.s_scnptr
  let buf := H.malloc s.s_size.toNat
  let buffer ← read H coff buf s.s_size
  write H buf buffer s.s_size
  pure ⟨noffH, wrap32 (l.inNoffFile + s.s_size)⟩

/-- The case of uninitialised data. -/
def bssSection (s : Scnhdr) (l : Locals) : Conv Locals :=
  let u := l.noffH.uninitData
  if u.size ≠ 0 then
    if s.s_paddr = wrap32 (u.virtualAddr + u.size) then fail .bssAndSbss
    else pure { l with noffH := { l.noffH with uninitData :=
      { u with size := wrap32 (u.size + s.s_size) } } }
  else
    pure { l with noffH := { l.noffH with
      uninitData := { u with virtualAddr := s.s_paddr, size := s.s_size } } }

/-- A round of the loop. -/
def convertSection (l : Locals) (s : Scnhdr) : Conv Locals :=
  if s.s_size = 0 then pure l
  else
    match s.kind with
    | some .text => copySection H coff (fun h seg => { h with code := seg }) s l
    | some .data => copySection H coff (fun h seg => { h with initData := seg }) s l
    | some .rdata => copySection H coff (fun h seg => { h with readonlyData := seg }) s l
    | some .bss => bssSection s l
    | none => fail .unknownSegment

/-- The loop. -/
def convertSections (sections : List Scnhdr) (l : Locals) : Conv Locals :=
  sections.foldlM (convertSection H coff) l

/-- `main`, behind the opening of the files. -/
def coff2noff (junk : Buffer) : Conv Unit := do
  let sections ← readHeaders H coff
  seekOut noffHeaderSize
  let l ← convertSections H coff sections ⟨.initial junk, noffHeaderSize⟩
  seekOut 0
  write H true l.noffH.toBytes noffHeaderSize

end Program

/-! ### Failures -/

/-- A failure of the computation has removed the output. -/
structure Removes {α : Type} (c : Conv α) : Prop where
  linked : ∀ {s e s'}, c s = .error e s' → s'.linked = false

section Removes

variable {H : Host} {coff : HostFile} {α β : Type}

theorem removes_pure (a : α) : Removes (pure a : Conv α) := by
  refine ⟨fun {s e s'} h => ?_⟩
  cases h

theorem removes_fail (e : ConvError) : Removes (fail e : Conv α) := by
  refine ⟨fun {s e' s'} h => ?_⟩
  cases h
  rfl

theorem removes_seekOut (offset : ℕ) : Removes (seekOut offset) := by
  refine ⟨fun {s e s'} h => ?_⟩
  cases h

theorem Removes.bind {c : Conv α} {f : α → Conv β} (hc : Removes c) (hf : ∀ a, Removes (f a)) :
    Removes (c >>= f) := by
  refine ⟨fun {s e s'} h => ?_⟩
  cases hs : c s with
  | ok a s₁ =>
    rw [bind_ok hs] at h
    exact (hf a).linked h
  | error e₁ s₁ =>
    rw [bind_error hs] at h
    cases h
    exact hc.linked hs

theorem Removes.ite {p : Prop} [Decidable p] {c d : Conv α} (hc : Removes c) (hd : Removes d) :
    Removes (if p then c else d) := by
  split
  · exact hc
  · exact hd

theorem removes_read (buf : Bool) (nBytes : Int) : Removes (read H coff buf nBytes) := by
  refine ⟨fun {s e s'} h => ?_⟩
  unfold read at h
  simp only at h
  split at h
  · split at h
    · exact (removes_fail _).linked h
    · cases h
  · split at h
    · exact (removes_fail _).linked h
    · cases h

theorem removes_write (buf : Bool) (buffer : List UInt8) (nBytes : Int) :
    Removes (write H buf buffer nBytes) := by
  refine ⟨fun {s e s'} h => ?_⟩
  unfold write at h
  split at h
  · cases h
  · split at h
    · exact (removes_fail _).linked h
    · cases h

theorem removes_copySection (put : NoffHeader → Segment → NoffHeader) (s : Scnhdr) (l : Locals) :
    Removes (copySection H coff put s l) := by
  apply Removes.bind
  · refine ⟨fun {f e f'} h => ?_⟩
    cases h
  · intro _
    exact (removes_read ..).bind fun _ => (removes_write ..).bind fun _ => removes_pure _

theorem removes_convertSection (l : Locals) (s : Scnhdr) : Removes (convertSection H coff l s) := by
  unfold convertSection
  apply Removes.ite (removes_pure l)
  cases s.kind with
  | none => exact removes_fail _
  | some k =>
    cases k with
    | text => exact removes_copySection ..
    | data => exact removes_copySection ..
    | rdata => exact removes_copySection ..
    | bss => exact .ite (.ite (removes_fail _) (removes_pure _)) (removes_pure _)

theorem removes_convertSections (sections : List Scnhdr) (l : Locals) :
    Removes (convertSections H coff sections l) := by
  unfold convertSections
  induction sections generalizing l with
  | nil => exact removes_pure l
  | cons s sections ih => exact (removes_convertSection l s).bind ih

theorem removes_readHeaders : Removes (readHeaders H coff) := by
  apply (removes_read ..).bind
  intro fileh
  apply Removes.ite (removes_fail _)
  apply (removes_read ..).bind
  intro systemh
  apply Removes.ite (removes_fail _)
  exact (removes_read ..).bind fun _ => removes_pure _

/-- **Failures.** Whenever the program fails, it has removed the output. -/
theorem removes_coff2noff (junk : Buffer) : Removes (coff2noff H coff junk) := by
  apply removes_readHeaders.bind
  intro sections
  apply (removes_seekOut _).bind
  intro _
  apply (removes_convertSections sections _).bind
  intro l
  exact (removes_seekOut _).bind fun _ => removes_write ..

end Removes

/-! ### The headers that are read -/

section Headers

variable {H : Host} {coff : HostFile}

/-- The section headers of a COFF file. -/
def sectionsOf (coff : HostFile) : List Scnhdr :=
  scnhdrs (shortAt coff 2) (coff.drop (filehdrSize + aouthdrSize))

/-- `Read` of a number of bytes that is not negative. -/
theorem read_natCast (buf : Bool) (n : ℕ) (s : Files) : read H coff buf n s =
    if served H buf n = true ∧ ((coff.drop s.inPos).take n).length = n then
      .ok ((coff.drop s.inPos).take n) { s with inPos := s.inPos + n }
    else fail .fileTooShort s := by
  unfold read
  rw [Int.toNat_natCast]
  simp only [ne_eq, Nat.cast_inj]
  by_cases hserved : served H buf n = true
  · by_cases hlen : ((coff.drop s.inPos).take n).length = n
    · rw [if_pos hserved, if_neg (not_not.mpr hlen), if_pos ⟨hserved, hlen⟩, hlen]
    · rw [if_pos hserved, if_pos hlen, if_neg (fun h => hlen h.2)]
  · rw [if_neg hserved, if_pos (by omega), if_neg (fun h => hserved h.1)]

theorem shortAt_take {bytes : List UInt8} {n o : ℕ} (h : o + 1 < n) :
    shortAt (bytes.take n) o = shortAt bytes o := by
  unfold shortAt
  rw [List.getD_eq_getElem?_getD, List.getD_eq_getElem?_getD, List.getD_eq_getElem?_getD,
    List.getD_eq_getElem?_getD, List.getElem?_take_of_lt h, List.getElem?_take_of_lt (by omega)]

theorem shortAt_drop (bytes : List UInt8) (n o : ℕ) :
    shortAt (bytes.drop n) o = shortAt bytes (n + o) := by
  unfold shortAt
  rw [List.getD_eq_getElem?_getD, List.getD_eq_getElem?_getD, List.getD_eq_getElem?_getD,
    List.getD_eq_getElem?_getD, List.getElem?_drop, List.getElem?_drop, Nat.add_assoc]

theorem scnhdrs_take (n : ℕ) (bytes : List UInt8) :
    scnhdrs n (bytes.take (n * scnhdrSize)) = scnhdrs n bytes := by
  unfold scnhdrs
  apply List.map_congr_left
  intro i hi
  rw [List.mem_range] at hi
  -- The fields are in the first 24 bytes.
  have hbyte : ∀ j < 24, (bytes.take (n * scnhdrSize)).getD (scnhdrSize * i + j) 0
      = bytes.getD (scnhdrSize * i + j) 0 := by
    intro j hj
    rw [List.getD_eq_getElem?_getD, List.getD_eq_getElem?_getD, List.getElem?_take_of_lt]
    unfold scnhdrSize
    omega
  have hint : ∀ o, o + 4 ≤ 24 →
      Buffer.intAt (fun j => (bytes.take (n * scnhdrSize)).getD (scnhdrSize * i + j) 0) o
      = Buffer.intAt (fun j => bytes.getD (scnhdrSize * i + j) 0) o := by
    intro o ho
    exact intOfBytes_congr fun j hj => hbyte (o + j) (by omega)
  unfold Scnhdr.ofBytes
  rw [hint 8 (by decide), hint 16 (by decide), hint 20 (by decide)]
  congr 1
  apply List.map_congr_left
  intro j hj
  rw [List.mem_range] at hj
  exact hbyte j (by omega)

/-- The headers are there. -/
structure HasHeaders (coff : HostFile) : Prop where
  f_magic : shortAt coff 0 = mipselMagic
  magic : shortAt coff filehdrSize = oMagic
  length : filehdrSize + aouthdrSize + shortAt coff 2 * scnhdrSize ≤ coff.length

/-- The host lets the headers be read. -/
structure Host.ServesHeaders (H : Host) (coff : HostFile) : Prop where
  filehdr : H.moves filehdrSize = true
  aouthdr : H.moves aouthdrSize = true
  sections : shortAt coff 2 ≠ 0 → H.malloc (shortAt coff 2 * scnhdrSize) = true ∧
    H.moves (shortAt coff 2 * scnhdrSize) = true

theorem served_of_moves {n : ℕ} {buf : Bool} (h : n ≠ 0 → buf = true ∧ H.moves n = true) :
    served H buf n = true := by
  unfold served
  rw [Int.toNat_natCast]
  by_cases h0 : n = 0
  · simp [h0]
  · obtain ⟨hbuf, hmoves⟩ := h h0
    simp [hbuf, hmoves, Nat.pos_of_ne_zero h0]

theorem length_take_drop {bytes : List UInt8} {pos n : ℕ} (h : pos + n ≤ bytes.length) :
    ((bytes.drop pos).take n).length = n := by
  rw [List.length_take, List.length_drop]
  omega

theorem read_ok {buf : Bool} {n : ℕ} {s : Files} (hserved : n ≠ 0 → buf = true ∧ H.moves n = true)
    (hlen : s.inPos + n ≤ coff.length) :
    read H coff buf n s = .ok ((coff.drop s.inPos).take n) { s with inPos := s.inPos + n } := by
  rw [read_natCast, if_pos ⟨served_of_moves hserved, length_take_drop hlen⟩]

theorem read_eq_ok {buf : Bool} {n : ℕ} {s s' : Files} {bytes : List UInt8}
    (h : read H coff buf n s = .ok bytes s') :
    bytes = (coff.drop s.inPos).take n ∧ s' = { s with inPos := s.inPos + n } := by
  rw [read_natCast] at h
  split at h
  · cases h
    exact ⟨rfl, rfl⟩
  · cases h

/-- The number of sections, and the sections, in what is read. -/
theorem scnhdrs_read (coff : HostFile) :
    scnhdrs (shortAt (coff.take filehdrSize) 2) ((coff.drop (filehdrSize + aouthdrSize)).take
      (shortAt (coff.take filehdrSize) 2 * scnhdrSize)) = sectionsOf coff := by
  rw [shortAt_take (by decide), scnhdrs_take]
  rfl

/-- The headers can be read. -/
theorem readHeaders_ok (hcoff : HasHeaders coff) (hhost : H.ServesHeaders coff) :
    ∃ inPos, readHeaders H coff .opened = .ok (sectionsOf coff) ⟨inPos, [], 0, true⟩ := by
  have hlen := hcoff.length
  unfold filehdrSize aouthdrSize at hlen
  have hfile : read H coff true filehdrSize .opened
      = .ok (coff.take filehdrSize) ⟨filehdrSize, [], 0, true⟩ := by
    apply read_ok (fun _ => ⟨rfl, hhost.filehdr⟩)
    show 0 + 20 ≤ coff.length
    omega
  have hsystem : read H coff true aouthdrSize ⟨filehdrSize, [], 0, true⟩
      = .ok ((coff.drop filehdrSize).take aouthdrSize)
        ⟨filehdrSize + aouthdrSize, [], 0, true⟩ := by
    apply read_ok (fun _ => ⟨rfl, hhost.aouthdr⟩)
    show 20 + 56 ≤ coff.length
    omega
  have hnum : shortAt (coff.take filehdrSize) 2 = shortAt coff 2 := shortAt_take (by decide)
  have hsections : read H coff (H.malloc (shortAt (coff.take filehdrSize) 2 * scnhdrSize))
      (shortAt (coff.take filehdrSize) 2 * scnhdrSize : ℕ) ⟨filehdrSize + aouthdrSize, [], 0, true⟩
      = .ok ((coff.drop (filehdrSize + aouthdrSize)).take
          (shortAt (coff.take filehdrSize) 2 * scnhdrSize))
        ⟨filehdrSize + aouthdrSize + shortAt (coff.take filehdrSize) 2 * scnhdrSize,
          [], 0, true⟩ := by
    rw [hnum]
    apply read_ok
    · intro h0
      apply hhost.sections
      rintro hzero
      rw [hzero, Nat.zero_mul] at h0
      exact h0 rfl
    · exact hcoff.length
  have hmips : shortAt (coff.take filehdrSize) 0 = mipselMagic :=
    (shortAt_take (by decide)).trans hcoff.f_magic
  have homagic : shortAt ((coff.drop filehdrSize).take aouthdrSize) 0 = oMagic := by
    rw [shortAt_take (by decide), shortAt_drop]
    exact hcoff.magic
  refine ⟨filehdrSize + aouthdrSize + shortAt (coff.take filehdrSize) 2 * scnhdrSize, ?_⟩
  unfold readHeaders
  rw [bind_ok hfile, if_neg (not_not.mpr hmips), bind_ok hsystem, if_neg (not_not.mpr homagic),
    bind_ok hsections, scnhdrs_read]
  rfl

/-- What the headers are, if they can be read. -/
theorem readHeaders_eq_ok {sections : List Scnhdr} {f : Files}
    (h : readHeaders H coff .opened = .ok sections f) :
    sections = sectionsOf coff ∧ f.out = [] ∧ f.linked = true := by
  obtain ⟨fileh, f₁, hfile, h⟩ := bind_eq_ok h
  obtain ⟨rfl, rfl⟩ := read_eq_ok hfile
  split at h
  · cases h
  · obtain ⟨systemh, f₂, hsystem, h⟩ := bind_eq_ok h
    obtain ⟨-, rfl⟩ := read_eq_ok hsystem
    split at h
    · cases h
    · obtain ⟨bytes, f₃, hsections, h⟩ := bind_eq_ok h
      obtain ⟨rfl, rfl⟩ := read_eq_ok hsections
      cases h
      exact ⟨scnhdrs_read coff, rfl, rfl⟩

end Headers

end Nachos.Coff2Noff
