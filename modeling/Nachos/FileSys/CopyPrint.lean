import Nachos.FileSys.Create

namespace Nachos.FileSys

open Base Lib

/-!
# FileSys — copying a file in and printing it

`Copy` and `Print` of `threads/main.cc`: `Copy` creates a file of the length of a UNIX file and
writes the chunks that it reads one after the other; `Print` reads `TransferSize` bytes at a time
until it gets none.

* `OpenFile.writes`, `OpenFile.reads` — calls of `Write` and of `Read` one after the other;
* `OpenFile.writes_eq` — writes that fit the file are one write of the concatenation;
* `OpenFile.reads_eq_iff` — reads cut the file into pieces, unless the end of one overflows;
* `copy_print_round_trip` — what has been copied in is what is printed.
-/

/-! ### The model -/

/-- `TransferSize`. -/
def transferSize : ℕ := 128

/-- A UNIX file, as what the calls of `ReadPartial` return until one of them returns 0. -/
structure UnixFile where
  reads : List (List UInt8)
  sizes : ∀ c ∈ reads, 0 < c.length ∧ c.length ≤ transferSize

/-- The contents of the file. -/
def UnixFile.bytes (u : UnixFile) : List UInt8 := u.reads.flatten

/-- A buffer with the given bytes at its start. -/
def bufferOf (bytes : List UInt8) : Buffer := fun i => bytes.getD i 0

namespace OpenFile

/-- `Write` of each chunk: what the calls return, and the object and the disk after the last one.
`junk` is what `new` returns in each of them. -/
def writes (junk : ℕ → Buffer) : List (List UInt8) → OpenFile → Disk →
    Option (List ℕ × OpenFile × Disk)
  | [], f, d => some ([], f, d)
  | c :: rest, f, d =>
    (f.write d (junk rest.length) (bufferOf c) c.length).bind fun r =>
      (writes junk rest r.2.2 r.2.1).map fun q => (r.1 :: q.1, q.2)

/-- `Read` with each size: the bytes that the calls return, and the object after the last one. -/
def reads (d : Disk) : List ℕ → OpenFile → Option (List (List UInt8) × OpenFile)
  | [], f => some ([], f)
  | n :: rest, f =>
    (f.read d n).bind fun r =>
      (reads d rest r.2.2).map fun q => ((List.range r.1).map r.2.1 :: q.1, q.2)

/-- The loop of `Print`, for a number of rounds: what it prints if it ends. -/
def printLoop (d : Disk) : ℕ → OpenFile → Option (List UInt8)
  | 0, _ => none
  | rounds + 1, f =>
    (f.read d transferSize).bind fun r =>
      if 0 < r.1 then (printLoop d rounds r.2.2).map fun out => (List.range r.1).map r.2.1 ++ out
      else some []

end OpenFile

namespace FileSystem

/-- `Copy` of a UNIX file that could be opened. -/
def copy (s : FileSystem) (unixFile : UnixFile) (toName : Buffer) (junk : ℕ → ℕ → Buffer) :
    Option FileSystem :=
  (s.create toName unixFile.bytes.length (junk 0)).bind fun (created, s) =>
    -- The output file couldn't be created.
    if created = false then some s
    else
      (s.openFile toName (junk 1)).bind fun openFile =>
        match openFile with
        -- `ASSERT(openFile != NULL)`
        | none => none
        | some f => (f.writes (junk 2) unixFile.reads s.disk).map fun r => { s with disk := r.2.2 }

/-- `Print`: the bytes that it prints, or `none` if it is unable to open the file. -/
def print (s : FileSystem) (name : Buffer) (junk : ℕ → Buffer) (rounds : ℕ) :
    Option (Option (List UInt8)) :=
  (s.openFile name junk).bind fun openFile =>
    match openFile with
    | none => some none
    | some f => (f.printLoop s.disk rounds).map some

end FileSystem

/-! ### Writing chunks -/

namespace OpenFile

variable {f : OpenFile} {d : Disk} {p : ℕ}

theorem map_bufferOf (bytes : List UInt8) :
    (List.range bytes.length).map (bufferOf bytes) = bytes := by
  apply List.ext_getElem
  · simp
  · intro i hi hi'
    simp [bufferOf, hi']

theorem transferred_of_le {n : ℕ} (h : n ≤ f.hdr.length - p) : f.transferred n p = n := by
  rw [transferred, Int.toNat_natCast, Nat.min_eq_left h]

/-- `WriteAt` of bytes that fit what is left of the file. -/
theorem writeAt_list (hwf : f.hdr.WellFormed) (d : Disk) (junk : Buffer) {bytes : List UInt8}
    (h : bytes.length ≤ f.hdr.length - p) :
    ∃ d', f.writeAt d junk (bufferOf bytes) bytes.length p = some (bytes.length, d') ∧
      (∀ s, s ∉ f.hdr.sectors → d' s = d s) ∧
      fileBytes d' f.hdr = overwrite (fileBytes d f.hdr) p bytes := by
  have hlen : f.hdr.length ≤ 3840 := hwf.length_le
  have hfits : f.Fits bytes.length p := by
    intro hp
    rw [FileHeader.fileLength, hwf.numBytes_eq] at hp
    unfold maxInt
    omega
  obtain ⟨d', hwrite, hother, hbytes⟩ := writeAt_bytes hwf d junk (bufferOf bytes) hfits
  rw [transferred_of_le h, map_bufferOf] at hbytes
  rw [transferred_of_le h] at hwrite
  exact ⟨d', hwrite, hother, hbytes⟩

/-- **Writes that fit the file** write the concatenation of the chunks. -/
theorem writes_eq (hwf : f.hdr.WellFormed) (d : Disk) (junk : ℕ → Buffer)
    {chunks : List (List UInt8)} (hp : f.seekPosition = p)
    (h : chunks.flatten.length ≤ f.hdr.length - p) :
    ∃ d', f.writes junk chunks d = some (chunks.map List.length,
        { f with seekPosition := (p + chunks.flatten.length : ℕ) }, d') ∧
      (∀ s, s ∉ f.hdr.sectors → d' s = d s) ∧
      fileBytes d' f.hdr = overwrite (fileBytes d f.hdr) p chunks.flatten := by
  -- Each chunk is written behind the ones before.
  induction chunks generalizing f d p with
  | nil =>
    refine ⟨d, ?_, fun _ _ => rfl, ?_⟩
    · rw [writes, List.map_nil, List.flatten_nil, List.length_nil, Nat.add_zero, ← hp]
    · rw [List.flatten_nil, overwrite_nil]
  | cons c rest ih =>
    rw [List.flatten_cons, List.length_append] at h
    obtain ⟨d₁, hwrite, hother₁, hbytes₁⟩ :=
      writeAt_list hwf d (junk rest.length) (show c.length ≤ f.hdr.length - p by omega)
    obtain ⟨d₂, hrest, hother₂, hbytes₂⟩ :=
      ih (f := { f with seekPosition := (p + c.length : ℕ) }) hwf d₁ rfl
        (show rest.flatten.length ≤ f.hdr.length - (p + c.length) by omega)
    refine ⟨d₂, ?_, fun s hs => (hother₂ s hs).trans (hother₁ s hs), ?_⟩
    · have hcast : f.seekPosition + (c.length : Int) = (p + c.length : ℕ) := by
        rw [hp, Nat.cast_add]
      rw [writes, write, hp, hwrite, Option.map_some, Option.bind_some]
      dsimp only
      rw [← hp, hcast, hrest, Option.map_some, List.map_cons, List.flatten_cons, List.length_append,
        Nat.add_assoc]
    · rw [hbytes₂, hbytes₁, List.flatten_cons, overwrite_append]

/-! ### Reading pieces -/

/-- What reads of the given sizes should return: the bytes one after the other, and nothing when
there are no more. -/
def pieces : List ℕ → List UInt8 → List (List UInt8)
  | [], _ => []
  | n :: rest, bytes => bytes.take n :: pieces rest (bytes.drop n)

/-- No read that starts inside the file overflows. -/
def ReadsFit (fileLength : ℕ) : ℕ → List ℕ → Prop
  | _, [] => True
  | p, n :: rest => (p < fileLength → (p : Int) + n ≤ maxInt) ∧ ReadsFit fileLength (p + n) rest

/-- Behind the end of the file nothing overflows. -/
theorem readsFit_of_le {fileLength : ℕ} (h : fileLength ≤ p) (sizes : List ℕ) :
    ReadsFit fileLength p sizes := by
  induction sizes generalizing p with
  | nil => trivial
  | cons n rest ih => exact ⟨fun hlt => by omega, ih (by omega)⟩

/-- A read that does not overflow. -/
theorem read_eq (hwf : f.hdr.WellFormed) (d : Disk) {n : ℕ} (hp : f.seekPosition = p)
    (hfits : p < f.hdr.length → (p : Int) + n ≤ maxInt) :
    ∃ bytes, f.read d n = some (f.transferred n p, bytes,
        { f with seekPosition := (p + f.transferred n p : ℕ) }) ∧
      (List.range (f.transferred n p)).map bytes = ((fileBytes d f.hdr).drop p).take n := by
  have hfits' : f.Fits n p := by
    intro hlt
    rw [FileHeader.fileLength, hwf.numBytes_eq] at hlt
    exact hfits (by omega)
  obtain ⟨bytes, hread, hval⟩ := readAt_bytes hwf d hfits'
  refine ⟨bytes, ?_, hval⟩
  rw [read, hp, hread, Option.map_some, Nat.cast_add]

/-- A read that overflows does not return, or it returns as many bytes as were asked for. -/
theorem read_overflow (hwf : f.hdr.WellFormed) (d : Disk) {n : ℕ} (hp : f.seekPosition = p)
    (hlt : p < f.hdr.length) (hn : (n : Int) ≤ maxInt) (hov : maxInt < (p : Int) + n) :
    f.read d n = none ∨ ∃ bytes f', f.read d n = some (n, bytes, f') := by
  have hlen : f.hdr.length ≤ 3840 := hwf.length_le
  have hlength : f.hdr.fileLength = f.hdr.length := hwf.numBytes_eq
  have hreq : ¬ ((n : Int) ≤ 0 ∨ (p : Int) ≥ f.hdr.fileLength) := by unfold maxInt at hov; omega
  have hclip : f.clip n p = n := clip_of_gt (by omega) (by unfold maxInt; omega) hn hov
  rw [read, hp, readAt_served hreq, hclip]
  split
  · exact .inl rfl
  · cases f.readSectors d (firstSector p) (numSectors n p).toNat with
    | none => exact .inl rfl
    | some buf => exact .inr ⟨_, _, rfl⟩

/-- The position after a read that is clipped is the end of the file. -/
theorem drop_transferred (f : OpenFile) (d : Disk) (n p : ℕ) :
    (fileBytes d f.hdr).drop (p + f.transferred n p) = ((fileBytes d f.hdr).drop p).drop n := by
  rw [List.drop_drop, transferred, Int.toNat_natCast]
  rcases le_total n (f.hdr.length - p) with hle | hle
  · rw [Nat.min_eq_left hle]
  · rw [Nat.min_eq_right hle, List.drop_eq_nil_of_le (by simp; omega),
      List.drop_eq_nil_of_le (by simp; omega)]

/-- Whether the next reads overflow does not depend on the clipping of this one. -/
theorem readsFit_transferred (f : OpenFile) (n p : ℕ) (sizes : List ℕ) :
    ReadsFit f.hdr.length (p + f.transferred n p) sizes ↔ ReadsFit f.hdr.length (p + n) sizes := by
  rcases le_total n (f.hdr.length - p) with hle | hle
  · rw [transferred_of_le hle]
  · have hend : f.hdr.length ≤ p + f.transferred n p := by
      rw [transferred, Int.toNat_natCast, Nat.min_eq_right hle]
      omega
    exact iff_of_true (readsFit_of_le hend sizes) (readsFit_of_le (by omega) sizes)

/-- **Reads return the file once** and then nothing, in pieces of the given sizes, if and only if
none of them overflows. -/
theorem reads_eq_iff (hwf : f.hdr.WellFormed) (d : Disk) {sizes : List ℕ}
    (hsizes : ∀ n ∈ sizes, (n : Int) ≤ maxInt) (hp : f.seekPosition = p) :
    (∃ f', f.reads d sizes = some (pieces sizes ((fileBytes d f.hdr).drop p), f')) ↔
      ReadsFit f.hdr.length p sizes := by
  induction sizes generalizing f p with
  | nil => exact iff_of_true ⟨f, rfl⟩ trivial
  | cons n rest ih =>
    obtain ⟨hn, hrest⟩ := List.forall_mem_cons.mp hsizes
    by_cases hfits : p < f.hdr.length → (p : Int) + n ≤ maxInt
    · obtain ⟨bytes, hread, hval⟩ := read_eq hwf d hp hfits
      have hih := ih (f := { f with seekPosition := (p + f.transferred n p : ℕ) }) hwf hrest rfl
      dsimp only at hih
      rw [drop_transferred, readsFit_transferred] at hih
      rw [ReadsFit, and_iff_right hfits, ← hih, reads, hread, Option.bind_some]
      dsimp only
      rw [hval, pieces]
      constructor
      · rintro ⟨f', hf'⟩
        obtain ⟨q, hq, heq⟩ := Option.map_eq_some_iff.mp hf'
        rw [Prod.mk.injEq, List.cons_eq_cons] at heq
        exact ⟨q.2, by rw [hq, ← heq.1.2]⟩
      · rintro ⟨f', hf'⟩
        exact ⟨f', by rw [hf', Option.map_some]⟩
    · -- The first read does not return, or it returns more than there is.
      refine iff_of_false ?_ fun h => hfits h.1
      push Not at hfits
      obtain ⟨hlt, hov⟩ := hfits
      rintro ⟨f', hf'⟩
      rw [reads] at hf'
      rcases read_overflow hwf d hp hlt hn hov with hnone | ⟨bytes, f₁, hread⟩
      · rw [hnone] at hf'
        cases hf'
      · rw [hread, Option.bind_some] at hf'
        obtain ⟨q, -, heq⟩ := Option.map_eq_some_iff.mp hf'
        rw [pieces, Prod.mk.injEq, List.cons_eq_cons] at heq
        have hlength := congrArg List.length heq.1.1
        have hlen : f.hdr.length ≤ 3840 := hwf.length_le
        simp only [List.length_map, List.length_range, List.length_take, List.length_drop,
          length_fileBytes] at hlength
        unfold maxInt at hov
        omega

/-- **The loop of `Print`** ends, because each round that goes on has read a byte, and it prints the
rest of the file. -/
theorem printLoop_eq (hwf : f.hdr.WellFormed) (d : Disk) {rounds : ℕ} (hp : f.seekPosition = p)
    (h : f.hdr.length - p < rounds) :
    f.printLoop d rounds = some ((fileBytes d f.hdr).drop p) := by
  have hlen : f.hdr.length ≤ 3840 := hwf.length_le
  induction rounds generalizing f p with
  | zero => omega
  | succ rounds ih =>
    obtain ⟨bytes, hread, hval⟩ := read_eq hwf d (n := transferSize) hp
      (fun hlt => by unfold maxInt transferSize; omega)
    rw [printLoop, hread, Option.bind_some]
    dsimp only
    split
    · rename_i hpos
      have hrest := ih (f := { f with seekPosition := (p + f.transferred transferSize p : ℕ) }) hwf
        rfl (show f.hdr.length - (p + f.transferred transferSize p) < rounds by
          unfold transferred at *; omega) hlen
      rw [hrest, Option.map_some, hval]
      dsimp only
      rw [drop_transferred, List.take_append_drop]
    · -- Nothing was read: the position is at the end.
      rename_i hzero
      rw [List.drop_eq_nil_of_le]
      rw [length_fileBytes]
      unfold transferred transferSize at hzero
      omega

end OpenFile

/-! ### Copying and printing -/

namespace FileSystem

variable {s s₁ : FileSystem} {name : Buffer}

/-- **`Copy`** of a file that is created: the file has the bytes of the UNIX file, and it can be
opened. -/
theorem Inv.copy_eq (h : s.Inv) {u : UnixFile} {junk : ℕ → ℕ → Buffer}
    (hcreate : s.create name u.bytes.length (junk 0) = some (true, s₁)) :
    ∃ s' hdr, s.copy u name junk = some s' ∧ s'.Inv ∧ Opens s'.disk (nameOf name) hdr ∧
      hdr.length = u.bytes.length ∧ fileBytes s'.disk hdr = u.bytes := by
  obtain ⟨d', i, e, sec, hdr, rfl, hc⟩ := h.created hcreate
  have hinv := h.create_next hcreate
  have ho : Opens d' (nameOf name) hdr := (hc.opens_iff h.disk).mpr (.inl ⟨rfl, rfl⟩)
  -- All chunks together are as long as the file.
  obtain ⟨d₁, hwrites, hother, hbytes⟩ := OpenFile.writes_eq (f := ⟨hdr, 0⟩) (p := 0) hc.hdr_wf d'
    (junk 2) rfl (show u.bytes.length ≤ hdr.length - 0 by rw [hc.hdr_length]; omega)
  have hopen := hinv.openFile_eq ho (junk 1)
  obtain ⟨j, e', he', hname, hhdr⟩ := ho
  have hw : Wrote d' d₁ j e' := ⟨he', by rw [hhdr]; exact hother⟩
  refine ⟨{ s with disk := d₁ }, hdr, ?_, hinv.wrote hw, ?_, hc.hdr_length, ?_⟩
  · rw [copy, hcreate, Option.bind_some]
    dsimp only
    rw [if_neg (by decide), hopen, Option.bind_some]
    dsimp only
    rw [hwrites, Option.map_some]
  · exact (hw.opens_iff hinv.disk).mpr ⟨j, e', he', hname, hhdr⟩
  · rw [hbytes]
    exact overwrite_all (by rw [length_fileBytes, hc.hdr_length, UnixFile.bytes])

/-- `Print` of a file prints its bytes. -/
theorem Inv.print_eq (h : s.Inv) {hdr : FileHeader} (ho : Opens s.disk (nameOf name) hdr)
    (junk : ℕ → Buffer) {rounds : ℕ} (hrounds : hdr.length < rounds) :
    s.print name junk rounds = some (some (fileBytes s.disk hdr)) := by
  rw [print, h.openFile_eq ho, Option.bind_some]
  dsimp only
  rw [OpenFile.printLoop_eq (f := ⟨hdr, 0⟩) (p := 0) (h.disk.opens_wf ho) s.disk rfl hrounds,
    List.drop_zero, Option.map_some]

/-- What `Open` returns is well formed. -/
theorem Inv.openFile_wf (h : s.Inv) {junk : ℕ → Buffer} {f : OpenFile}
    (hopen : s.openFile name junk = some (some f)) : f.hdr.WellFormed ∧ f.seekPosition = 0 := by
  rcases h.openFile_cases name junk with ⟨-, hnull⟩ | ⟨i, e, he, -, hfile⟩
  · rw [hopen] at hnull
    cases hnull
  · rw [hopen, Option.some.injEq, Option.some.injEq] at hfile
    subst hfile
    exact ⟨h.disk.opens_wf ⟨i, e, he, rfl, rfl⟩, rfl⟩

end FileSystem

/-- **Copy in, print out.** In every state of every run:

    * a UNIX file of at most `MaxFileSize` bytes, however `ReadPartial` cuts it, is copied to a file
      of the same length and bytes if `Create` succeeds, and `Print` prints these bytes;
    * `Write`s of chunks that fit what is left of an open file do what one `WriteAt` of their
      concatenation does;
    * `Read`s of positive sizes return the contents of a file once and then nothing, exactly if no
      read that starts inside the file ends behind the largest `int`. -/
theorem copy_print_round_trip (s : FileSystem) (h : callSystem.Reachable s) :
    (∀ (u : UnixFile) (name : Buffer) (junk : ℕ → ℕ → Buffer) (s₁ : FileSystem),
      u.bytes.length ≤ maxFileSize → s.create name u.bytes.length (junk 0) = some (true, s₁) →
      ∃ s', s.copy u name junk = some s' ∧ ∀ junk',
        (∃ f, s'.openFile name junk' = some (some f) ∧ f.fileLength = u.bytes.length ∧
          fileBytes s'.disk f.hdr = u.bytes) ∧
        ∀ rounds > u.bytes.length, s'.print name junk' rounds = some (some u.bytes)) ∧
    ∀ (name : Buffer) (junk : ℕ → Buffer) (f : OpenFile),
      s.openFile name junk = some (some f) →
      (∀ (p : ℕ) (chunks : List (List UInt8)) (junk : ℕ → Buffer) (junk' : Buffer),
        chunks.flatten.length ≤ f.hdr.length - p →
        ∃ d₁ d₂, (f.seek p).writes junk chunks s.disk = some (chunks.map List.length,
            f.seek (p + chunks.flatten.length : ℕ), d₁) ∧
          f.writeAt s.disk junk' (bufferOf chunks.flatten) chunks.flatten.length p
            = some (chunks.flatten.length, d₂) ∧
          fileBytes d₁ f.hdr = fileBytes d₂ f.hdr ∧ ∀ x, x ∉ f.hdr.sectors → d₁ x = d₂ x) ∧
      ∀ sizes : List ℕ, (∀ n ∈ sizes, 0 < n ∧ (n : Int) ≤ maxInt) →
        ((∃ f', f.reads s.disk sizes = some (OpenFile.pieces sizes (fileBytes s.disk f.hdr), f')) ↔
          OpenFile.ReadsFit f.hdr.length 0 sizes) := by
  have hinv := call_inv h
  constructor
  · intro u name junk s₁ _ hcreate
    obtain ⟨s', hdr, hcopy, hinv', ho, hlen, hbytes⟩ := hinv.copy_eq hcreate
    refine ⟨s', hcopy, fun junk' => ⟨⟨⟨hdr, 0⟩, hinv'.openFile_eq ho junk', ?_, hbytes⟩, ?_⟩⟩
    · have hwf := hinv'.disk.opens_wf ho
      rw [OpenFile.fileLength, FileHeader.fileLength, hwf.numBytes_eq, hlen]
    · intro rounds hrounds
      rw [hinv'.print_eq ho junk' (by omega), hbytes]
  · intro name junk f hopen
    obtain ⟨hwf, hp⟩ := hinv.openFile_wf hopen
    constructor
    · intro p chunks junk junk' hfits
      obtain ⟨d₁, hwrites, hother₁, hbytes₁⟩ :=
        OpenFile.writes_eq (f := f.seek p) hwf s.disk junk rfl hfits
      obtain ⟨d₂, hwrite, hother₂, hbytes₂⟩ := OpenFile.writeAt_list hwf s.disk junk' hfits
      refine ⟨d₁, d₂, hwrites, hwrite, hbytes₁.trans hbytes₂.symm, fun x hx => ?_⟩
      rw [hother₁ x hx, hother₂ x hx]
    · intro sizes hsizes
      exact OpenFile.reads_eq_iff hwf s.disk (fun n hn => (hsizes n hn).2) (p := 0) hp

/-! ### On a disk that has just been formatted -/

/-- The file `a` of ten bytes can be created and opened. -/
theorem reachable_ten_bytes :
    ∃ s hdr, callSystem.Reachable s ∧ hdr.WellFormed ∧ hdr.length = 10 ∧
      s.openFile (fun k => [97].getD k 0) (fun _ _ => 0) = some (some ⟨hdr, 0⟩) := by
  obtain ⟨s, d', i, e, sec, hdr, hformat, hinv, hcreate, hc⟩ :=
    FileSystem.exists_created (fun k => [97].getD k 0) (n := 10) (by decide)
  have hs : callSystem.Reachable s := .init ⟨_, _, hformat⟩
  have hs' : callSystem.Reachable { s with disk := d' } := by
    apply hs.step (l := .create (fun k => [97].getD k 0) 10 fun _ _ => 0)
    show (if (0 : Int) ≤ 10 then _ else Outcome.disabled) = _
    rw [if_pos (by decide)]
    exact FileSystem.ended_eq_next.mpr (by rw [Nat.cast_ofNat] at hcreate; rw [hcreate]; rfl)
  refine ⟨_, hdr, hs', hc.hdr_wf, hc.hdr_length, ?_⟩
  exact (call_inv hs').openFile_eq ((hc.opens_iff hinv.disk).mpr (.inl ⟨rfl, rfl⟩)) _

/-- After a byte of a file of ten bytes has been read, a read of 2147483647 bytes ends at 2³¹; it is
not clipped, and the size of the buffer for it is negative. -/
theorem read_after_read_faults :
    ∃ s f f', callSystem.Reachable s ∧
      s.openFile (fun k => [97].getD k 0) (fun _ _ => 0) = some (some f) ∧ f.fileLength = 10 ∧
      f.reads s.disk [1] = some ([(fileBytes s.disk f.hdr).take 1], f') ∧
      f'.read s.disk 2147483647 = none ∧ f.reads s.disk [1, 2147483647] = none := by
  obtain ⟨s, hdr, hs, hwf, hlen, hopen⟩ := reachable_ten_bytes
  have hnum : hdr.numBytes = 10 := by rw [hwf.numBytes_eq, hlen]; rfl
  obtain ⟨bytes, hread, hval⟩ := OpenFile.read_eq (f := ⟨hdr, 0⟩) (p := 0) (n := 1) hwf s.disk rfl
    (fun _ => by decide)
  have hone : OpenFile.transferred ⟨hdr, 0⟩ (1 : ℕ) 0 = 1 := OpenFile.transferred_of_le (by
    show 1 ≤ hdr.length - 0
    omega)
  rw [hone] at hread hval
  -- The second read looks at the length of the file only.
  have hsecond : OpenFile.read ⟨hdr, 1⟩ s.disk 2147483647 = none := by
    have hclip : OpenFile.clip ⟨hdr, 1⟩ 2147483647 1 = 2147483647 :=
      OpenFile.clip_of_gt (by show 1 < hdr.numBytes; omega)
        (by show hdr.numBytes ≤ _; rw [hnum]; decide) (by decide) (by decide)
    have hreq : ¬ ((2147483647 : Int) ≤ 0 ∨ 1 ≥ (OpenFile.mk hdr 1).hdr.fileLength) := by
      show ¬ ((2147483647 : Int) ≤ 0 ∨ 1 ≥ hdr.numBytes)
      omega
    rw [OpenFile.read, OpenFile.readAt_served hreq, hclip, if_pos (.inr (by decide)),
      Option.map_none]
  refine ⟨s, ⟨hdr, 0⟩, ⟨hdr, 1⟩, hs, hopen, hnum, ?_, hsecond, ?_⟩
  · rw [OpenFile.reads, hread, Option.bind_some, hval]
    rfl
  · rw [OpenFile.reads, hread, Option.bind_some, OpenFile.reads]
    exact congrArg (Option.map _) (congrArg (Option.bind · _) hsecond)

/-- Ten bytes are copied in two chunks and printed. -/
theorem copy_print_round_trip_two_chunks :
    ∃ s s', callSystem.Reachable s ∧
      s.copy ⟨[[1, 2, 3, 4], [5, 6, 7, 8, 9, 10]], by decide⟩ (fun k => [97].getD k 0)
        (fun _ _ _ => 0) = some s' ∧
      s'.print (fun k => [97].getD k 0) (fun _ _ => 0) 11
        = some (some [1, 2, 3, 4, 5, 6, 7, 8, 9, 10]) := by
  obtain ⟨s, d', i, e, sec, hdr, hformat, -, hcreate, -⟩ :=
    FileSystem.exists_created (fun k => [97].getD k 0) (n := 10) (by decide)
  have hs : callSystem.Reachable s := .init ⟨_, _, hformat⟩
  obtain ⟨s', hcopy, hprint⟩ := (copy_print_round_trip s hs).1
    ⟨[[1, 2, 3, 4], [5, 6, 7, 8, 9, 10]], by decide⟩ (fun k => [97].getD k 0) (fun _ _ _ => 0) _
    (by decide) hcreate
  exact ⟨s, s', hs, hcopy, (hprint fun _ _ => 0).2 11 (by decide)⟩

end Nachos.FileSys
