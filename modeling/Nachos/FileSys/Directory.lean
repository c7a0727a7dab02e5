import Nachos.FileSys.OpenFile

namespace Nachos.FileSys

open Base

/-!
# FileSys — the directory

`Directory` of `filesys/directory.cc`: a table of entries, each with a name of at most nine
bytes and the sector of a file header, kept in a file as it is in memory.

A name is looked up by the bytes that a bounded comparison looks at, `nameOf`; two entries in
use never agree on them (`Directory.Distinct`), so that a name determines an entry.
-/

/-- `FileNameMaxLen`. -/
def fileNameMaxLen : ℕ := 9

/-- What identifies a name: its first `FileNameMaxLen` bytes, up to the first NUL. -/
def nameOf (name : Buffer) : List UInt8 := cstr fileNameMaxLen name

/-- `DirectoryEntry`. -/
structure DirectoryEntry where
  inUse : Bool
  sector : Int
  name : Vector UInt8 (fileNameMaxLen + 1)
  deriving DecidableEq

namespace DirectoryEntry

/-- `sizeof(DirectoryEntry)`: a `bool`, three bytes of padding, an `int`, ten `char`s and two
bytes of padding. -/
def size : ℕ := 20

/-- The array `name` as a `char *`. -/
def nameBuffer (e : DirectoryEntry) : Buffer := fun k => e.name[k]?.getD 0

/-- The bytes of an entry; `pad` is what is in its padding. -/
def toBytes (e : DirectoryEntry) (pad : Buffer) : Buffer := fun o =>
  if o = 0 then (if e.inUse then 1 else 0)
  else if 4 ≤ o ∧ o < 8 then intByte e.sector (o - 4)
  else if 8 ≤ o ∧ o < 18 then e.nameBuffer (o - 8)
  else pad o

/-- The entry with the given bytes. -/
def ofBytes (b : Buffer) : DirectoryEntry where
  inUse := b 0 ≠ 0
  sector := b.intAt 4
  name := .ofFn fun k => b (8 + k)

/-- `inUse = TRUE`, `strncpy` of the name and the new sector. -/
def assign (e : DirectoryEntry) (name : Buffer) (newSector : Int) : DirectoryEntry where
  inUse := true
  sector := newSector
  name := .ofFn fun k => strncpy e.nameBuffer name fileNameMaxLen k

/-- The name that is copied into an entry is the name of the entry. -/
theorem nameOf_assign (e : DirectoryEntry) (name : Buffer) (newSector : Int) :
    nameOf (e.assign name newSector).nameBuffer = nameOf name := by
  unfold nameOf
  rw [← cstr_strncpy e.nameBuffer name]
  apply cstr_congr
  intro k hk
  have hk' : k < fileNameMaxLen + 1 := by omega
  rw [nameBuffer, assign, Vector.getElem?_ofFn, dif_pos hk', Option.getD_some]

/-- **Round trip.** An entry is read back from its bytes, whatever is in the padding. -/
theorem ofBytes_toBytes {e : DirectoryEntry} (hlo : minInt ≤ e.sector) (hhi : e.sector ≤ maxInt)
    (pad : Buffer) : ofBytes (e.toBytes pad) = e := by
  have hsector : (e.toBytes pad).intAt 4 = e.sector := by
    refine Buffer.intAt_eq (fun j hj => ?_) hlo hhi
    rw [toBytes, if_neg (by omega), if_pos (by omega), Nat.add_sub_cancel_left]
  have hname : (Vector.ofFn fun k : Fin (fileNameMaxLen + 1) => e.toBytes pad (8 + k)) =
    e.name := by
    ext1 k hk
    have hten : fileNameMaxLen + 1 = 10 := rfl
    rw [Vector.getElem_ofFn, toBytes, if_neg (by omega), if_neg (by omega), if_pos (by omega),
      Nat.add_sub_cancel_left, nameBuffer, Vector.getElem?_eq_getElem hk, Option.getD_some]
  have hinUse : decide (e.toBytes pad 0 ≠ 0) = e.inUse := by
    rw [toBytes, if_pos rfl]
    cases e.inUse <;> decide
  unfold ofBytes
  rw [hsector, hname, hinUse]

/-- An entry only depends on its bytes. -/
theorem ofBytes_congr {b c : Buffer} (h : ∀ o < size, b o = c o) : ofBytes b = ofBytes c := by
  have hsize : size = 20 := rfl
  have hsector : b.intAt 4 = c.intAt 4 := intOfBytes_congr fun j hj => h _ (by omega)
  have hname : (Vector.ofFn fun k : Fin (fileNameMaxLen + 1) => b (8 + k))
      = Vector.ofFn fun k : Fin (fileNameMaxLen + 1) => c (8 + k) := by
    ext1 k hk
    have hten : fileNameMaxLen + 1 = 10 := rfl
    rw [Vector.getElem_ofFn, Vector.getElem_ofFn]
    exact h _ (by omega)
  unfold ofBytes
  rw [hsector, hname, h 0 (by omega)]

end DirectoryEntry

/-- `Directory`, with a table of `n` entries. -/
structure Directory (n : ℕ) where
  table : Vector DirectoryEntry n
  deriving DecidableEq

namespace Directory

variable {n : ℕ}

/-- The bytes of the table. -/
def toBytes (dir : Directory n) (pad : Buffer) : Buffer := fun o =>
  match dir.table[o / DirectoryEntry.size]? with
  | some e => e.toBytes (fun _ => pad o) (o % DirectoryEntry.size)
  | none => pad o

/-- The table with the given bytes. -/
def ofBytes (n : ℕ) (b : Buffer) : Directory n where
  table := .ofFn fun i => .ofBytes fun o => b (DirectoryEntry.size * i + o)

/-- `tableSize * sizeof(DirectoryEntry)`. -/
def fileSize (n : ℕ) : ℕ := n * DirectoryEntry.size

/-- `Directory::Directory`: no entry is in use, the rest is what `new` returns. -/
def new (n : ℕ) (junk : Buffer) : Directory n where
  table := (ofBytes n junk).table.map fun e => { e with inUse := false }

/-- `Directory::FetchFrom`. -/
def fetchFrom (dir : Directory n) (file : OpenFile) (d : Disk) (pad : Buffer) :
    Option (Directory n) :=
  (file.readAt d (fileSize n) 0).map fun r => ofBytes n ((dir.toBytes pad).copy 0 r.1 r.2)

/-- `Directory::WriteBack`. -/
def writeBack (dir : Directory n) (file : OpenFile) (d : Disk) (pad junk : Buffer) : Option Disk :=
  (file.writeAt d junk (dir.toBytes pad) (fileSize n) 0).map Prod.snd

/-- `table[i].inUse && !strncmp(table[i].name, name, FileNameMaxLen)`. -/
def hits (dir : Directory n) (name : Buffer) (i : ℕ) : Bool :=
  match dir.table[i]? with
  | some e => e.inUse && strncmp e.nameBuffer name fileNameMaxLen == 0
  | none => false

/-- `Directory::FindIndex`. -/
def findIndex (dir : Directory n) (name : Buffer) : Int :=
  match (List.range n).find? (dir.hits name) with
  | some i => i
  | none => -1

/-- `Directory::Find`. -/
def find (dir : Directory n) (name : Buffer) : Int :=
  if dir.findIndex name ≠ -1 then
    match dir.table[(dir.findIndex name).toNat]? with
    | some e => e.sector
    | none => -1
  else -1

/-- `table[i].inUse` is false. -/
def isFree (dir : Directory n) (i : ℕ) : Bool :=
  match dir.table[i]? with
  | some e => !e.inUse
  | none => false

/-- Change one entry of the table. -/
def modify (dir : Directory n) (i : ℕ) (f : DirectoryEntry → DirectoryEntry) : Directory n where
  table := .ofFn fun j => if j.val = i then f dir.table[j] else dir.table[j]

/-- `Directory::Add`. -/
def add (dir : Directory n) (name : Buffer) (newSector : Int) : Bool × Directory n :=
  if dir.findIndex name ≠ -1 then (false, dir)
  else
    match (List.range n).find? dir.isFree with
    | some i => (true, dir.modify i fun e => e.assign name newSector)
    | none => (false, dir)

/-- `Directory::Remove`. -/
def remove (dir : Directory n) (name : Buffer) : Bool × Directory n :=
  if dir.findIndex name = -1 then (false, dir)
  else (true, dir.modify (dir.findIndex name).toNat fun e => { e with inUse := false })

/-! ### The entries in use -/

/-- Entry `i` is in use and is `e`. -/
def Holds (dir : Directory n) (i : ℕ) (e : DirectoryEntry) : Prop :=
  dir.table[i]? = some e ∧ e.inUse = true

/-- Different entries in use have different names. -/
def Distinct (dir : Directory n) : Prop :=
  ∀ i j e e', dir.Holds i e → dir.Holds j e' → nameOf e.nameBuffer = nameOf e'.nameBuffer → i = j

variable {dir : Directory n} {name : Buffer} {i : ℕ} {e : DirectoryEntry}

theorem Holds.lt (h : dir.Holds i e) : i < n := (Vector.getElem?_eq_some_iff.mp h.1).1

theorem Holds.unique {e' : DirectoryEntry} (h : dir.Holds i e) (h' : dir.Holds i e') : e = e' :=
  Option.some.inj (h.1.symm.trans h'.1)

/-- A name is compared with those of the entries in use. -/
theorem hits_eq_true_iff :
    dir.hits name i = true ↔ ∃ e, dir.Holds i e ∧ nameOf e.nameBuffer = nameOf name := by
  unfold hits Holds
  cases dir.table[i]? with
  | none => simp
  | some e => simp [strncmp_eq_zero_iff, nameOf]

/-- **`FindIndex` and `Find`** find an entry in use with the name, if there is one. -/
theorem find_cases (dir : Directory n) (name : Buffer) :
    (∃ i e, dir.Holds i e ∧ nameOf e.nameBuffer = nameOf name ∧ dir.findIndex name = i ∧
      dir.find name = e.sector) ∨
    ((∀ i e, dir.Holds i e → nameOf e.nameBuffer ≠ nameOf name) ∧ dir.findIndex name = -1 ∧
      dir.find name = -1) := by
  cases hfind : (List.range n).find? (dir.hits name) with
  | some i =>
    have hidx : dir.findIndex name = i := by rw [findIndex, hfind]
    obtain ⟨e, he, hname⟩ := hits_eq_true_iff.mp (List.find?_some hfind)
    refine .inl ⟨i, e, he, hname, hidx, ?_⟩
    rw [find, hidx, if_pos (by omega), Int.toNat_natCast, he.1]
  | none =>
    have hidx : dir.findIndex name = -1 := by rw [findIndex, hfind]
    refine .inr ⟨fun i e he hname => ?_, hidx, ?_⟩
    · have hmiss := List.find?_eq_none.mp hfind i (List.mem_range.mpr he.lt)
      exact hmiss (hits_eq_true_iff.mpr ⟨e, he, hname⟩)
    · rw [find, hidx, if_neg (by simp)]

@[simp] theorem modify_getElem? (dir : Directory n) (i : ℕ) (f : DirectoryEntry → DirectoryEntry)
    (j : ℕ) : (dir.modify i f).table[j]? = if j = i then dir.table[j]?.map f
    else dir.table[j]? := by
  unfold modify
  rw [Vector.getElem?_ofFn]
  by_cases hj : j < n
  · rw [dif_pos hj, Vector.getElem?_eq_getElem hj]
    by_cases hji : j = i
    · simp [hji]
    · simp [hji]
  · simp [hj]

/-- **`Add`** of a name that is not there takes a free entry, if there is one. -/
theorem add_cases (hmiss : dir.findIndex name = -1) (newSector : Int) :
    (∃ (i : ℕ) (e : DirectoryEntry), dir.table[i]? = some e ∧ e.inUse = false ∧
      dir.add name newSector = (true, dir.modify i fun e => e.assign name newSector)) ∨
    ((∀ (i : ℕ) e, dir.table[i]? = some e → e.inUse = true) ∧
      dir.add name newSector = (false, dir)) := by
  unfold add
  rw [if_neg (by simpa using hmiss)]
  cases hfree : (List.range n).find? dir.isFree with
  | some i =>
    have hi := List.find?_some hfree
    unfold isFree at hi
    split at hi
    · rename_i e he
      exact .inl ⟨i, e, he, by simpa using hi, rfl⟩
    · cases hi
  | none =>
    refine .inr ⟨fun i e he => ?_, rfl⟩
    have hlt : i < n := (Vector.getElem?_eq_some_iff.mp he).1
    have := List.find?_eq_none.mp hfree i (List.mem_range.mpr hlt)
    simpa [isFree, he] using this

/-- The entries in use after `Add` has taken a free one. -/
theorem holds_add (he : dir.table[i]? = some e) (hfree : e.inUse = false) {newSector : Int} {j : ℕ}
    {e' : DirectoryEntry} :
    (dir.modify i fun e => e.assign name newSector).Holds j e' ↔
      (j = i ∧ e' = e.assign name newSector) ∨ dir.Holds j e' := by
  unfold Holds
  rw [modify_getElem?]
  by_cases hji : j = i
  · subst hji
    have hassigned : (e.assign name newSector).inUse = true := rfl
    rw [if_pos rfl, he]
    simp only [Option.map_some, Option.some.injEq, true_and]
    constructor
    · rintro ⟨rfl, -⟩
      exact .inl rfl
    · rintro (rfl | ⟨rfl, huse⟩)
      · exact ⟨rfl, hassigned⟩
      · rw [hfree] at huse
        cases huse
  · simp [hji]

/-- The entries in use after `Remove` has cleared one. -/
theorem holds_remove {j : ℕ} {e' : DirectoryEntry} :
    (dir.modify i fun e => { e with inUse := false }).Holds j e' ↔ j ≠ i ∧ dir.Holds j e' := by
  unfold Holds
  rw [modify_getElem?]
  by_cases hji : j = i
  · subst hji
    simp only [if_pos, ne_eq, not_true_eq_false, false_and, iff_false]
    rintro ⟨hmap, huse⟩
    obtain ⟨e, -, rfl⟩ := Option.map_eq_some_iff.mp hmap
    cases huse
  · simp [hji]

/-! ### Layout -/

/-- The sectors are values of type `int`. -/
def InRange (dir : Directory n) : Prop :=
  ∀ (i : ℕ) (e : DirectoryEntry), dir.table[i]? = some e → minInt ≤ e.sector ∧ e.sector ≤ maxInt

theorem inRange_ofBytes (b : Buffer) : (ofBytes n b).InRange := by
  intro i e he
  unfold ofBytes at he
  rw [Vector.getElem?_ofFn] at he
  split at he
  · cases he
    simp only [DirectoryEntry.ofBytes]
    exact Buffer.intAt_mem _ 4
  · cases he

theorem inRange_new (junk : Buffer) : (new n junk).InRange := by
  intro i e he
  unfold new at he
  rw [Vector.getElem?_map] at he
  obtain ⟨e', he', rfl⟩ := Option.map_eq_some_iff.mp he
  exact inRange_ofBytes junk i e' he'

/-- A new directory has no entry in use. -/
theorem not_holds_new (junk : Buffer) : ¬ (new n junk).Holds i e := by
  rintro ⟨he, huse⟩
  unfold new at he
  rw [Vector.getElem?_map] at he
  obtain ⟨e', -, rfl⟩ := Option.map_eq_some_iff.mp he
  cases huse

theorem InRange.modify (h : dir.InRange) {f : DirectoryEntry → DirectoryEntry}
    (hf : ∀ e, dir.table[i]? = some e → minInt ≤ (f e).sector ∧ (f e).sector ≤ maxInt) :
    (dir.modify i f).InRange := by
  intro j e he
  rw [modify_getElem?] at he
  split at he
  · rename_i hji
    subst hji
    obtain ⟨e', he', rfl⟩ := Option.map_eq_some_iff.mp he
    exact hf e' he'
  · exact h j e he

/-- The table only depends on its bytes. -/
theorem ofBytes_congr {b c : Buffer} (h : ∀ o < fileSize n, b o = c o) :
    ofBytes n b = ofBytes n c := by
  have hsize : DirectoryEntry.size = 20 := rfl
  unfold ofBytes
  congr 1
  ext1 i hi
  rw [Vector.getElem_ofFn, Vector.getElem_ofFn]
  apply DirectoryEntry.ofBytes_congr
  intro o ho
  apply h
  unfold fileSize
  rw [hsize] at *
  omega

/-- **Round trip.** -/
theorem ofBytes_toBytes (h : dir.InRange) (pad : Buffer) : ofBytes n (dir.toBytes pad) = dir := by
  have hsize : DirectoryEntry.size = 20 := rfl
  have htable : (ofBytes n (dir.toBytes pad)).table = dir.table := by
    ext1 i hi
    obtain ⟨hlo, hhi⟩ := h i dir.table[i] (Vector.getElem?_eq_getElem hi)
    unfold ofBytes
    rw [Vector.getElem_ofFn]
    -- The bytes of entry `i` start at `20 * i`.
    rw [← DirectoryEntry.ofBytes_toBytes hlo hhi fun o => pad (DirectoryEntry.size * i + o)]
    apply DirectoryEntry.ofBytes_congr
    intro o ho
    have hdiv : (DirectoryEntry.size * i + o) / DirectoryEntry.size = i := by rw [hsize] at *; omega
    have hmod : (DirectoryEntry.size * i + o) % DirectoryEntry.size = o := by rw [hsize] at *; omega
    unfold toBytes
    rw [hdiv, hmod, Vector.getElem?_eq_getElem hi]
    rfl
  exact congrArg Directory.mk htable

variable {f : OpenFile}

/-- The directory that is read is the one stored in the file. -/
theorem fetchFrom_eq (hwf : f.hdr.WellFormed) (hlen : f.hdr.length = fileSize n) (d : Disk)
    (pad : Buffer) : dir.fetchFrom f d pad = some (ofBytes n (fileByte d f.hdr)) := by
  obtain ⟨bytes, hread, hval⟩ := OpenFile.readAt_all hwf d
  rw [hlen] at hread hval
  rw [fetchFrom, hread, Option.map_some]
  congr 1
  apply ofBytes_congr
  intro o ho
  rw [Buffer.copy_of_mem _ _ (Nat.zero_le o) (by omega), Nat.sub_zero]
  exact hval o ho

/-- The directory that is written is the one stored in the file afterwards. -/
theorem writeBack_eq (hwf : f.hdr.WellFormed) (hlen : f.hdr.length = fileSize n)
    (hr : dir.InRange) (d : Disk) (pad junk : Buffer) :
    ∃ d', dir.writeBack f d pad junk = some d' ∧ (∀ s, s ∉ f.hdr.sectors → d' s = d s) ∧
      ofBytes n (fileByte d' f.hdr) = dir := by
  obtain ⟨d', hwrite, hother, hval⟩ := OpenFile.writeAt_all hwf d junk (dir.toBytes pad)
  rw [hlen] at hwrite hval
  refine ⟨d', by rw [writeBack, hwrite]; rfl, hother, ?_⟩
  rw [ofBytes_congr hval, ofBytes_toBytes hr]

end Directory

end Nachos.FileSys
