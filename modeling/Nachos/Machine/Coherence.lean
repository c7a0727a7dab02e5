import Nachos.Base.Footprint
import Nachos.Machine.Mapping

namespace Nachos.Machine

open Base

/-!
# Machine — memory accesses of different sizes

`Translate`, `ReadMem` and `WriteMem` statement by statement, over a state that every assignment to
a table entry changes at its place; so what is left behind an exception is what the statements
before it have done.

* `translateAddress_eq`, `readAccess_eq`, `writeAccess_eq` — the statements compute `translate`,
  `readMem` and `writeMem`, and nothing has changed at an exception;
* `memory_coherent` — over a page table without shared frames, user memory is one array of bytes:
  bytes, half words and words that are written can be read in any other size.
-/

/-! ### The accesses, statement by statement -/

/-- What an access to user memory reads and changes. -/
structure Memory where
  tables : Tables
  mainMemory : ℕ → UInt8

/-- Why an access does not return a value. -/
inductive AccessStop where
  | exception (which : ExceptionType)
  /-- A failed assertion, or a read past the page table. -/
  | assertion
  deriving DecidableEq

/-- A computation over user memory. -/
abbrev Access := EStateM AccessStop Memory

/-- The variable `entry` of `Translate`, which points into one of the tables. -/
inductive EntryPtr where
  | page (i : ℕ)
  | tlb (i : ℕ)

namespace Tables

/-- `*entry`. -/
def deref (t : Tables) : EntryPtr → Option TranslationEntry
  | .page i => t.pageTable.bind (·[i]?)
  | .tlb i => t.tlb.bind (·[i]?)

/-- `*entry = e`. -/
def assign (t : Tables) (entry : EntryPtr) (e : TranslationEntry) : Tables :=
  match entry with
  | .page i => { t with pageTable := t.pageTable.map (·.set i e) }
  | .tlb i => { t with tlb := t.tlb.map (·.set i e) }

end Tables

/-- Read `*entry`. -/
def readEntry (entry : EntryPtr) : Access TranslationEntry := fun s =>
  match s.tables.deref entry with
  | some e => .ok e s
  | none => .error .assertion s

/-- An assignment to a field of `*entry`. -/
def setEntry (entry : EntryPtr) (f : TranslationEntry → TranslationEntry) : Access Unit := do
  let e ← readEntry entry
  modify fun s => { s with tables := s.tables.assign entry (f e) }

/-- The part of `Translate` that sets `entry`. -/
def findEntry (vpn : ℕ) : Access EntryPtr := do
  let s ← get
  match s.tables.tlb, s.tables.pageTable with
  | none, some _ =>
    if vpn ≥ s.tables.pageTableSize then throw (.exception .addressErrorException)
    else do
      let e ← readEntry (.page vpn)
      if e.valid then return .page vpn else throw (.exception .pageFaultException)
  | some tlb, none =>
    match tlb.findIdx? fun e => e.valid && e.virtualPage == (vpn : Int) with
    | some i => return .tlb i
    | none => throw (.exception .pageFaultException)
  | _, _ => throw .assertion

/-- The part of `Translate` behind it: the bits of the entry are set one after the other, and before
the last assertion. -/
def useEntry (entry : EntryPtr) (offset size : ℕ) (writing : Bool) : Access ℕ := do
  let e ← readEntry entry
  if e.readOnly && writing then throw (.exception .readOnlyException)
  else if e.pageFrame ≥ numPhysPages then throw (.exception .busErrorException)
  else do
    setEntry entry fun e => { e with use := true }
    if writing then setEntry entry fun e => { e with dirty := true } else pure ()
    let physAddr := e.pageFrame * pageSize + offset
    if physAddr + size ≤ memorySize then return physAddr else throw .assertion

/-- `Machine::Translate`. -/
def translateAddress (virtAddr : BitVec 32) (size : ℕ) (writing : Bool) : Access ℕ := do
  if misaligned virtAddr size then throw (.exception .addressErrorException)
  else do
    let entry ← findEntry (virtAddr.toNat / pageSize)
    useEntry entry (virtAddr.toNat % pageSize) size writing

/-- `Machine::ReadMem`. -/
def readAccess (addr : BitVec 32) (size : ℕ) : Access Int := do
  let physAddr ← translateAddress addr size false
  let s ← get
  match size with
  | 1 => return Int.bmod (s.mainMemory physAddr).toNat 256
  | 2 => return ((s.mainMemory physAddr).toNat + 256 * (s.mainMemory (physAddr + 1)).toNat : ℕ)
  | 4 => return intOfBytes fun j => s.mainMemory (physAddr + j)
  | _ => throw .assertion

/-- `Machine::WriteMem`. -/
def writeAccess (addr : BitVec 32) (size : ℕ) (value : Int) : Access Unit := do
  let physAddr ← translateAddress addr size true
  if size = 1 ∨ size = 2 ∨ size = 4 then
    modify fun s => { s with mainMemory := storeBytes s.mainMemory physAddr size value }
  else throw .assertion

/-! ### The statements compute the functions -/

section Statements

variable {s : Memory} {entry : EntryPtr} {e : TranslationEntry}

/-- A computation gives what a function gives; at an exception nothing has changed. -/
def Computes {α β : Type} (c : EStateM.Result AccessStop Memory β) (s : Memory)
    (f : α → β × Memory) :
    Option (Except ExceptionType α) → Prop
  | some (.ok a) => c = .ok (f a).1 (f a).2
  | some (.error which) => c = .error (.exception which) s
  | none => ∃ s', c = .error .assertion s'

/-- A computation goes on behind one that has given its value. -/
theorem Computes.bind {α β γ δ : Type} {c : Access β} {f : α → β × Memory} {k : β → Access γ}
    {g : δ → γ × Memory} {r : Option (Except ExceptionType α)} {q : Option (Except ExceptionType δ)}
    (hc : Computes (c s) s f r) (hnone : r = none → q = none)
    (herror : ∀ which, r = some (.error which) → q = some (.error which))
    (hok : ∀ a, r = some (.ok a) → Computes (k (f a).1 (f a).2) s g q) :
    Computes ((c >>= k) s) s g q := by
  cases r with
  | none =>
    obtain ⟨s', hs'⟩ := hc
    rw [hnone rfl]
    exact ⟨s', bind_error hs'⟩
  | some r =>
    cases r with
    | error which =>
      rw [herror which rfl]
      exact bind_error hc
    | ok a =>
      rw [bind_ok hc]
      exact hok a rfl

theorem readEntry_eq (h : s.tables.deref entry = some e) : readEntry entry s = .ok e s := by
  rw [readEntry, h]

theorem setEntry_eq (h : s.tables.deref entry = some e) (f : TranslationEntry → TranslationEntry) :
    setEntry entry f s = .ok () { s with tables := s.tables.assign entry (f e) } := by
  rw [setEntry, bind_ok (readEntry_eq h)]
  rfl

/-- Setting the two bits one after the other. -/
theorem setBits_eq (h : s.tables.deref entry = some e) (writing : Bool) {β : Type}
    (k : Unit → Access β) :
    (do
      setEntry entry fun e => { e with use := true }
      let r ← if writing then setEntry entry fun e => { e with dirty := true } else pure ()
      k r) s = k () { s with tables := s.tables.assign entry (e.touch writing) } := by
  rw [bind_ok (setEntry_eq h _)]
  cases writing with
  | false =>
    show k () _ = _
    unfold TranslationEntry.touch
    rw [Bool.or_false]
  | true =>
    have hassign : (s.tables.assign entry { e with use := true }).deref entry
        = some { e with use := true } := by
      cases entry with
      | page i =>
        obtain ⟨table, htable, hi⟩ := Option.bind_eq_some_iff.mp h
        simp [Tables.deref, Tables.assign, htable, (List.getElem?_eq_some_iff.mp hi).1]
      | tlb i =>
        obtain ⟨tlb, htlb, hi⟩ := Option.bind_eq_some_iff.mp h
        simp [Tables.deref, Tables.assign, htlb, (List.getElem?_eq_some_iff.mp hi).1]
    simp only [if_true]
    rw [bind_ok (setEntry_eq hassign _)]
    unfold TranslationEntry.touch
    rw [Bool.or_true]
    congr 2
    cases entry with
    | page i => simp [Tables.assign, Option.map_map, Function.comp_def]
    | tlb i => simp [Tables.assign, Option.map_map, Function.comp_def]

theorem useEntry_eq (h : s.tables.deref entry = some e) (offset size : ℕ) (writing : Bool) :
    Computes (useEntry entry offset size writing s) s (fun r => (r.1, { s with tables := r.2 }))
      (translateEntry e offset size writing (s.tables.assign entry)) := by
  unfold useEntry translateEntry
  rw [bind_ok (readEntry_eq h)]
  by_cases hro : (e.readOnly && writing) = true
  · rw [if_pos hro, if_pos hro]
    rfl
  · rw [if_neg hro, if_neg hro]
    by_cases hframe : e.pageFrame ≥ numPhysPages
    · rw [if_pos hframe, if_pos hframe]
      rfl
    · rw [if_neg hframe, if_neg hframe, setBits_eq h]
      by_cases hin : e.pageFrame * pageSize + offset + size ≤ memorySize
      · simp only [if_pos hin]
        rfl
      · simp only [if_neg hin]
        exact ⟨_, rfl⟩

theorem translateAddress_eq (s : Memory) (virtAddr : BitVec 32) (size : ℕ) (writing : Bool) :
    Computes (translateAddress virtAddr size writing s) s (fun r => (r.1, { s with tables := r.2 }))
      (translate s.tables virtAddr size writing) := by
  obtain ⟨⟨tlb, pageTable, n⟩, mem⟩ := s
  unfold translateAddress translate
  by_cases hal : misaligned virtAddr size = true
  · rw [if_pos hal, if_pos hal]
    rfl
  · rw [if_neg hal, if_neg hal]
    cases tlb with
    | none =>
      cases pageTable with
      | none => exact ⟨_, rfl⟩
      | some table =>
        -- The page table: `entry` is an index into it.
        simp only [findEntry, bind_assoc]
        rw [get_bind]
        simp only
        by_cases hlt : virtAddr.toNat / pageSize ≥ n
        · rw [if_pos hlt, if_pos hlt]
          rfl
        · rw [if_neg hlt, if_neg hlt]
          cases he : table[virtAddr.toNat / pageSize]? with
          | none =>
            refine ⟨⟨⟨none, some table, n⟩, mem⟩, ?_⟩
            rw [bind_assoc, bind_error]
            simp [readEntry, Tables.deref, he]
          | some e =>
            have hderef : (Tables.mk none (some table) n).deref (.page (virtAddr.toNat / pageSize))
                = some e := he
            rw [bind_assoc, bind_ok (readEntry_eq hderef)]
            by_cases hvalid : e.valid = true
            · simp only [if_pos hvalid]
              exact useEntry_eq hderef _ size writing
            · simp only [if_neg hvalid]
              rfl
    | some tlb =>
      cases pageTable with
      | some table => exact ⟨_, rfl⟩
      | none =>
        -- The TLB: `entry` is the first one that matches.
        simp only [findEntry, bind_assoc]
        rw [get_bind]
        simp only
        cases hi : tlb.findIdx? fun e =>
          e.valid && e.virtualPage == ((virtAddr.toNat / pageSize : ℕ) : Int) with
        | none => rfl
        | some i =>
          have hlt := (List.findIdx?_eq_some_iff_findIdx_eq.mp hi).1
          have he : tlb[i]? = some tlb[i] := List.getElem?_eq_getElem hlt
          have hderef : (Tables.mk (some tlb) none n).deref (.tlb i) = some tlb[i] := he
          simp only [he]
          exact useEntry_eq hderef _ size writing

theorem translateAddress_eq_ok {s s' : Memory} {virtAddr : BitVec 32} {size : ℕ} {writing : Bool}
    {x : ℕ} (h : translateAddress virtAddr size writing s = .ok x s') :
    ∃ t', translate s.tables virtAddr size writing = some (.ok (x, t')) := by
  have hcomp := translateAddress_eq s virtAddr size writing
  rw [h] at hcomp
  cases htr : translate s.tables virtAddr size writing with
  | none =>
    rw [htr] at hcomp
    obtain ⟨s'', hs''⟩ := hcomp
    cases hs''
  | some r =>
    rw [htr] at hcomp
    cases r with
    | error which => cases hcomp
    | ok r =>
      obtain ⟨y, t'⟩ := r
      cases hcomp
      exact ⟨t', rfl⟩

theorem readAccess_eq (s : Memory) (addr : BitVec 32) (size : ℕ) :
    Computes (readAccess addr size s) s (fun r => (r.1, { s with tables := r.2 }))
      (readMem s.tables s.mainMemory addr size) := by
  unfold readMem
  apply (translateAddress_eq s addr size false).bind
  · intro h
    rw [h]
  · intro which h
    rw [h]
  · intro r h
    rw [h, get_bind]
    by_cases h1 : size = 1
    · subst h1
      simp only [Computes]
      rfl
    · by_cases h2 : size = 2
      · subst h2
        simp only [Computes]
        rfl
      · by_cases h4 : size = 4
        · subst h4
          simp only [Computes]
          rfl
        · simp only
          exact ⟨_, rfl⟩

theorem writeAccess_eq (s : Memory) (addr : BitVec 32) (size : ℕ) (value : Int) :
    Computes (writeAccess addr size value s) s (fun r => ((), ⟨r.2, r.1⟩))
      (writeMem s.tables s.mainMemory addr size value) := by
  unfold writeMem
  apply (translateAddress_eq s addr size true).bind
  · intro h
    rw [h]
  · intro which h
    rw [h]
  · intro r h
    rw [h]
    by_cases hsize : size = 1 ∨ size = 2 ∨ size = 4
    · simp only [if_pos hsize]
      rfl
    · simp only [if_neg hsize]
      exact ⟨_, rfl⟩

end Statements

/-! ### User memory as one array of bytes -/

/-- The sizes of an access. -/
inductive Width where
  | byte | half | word
  deriving DecidableEq

namespace Width

/-- The number of bytes. -/
def size : Width → ℕ
  | byte => 1
  | half => 2
  | word => 4

/-- The little-endian value of the bytes `b 0`, `b 1`, ...: a byte is signed, a half word is not. -/
def value (w : Width) (b : ℕ → UInt8) : Int :=
  match w with
  | byte => Int.bmod (b 0).toNat 256
  | half => ((b 0).toNat + 256 * (b 1).toNat : ℕ)
  | word => intOfBytes b

theorem size_cases (w : Width) : w.size = 1 ∨ w.size = 2 ∨ w.size = 4 := by
  cases w <;> decide

end Width

/-- A page table whose valid entries have different frames. -/
structure DistinctTable where
  entries : List TranslationEntry
  /-- `pageTableSize`. -/
  size : ℕ
  size_le : size ≤ entries.length
  distinct : ∀ {i j : ℕ} {e e' : TranslationEntry}, entries[i]? = some e → entries[j]? = some e' →
    e.valid = true → e'.valid = true → e.pageFrame = e'.pageFrame → i = j

namespace DistinctTable

variable (T : DistinctTable)

/-- The machine with this page table. -/
def tables : Tables := ⟨none, some T.entries, T.size⟩

/-- The physical address of a virtual one. -/
def physAddr (v : ℕ) : Option ℕ :=
  (T.tables.entry (v / pageSize)).map fun e => e.pageFrame * pageSize + v % pageSize

/-- The user byte at a virtual address. -/
def byteAt (mem : ℕ → UInt8) (v : ℕ) : Option UInt8 := (T.physAddr v).map mem

variable {T}

/-- No two virtual addresses have the same byte. -/
theorem physAddr_inj {v w x : ℕ} (hv : T.physAddr v = some x) (hw : T.physAddr w = some x) :
    v = w := by
  obtain ⟨e, he, hx⟩ := Option.map_eq_some_iff.mp hv
  obtain ⟨e', he', hx'⟩ := Option.map_eq_some_iff.mp hw
  have hentry : ∀ {p : ℕ} {e : TranslationEntry}, T.tables.entry p = some e →
      T.entries[p]? = some e ∧ e.valid = true := by
    intro p e he
    have hif : (if p ≥ T.size then none else T.entries[p]?.filter (·.valid)) = some e := he
    split at hif
    · cases hif
    · exact Option.filter_eq_some_iff.mp hif
  obtain ⟨hget, hvalid⟩ := hentry he
  obtain ⟨hget', hvalid'⟩ := hentry he'
  have hframe : e.pageFrame = e'.pageFrame ∧ v % pageSize = w % pageSize := by
    unfold pageSize at hx hx' ⊢
    omega
  have hpage := T.distinct hget hget' hvalid hvalid' hframe.1
  rw [← Nat.div_add_mod v pageSize, ← Nat.div_add_mod w pageSize, hpage, hframe.2]

end DistinctTable

/-! ### One access -/

section OneAccess

variable {T : DistinctTable} {t t' : Tables} {a : BitVec 32} {w : Width} {writing : Bool} {x : ℕ}

/-- The assertion at the end of `Translate`. -/
theorem frame_add_le {f offset size : ℕ} (hf : f < numPhysPages) (hoff : offset + size ≤ pageSize) :
    f * pageSize + offset + size ≤ memorySize := by
  unfold numPhysPages at hf
  unfold memorySize numPhysPages
  unfold pageSize at hoff ⊢
  omega

/-- The machine still has this page table, with other bits. -/
structure DistinctTable.Installed (T : DistinctTable) (t : Tables) : Prop where
  same : T.tables.Same t
  shape : ∃ entries, t = ⟨none, some entries, T.size⟩ ∧ T.size ≤ entries.length

theorem DistinctTable.installed (T : DistinctTable) : T.Installed T.tables :=
  ⟨fun _ => rfl, T.entries, rfl, T.size_le⟩

/-- **A successful access** has its bytes at consecutive addresses in one frame of memory, and
leaves the page table. -/
theorem DistinctTable.Installed.translate (h : T.Installed t)
    (htr : translate t a w.size writing = some (.ok (x, t'))) :
    T.Installed t' ∧ a.toNat % pageSize + w.size ≤ pageSize ∧
      x % pageSize = a.toNat % pageSize ∧ x + w.size ≤ memorySize ∧
      ∀ j < w.size, T.physAddr (a.toNat + j) = some (x + j) := by
  obtain ⟨hal, hsame, e, he, -, hframe, rfl⟩ := translate_eq_some_ok htr
  have hoff := offset_add_size_le w.size_cases hal
  refine ⟨⟨h.same.trans hsame, ?_⟩, hoff, ?_, frame_add_le hframe hoff, fun j hj => ?_⟩
  · obtain ⟨entries, rfl, hle⟩ := h.shape
    obtain ⟨-, _, e', ⟨⟩, -, -, -, rfl⟩ := translate_eq_ok htr
    exact ⟨_, rfl, by rw [List.length_set]; exact hle⟩
  · rw [Nat.add_comm, Nat.add_mul_mod_self_right, Nat.mod_mod]
  · -- The page of the other bytes is the page of the first one, whose frame was there before.
    have hpage : (a.toNat + j) / pageSize = a.toNat / pageSize ∧
        (a.toNat + j) % pageSize = a.toNat % pageSize + j := by
      unfold pageSize at hoff ⊢
      omega
    have hkey := h.same (a.toNat / pageSize)
    rw [he, Option.map_some] at hkey
    obtain ⟨e₀, he₀, heq⟩ := Option.map_eq_some_iff.mp hkey.symm
    rw [Prod.mk.injEq] at heq
    rw [physAddr, hpage.1, hpage.2, he₀, Option.map_some, heq.2, Nat.add_assoc]

/-- No assertion fails, and no entry behind the table is read. -/
theorem DistinctTable.Installed.translate_ne_none (h : T.Installed t) (a : BitVec 32) (w : Width)
    (writing : Bool) : Machine.translate t a w.size writing ≠ none := by
  obtain ⟨entries, rfl, hle⟩ := h.shape
  unfold Machine.translate
  by_cases hal : misaligned a w.size = true
  · rw [if_pos hal]
    exact Option.some_ne_none _
  · rw [if_neg hal]
    have hoff := offset_add_size_le w.size_cases (Bool.eq_false_iff.mpr hal)
    simp only
    split
    · exact Option.some_ne_none _
    · rename_i hlt
      obtain ⟨e, he⟩ : ∃ e, entries[a.toNat / pageSize]? = some e :=
        ⟨_, List.getElem?_eq_getElem (by omega)⟩
      rw [he]
      simp only
      split
      · unfold translateEntry
        split
        · exact Option.some_ne_none _
        · split
          · exact Option.some_ne_none _
          · rename_i hframe
            simp only
            rw [if_pos (frame_add_le (Nat.not_le.mp hframe) hoff)]
            exact Option.some_ne_none _
      · exact Option.some_ne_none _

theorem DistinctTable.Installed.translate_cases (h : T.Installed t) (a : BitVec 32) (w : Width)
    (writing : Bool) :
    (∃ x t', Machine.translate t a w.size writing = some (.ok (x, t'))) ∨
      ∃ which, Machine.translate t a w.size writing = some (.error which) := by
  obtain ⟨r, hr⟩ := Option.ne_none_iff_exists'.mp (h.translate_ne_none a w writing)
  cases r with
  | error which => exact .inr ⟨which, hr⟩
  | ok r => exact .inl ⟨r.1, r.2, hr⟩

theorem DistinctTable.byteAt_store (hx : ∀ j < w.size, T.physAddr (a.toNat + j) = some (x + j))
    (mem : ℕ → UInt8) (value : Int) (v : ℕ) : T.byteAt (storeBytes mem x w.size value) v =
      if a.toNat ≤ v ∧ v < a.toNat + w.size then some (intByte value (v - a.toNat))
      else T.byteAt mem v := by
  unfold byteAt
  by_cases hin : a.toNat ≤ v ∧ v < a.toNat + w.size
  · have hv := hx (v - a.toNat) (by omega)
    rw [Nat.add_sub_cancel' hin.1] at hv
    rw [if_pos hin, hv, Option.map_some, storeBytes, if_pos (by omega), Nat.add_sub_cancel_left]
  · rw [if_neg hin]
    apply Option.map_congr
    intro y hy
    -- A byte that is stored is the byte of one of the addresses of the access.
    rw [storeBytes, if_neg]
    rintro ⟨hlo, hhi⟩
    have hj := hx (y - x) (by omega)
    rw [Nat.add_sub_cancel' hlo] at hj
    have heq := physAddr_inj hy hj
    omega

end OneAccess

/-! ### Runs -/

/-- A call of `ReadMem` or `WriteMem`. -/
inductive MemOp where
  | read (addr : BitVec 32) (width : Width)
  | write (addr : BitVec 32) (width : Width) (value : Int)

/-- A call of `WriteMem` that has succeeded. -/
structure Written where
  addr : ℕ
  size : ℕ
  value : Int

/-- The byte that was last written to a virtual address. -/
def lastByte : List Written → ℕ → Option UInt8
  | [], _ => none
  | wr :: log, v =>
    if wr.addr ≤ v ∧ v < wr.addr + wr.size then some (intByte wr.value (v - wr.addr))
      else lastByte log v

/-- What a call leaves, with the successful writes so far, latest first. -/
def MemOp.run (s : Memory × List Written) : MemOp → Memory × List Written
  | .read addr width =>
    match readAccess addr width.size s.1 with
    | .ok _ s' => (s', s.2)
    | .error _ s' => (s', s.2)
  | .write addr width value =>
    match writeAccess addr width.size value s.1 with
    | .ok _ s' => (s', ⟨addr.toNat, width.size, value⟩ :: s.2)
    | .error _ s' => (s', s.2)

/-- A sequence of calls. -/
def runOps (s : Memory × List Written) (ops : List MemOp) : Memory × List Written :=
  ops.foldl MemOp.run s

section Runs

variable {T : DistinctTable} {mem : ℕ → UInt8} {s : Memory} {log : List Written}

/-- Every user byte is the one last written, or the one that was there before. -/
structure Coherent (T : DistinctTable) (mem : ℕ → UInt8) (s : Memory) (log : List Written) :
    Prop where
  installed : T.Installed s.tables
  bytes : ∀ v, T.byteAt s.mainMemory v = (T.byteAt mem v).map (lastByte log v).getD

theorem readMem_of_translate {t t' : Tables} {a : BitVec 32} {w : Width} {x : ℕ}
    (h : translate t a w.size false = some (.ok (x, t'))) (mem : ℕ → UInt8) :
    readMem t mem a w.size = some (.ok (w.value fun j => mem (x + j), t')) := by
  unfold readMem
  rw [h]
  cases w
  all_goals
    dsimp only [Width.size, Width.value]
    rfl

theorem writeMem_of_translate {t t' : Tables} {a : BitVec 32} {w : Width} {x : ℕ}
    (h : translate t a w.size true = some (.ok (x, t'))) (mem : ℕ → UInt8) (value : Int) :
    writeMem t mem a w.size value = some (.ok (storeBytes mem x w.size value, t')) := by
  unfold writeMem
  rw [h]
  simp only [if_pos w.size_cases]

/-- `ReadMem` from a table without shared frames: a value, or an exception and no change. -/
theorem DistinctTable.Installed.readAccess (h : T.Installed s.tables) (a : BitVec 32) (w : Width) :
    (∃ x t', Machine.translate s.tables a w.size false = some (.ok (x, t')) ∧
      Machine.readAccess a w.size s = .ok (w.value fun j => s.mainMemory (x + j))
        { s with tables := t' }) ∨
    ∃ which, Machine.readAccess a w.size s = .error (.exception which) s := by
  have hcomp := readAccess_eq s a w.size
  rcases h.translate_cases a w false with ⟨x, t', htr⟩ | ⟨which, htr⟩
  · rw [readMem_of_translate htr] at hcomp
    exact .inl ⟨x, t', htr, hcomp⟩
  · unfold readMem at hcomp
    rw [htr] at hcomp
    exact .inr ⟨which, hcomp⟩

theorem DistinctTable.Installed.writeAccess (h : T.Installed s.tables) (a : BitVec 32) (w : Width)
    (value : Int) :
    (∃ x t', Machine.translate s.tables a w.size true = some (.ok (x, t')) ∧
      Machine.writeAccess a w.size value s = .ok () ⟨t', storeBytes s.mainMemory x w.size value⟩) ∨
    ∃ which, Machine.writeAccess a w.size value s = .error (.exception which) s := by
  have hcomp := writeAccess_eq s a w.size value
  rcases h.translate_cases a w true with ⟨x, t', htr⟩ | ⟨which, htr⟩
  · rw [writeMem_of_translate htr] at hcomp
    exact .inl ⟨x, t', htr, hcomp⟩
  · unfold writeMem at hcomp
    rw [htr] at hcomp
    exact .inr ⟨which, hcomp⟩

/-- **One call** keeps user memory coherent. -/
theorem Coherent.run (h : Coherent T mem s log) (op : MemOp) :
    Coherent T mem (op.run (s, log)).1 (op.run (s, log)).2 := by
  cases op with
  | read a w =>
    unfold MemOp.run
    rcases h.installed.readAccess a w with ⟨x, t', htr, hread⟩ | ⟨which, hread⟩
    · simp only [hread]
      exact ⟨(h.installed.translate htr).1, h.bytes⟩
    · simp only [hread]
      exact h
  | write a w value =>
    unfold MemOp.run
    rcases h.installed.writeAccess a w value with ⟨x, t', htr, hwrite⟩ | ⟨which, hwrite⟩
    · simp only [hwrite]
      obtain ⟨hinst, -, -, -, hx⟩ := h.installed.translate htr
      refine ⟨hinst, fun v => ?_⟩
      rw [DistinctTable.byteAt_store hx]
      by_cases hin : a.toNat ≤ v ∧ v < a.toNat + w.size
      · -- The byte is a new one; it was mapped before.
        have hv := hx (v - a.toNat) (by omega)
        rw [Nat.add_sub_cancel' hin.1] at hv
        rw [if_pos hin, DistinctTable.byteAt, hv, Option.map_some, Option.map_some, lastByte,
          if_pos hin, Option.getD_some]
      · rw [if_neg hin, h.bytes]
        simp only [lastByte, if_neg hin]
    · simp only [hwrite]
      exact h

/-- **Runs** keep user memory coherent. -/
theorem Coherent.runOps (h : Coherent T mem s log) (ops : List MemOp) :
    Coherent T mem (runOps (s, log) ops).1 (runOps (s, log) ops).2 := by
  induction ops generalizing s log with
  | nil => exact h
  | cons op ops ih => exact ih (h.run op)

/-- **Memory accesses are coherent.** Over a page table whose valid entries have different frames,
after every sequence of reads and writes of any sizes: a read gives the value of the bytes last
written to its addresses, or of those that were there before; an access that succeeds stays in its
page and in main memory; and every other access raises an exception and changes nothing. -/
theorem memory_coherent (T : DistinctTable) (mem : ℕ → UInt8) (ops : List MemOp) (a : BitVec 32)
    (w : Width) (value : Int) :
    let s := (runOps (⟨T.tables, mem⟩, []) ops).1
    let log := (runOps (⟨T.tables, mem⟩, []) ops).2
    (∀ v s', readAccess a w.size s = .ok v s' → ∃ b : ℕ → UInt8, v = w.value b ∧
      ∀ j < w.size, (lastByte log (a.toNat + j)).or (T.byteAt mem (a.toNat + j)) = some (b j)) ∧
    (∀ writing x s', translateAddress a w.size writing s = .ok x s' →
      a.toNat % pageSize + w.size ≤ pageSize ∧ x % pageSize = a.toNat % pageSize ∧
      x + w.size ≤ memorySize) ∧
    ((∃ v s', readAccess a w.size s = .ok v s') ∨
      ∃ which, readAccess a w.size s = .error (.exception which) s) ∧
    ((∃ s', writeAccess a w.size value s = .ok () s') ∨
      ∃ which, writeAccess a w.size value s = .error (.exception which) s) := by
  intro s log
  have hstart : Coherent T mem ⟨T.tables, mem⟩ [] := by
    refine ⟨T.installed, fun v => ?_⟩
    cases T.byteAt mem v <;> rfl
  have hcoh : Coherent T mem s log := hstart.runOps ops
  have hread := hcoh.installed.readAccess a w
  refine ⟨fun v s' hv => ?_, fun writing x s' hx => ?_, ?_, ?_⟩
  · rcases hread with ⟨x, t', htr, hread⟩ | ⟨which, hread⟩
    · rw [hread] at hv
      cases hv
      obtain ⟨-, -, -, -, hphys⟩ := hcoh.installed.translate htr
      refine ⟨_, rfl, fun j hj => ?_⟩
      -- The byte that is read is a user byte, so it is the one last written.
      have hbyte := hcoh.bytes (a.toNat + j)
      rw [DistinctTable.byteAt, DistinctTable.byteAt, hphys j hj, Option.map_some, Option.map_some,
        Option.map_some, Option.some.injEq] at hbyte
      rw [DistinctTable.byteAt, hphys j hj, Option.map_some, hbyte]
      cases lastByte log (a.toNat + j) <;> rfl
    · rw [hread] at hv
      cases hv
  · obtain ⟨t', htr⟩ := translateAddress_eq_ok hx
    obtain ⟨-, hoff, hmod, hle, -⟩ := hcoh.installed.translate htr
    exact ⟨hoff, hmod, hle⟩
  · rcases hread with ⟨x, t', -, hread⟩ | hread
    · exact .inl ⟨_, _, hread⟩
    · exact .inr hread
  · rcases hcoh.installed.writeAccess a w value with ⟨x, t', -, hwrite⟩ | hwrite
    · exact .inl ⟨_, hwrite⟩
    · exact .inr hwrite

end Runs

end Nachos.Machine
