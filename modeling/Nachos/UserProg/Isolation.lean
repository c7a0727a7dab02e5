import Nachos.Base.Ownership
import Nachos.Base.Transition
import Nachos.UserProg.AddrSpace

namespace Nachos.UserProg

open Base Lib Machine Function

/-!
# UserProg — isolation of address spaces

The machine's memory with any number of `AddrSpace` objects: they are created, loaded and
destroyed, one of them is installed in the machine by `RestoreState`, and the user program
reads and writes through it.

The machine holds a pointer to the installed page table. `TablePtr` says what it points to;
after the destruction of the installed address space it dangles, and an access through it is
a fault of the model.

`MemState.Inv` is the ownership invariant of `Ownership.lean`, with the live address spaces as
parties and the frames of physical memory as units.
-/

variable {P : Type*} [DecidableEq P]

/-! ### The model -/

/-- What `machine->pageTable` points to. -/
inductive TablePtr (P : Type*) where
  | null
  /-- The page table of a live address space. -/
  | table (p : P)
  /-- A page table that has been deleted. -/
  | freed
  deriving DecidableEq

/-- Physical memory, the address spaces and the machine's translation registers. -/
structure MemState (P : Type*) where
  phys : PhysMem
  /-- The `AddrSpace` objects that have been created and not destroyed. -/
  live : Finset P
  space : P → AddrSpace
  pageTable : TablePtr P
  pageTableSize : ℕ

/-- The operations. -/
inductive MemAction (P : Type*) where
  /-- `new AddrSpace`. -/
  | new (p : P)
  /-- `Load` on a fresh object; `exe` is what opening the file gives. -/
  | load (p : P) (exe : Option HostFile) (junk : ℕ → UInt8)
  /-- The destructor. -/
  | destroy (p : P)
  /-- A context switch to `p`. -/
  | restoreState (p : P)
  | readMem (addr : BitVec 32) (size : ℕ)
  | writeMem (addr : BitVec 32) (size : ℕ) (value : Int)

namespace MemState

/-- `AddrSpace::RestoreState`. -/
def restoreState (s : MemState P) (p : P) : MemState P :=
  { s with
    pageTable := if (s.space p).pageTable.isSome then .table p else .null
    pageTableSize := (s.space p).numPages }

/-- The translation registers, unless the page table they name is gone. -/
def tables (s : MemState P) : Option Tables :=
  match s.pageTable with
  | .null => some ⟨none, none, s.pageTableSize⟩
  | .table p => some ⟨none, (s.space p).pageTable, s.pageTableSize⟩
  | .freed => none

/-- Store the page table back after a translation has set its use and dirty bits. -/
def putTables (s : MemState P) (m : Tables) : MemState P :=
  match s.pageTable with
  | .table p =>
    { s with space := update s.space p { s.space p with pageTable := m.pageTable } }
  | _ => s

/-- `Machine::ReadMem` through the installed page table. -/
def readMem (s : MemState P) (addr : BitVec 32) (size : ℕ) :
    Option (Except ExceptionType Int × MemState P) :=
  match s.tables with
  | none => none
  | some m =>
    match Machine.readMem m s.phys.mainMemory addr size with
    | none => none
    | some (.error e) => some (.error e, s)
    | some (.ok (v, m')) => some (.ok v, s.putTables m')

/-- `Machine::WriteMem` through the installed page table. -/
def writeMem (s : MemState P) (addr : BitVec 32) (size : ℕ) (value : Int) :
    Option (Except ExceptionType Unit × MemState P) :=
  match s.tables with
  | none => none
  | some m =>
    match Machine.writeMem m s.phys.mainMemory addr size value with
    | none => none
    | some (.error e) => some (.error e, s)
    | some (.ok (mem, m')) =>
      some (.ok (), { s.putTables m' with phys := { s.phys with mainMemory := mem } })

/-- One operation. -/
def next (s : MemState P) : MemAction P → Outcome (MemState P)
  | .new p =>
    if p ∈ s.live then .disabled
    else .next { s with live := insert p s.live, space := update s.space p .new }
  | .load p exe junk =>
    if p ∈ s.live ∧ (s.space p).pageTable = none then
      match AddrSpace.load exe junk s.phys with
      | none => .fault
      | some (_, a, phys) => .next { s with phys := phys, space := update s.space p a }
    else .disabled
  | .destroy p =>
    if p ∈ s.live then
      match (s.space p).destroy s.phys.gPhysPageBitMap with
      | none => .fault
      | some bm =>
        .next { s with
          phys := { s.phys with gPhysPageBitMap := bm }
          live := s.live.erase p
          pageTable := if s.pageTable = .table p then .freed else s.pageTable }
    else .disabled
  | .restoreState p => if p ∈ s.live then .next (s.restoreState p) else .disabled
  | .readMem addr size =>
    match s.readMem addr size with
    | none => .fault
    | some (_, s') => .next s'
  | .writeMem addr size value =>
    match s.writeMem addr size value with
    | none => .fault
    | some (_, s') => .next s'

/-- What a `ReadMem` gives after a switch to `p`. -/
def readUnder (s : MemState P) (p : P) (addr : BitVec 32) (size : ℕ) :
    Option (Except ExceptionType Int) :=
  ((s.restoreState p).readMem addr size).map Prod.fst

end MemState

/-- The memory of the machine, from a start with free frames and no address space. -/
def memSystem (P : Type*) [DecidableEq P] : LTS (MemState P) (MemAction P) where
  init := fun s => s.phys.gPhysPageBitMap = .new numPhysPages ∧ s.live = ∅ ∧ s.pageTable = .null
  next := MemState.next

/-! ### The invariant -/

namespace MemState

/-- Every frame is marked exactly when a live address space holds it, and held once; page
tables are well formed; the machine points to the table of a live address space. -/
structure Inv (s : MemState P) : Prop where
  owned : Owned s.live (fun p => (s.space p).frames) s.phys.gPhysPageBitMap.marked
  wellFormed : ∀ p ∈ s.live, (s.space p).WellFormed
  installed : ∀ p, s.pageTable = .table p →
    p ∈ s.live ∧ (s.space p).pageTable ≠ none ∧ s.pageTableSize = (s.space p).numPages

variable {s s' : MemState P} {addr : BitVec 32} {size : ℕ}

/-- The frames of the updated family of address spaces. -/
private theorem frames_update (space : P → AddrSpace) (p : P) (a : AddrSpace) :
    (fun q => (update space p a q).frames)
      = update (fun q => (space q).frames) p a.frames := by
  funext q
  by_cases hq : q = p
  · subst hq; simp
  · simp [hq]

omit [DecidableEq P] in
theorem Inv.init (hbm : s.phys.gPhysPageBitMap = .new numPhysPages) (hlive : s.live = ∅)
    (htable : s.pageTable = .null) : s.Inv := by
  refine ⟨?_, by simp [hlive], fun p hp => ?_⟩
  · rw [hlive, hbm, Bitmap.marked_new]
    exact .empty _
  · rw [htable] at hp; cases hp

/-- A new address space holds nothing. -/
theorem Inv.new (h : s.Inv) {p : P} (hs : s.next (.new p) = .next s') : s'.Inv := by
  simp only [MemState.next] at hs
  split at hs
  · cases hs
  · rename_i hp
    cases hs
    refine ⟨?_, fun q hq => ?_, fun q hq => ?_⟩
    · have hown := h.owned.take (k := p) (l := []) (fun hin => absurd hin hp) List.nodup_nil
        (by simp)
      show Owned _ (fun q => (update s.space p .new q).frames) _
      rw [frames_update]
      simpa using hown
    · by_cases hqp : q = p
      · subst hqp; simpa using AddrSpace.WellFormed.new
      · simpa [hqp] using h.wellFormed q (by simpa [hqp] using hq)
    · obtain ⟨hlive, htab, hsize⟩ := h.installed q hq
      have hqp : q ≠ p := by rintro rfl; exact hp hlive
      refine ⟨Finset.mem_insert_of_mem hlive, ?_⟩
      simpa [hqp] using ⟨htab, hsize⟩

/-- `Load` takes free frames, or fails and takes none. -/
theorem Inv.load (h : s.Inv) {p : P} {exe : Option HostFile} {junk : ℕ → UInt8}
    (hs : s.next (.load p exe junk) = .next s') : s'.Inv := by
  simp only [MemState.next] at hs
  split at hs
  · rename_i hp
    split at hs
    · cases hs
    · rename_i ok a phys hload
      cases hs
      have hempty : (s.space p).frames = [] := by
        simp [AddrSpace.frames, AddrSpace.entries, hp.2]
      -- The machine does not point to a table that did not exist.
      have hother : ∀ q, s.pageTable = .table q → q ≠ p := by
        rintro q hq rfl
        exact (h.installed q hq).2.1 hp.2
      have hinstalled : ∀ q, s.pageTable = .table q → q ∈ s.live ∧
          (update s.space p a q).pageTable ≠ none ∧
          s.pageTableSize = (update s.space p a q).numPages := by
        intro q hq
        rw [update_of_ne (hother q hq)]
        exact h.installed q hq
      have hwf : a.WellFormed → ∀ q ∈ s.live, (update s.space p a q).WellFormed := by
        intro ha q hq
        by_cases hqp : q = p
        · subst hqp; simpa using ha
        · simpa [hqp] using h.wellFormed q hq
      rcases AddrSpace.load_cases hload with ⟨-, rfl, rfl⟩ | ⟨-, l, rfl, hnodup, hfresh, hmarked⟩
      · -- A failed `Load` leaves an address space without frames, as before.
        refine ⟨?_, hwf .new, hinstalled⟩
        refine h.owned.congr fun q _ => ?_
        by_cases hqp : q = p
        · subst hqp; simp [hempty]
        · simp [hqp]
      · have hlt : ∀ f ∈ l, f < numPhysPages := fun f hf => (hfresh f hf).1
        refine ⟨?_, hwf (.ofFrames hlt), hinstalled⟩
        have hown := h.owned.take (k := p) (fun _ => hempty) hnodup (fun f hf => (hfresh f hf).2)
        rw [Finset.insert_eq_of_mem hp.1] at hown
        show Owned _ (fun q => (update s.space p (.ofFrames l) q).frames) _
        rw [frames_update, AddrSpace.frames_ofFrames hlt, hmarked]
        exact hown
  · cases hs

/-- The destructor gives the frames back. -/
theorem Inv.destroy (h : s.Inv) {p : P} (hs : s.next (.destroy p) = .next s') : s'.Inv := by
  simp only [MemState.next] at hs
  split at hs
  · rename_i hp
    obtain ⟨bm, hbm, hmarked⟩ :=
      AddrSpace.destroy_eq_some (h.wellFormed p hp) s.phys.gPhysPageBitMap
    rw [hbm] at hs
    cases hs
    refine ⟨?_, fun q hq => h.wellFormed q (Finset.mem_of_mem_erase hq), fun q hq => ?_⟩
    · show Owned _ _ bm.marked
      rw [hmarked]
      exact h.owned.release hp
    · -- If the destroyed table was the installed one, the machine points to freed memory.
      simp only at hq
      split at hq
      · cases hq
      · rename_i hne
        obtain ⟨hlive, hrest⟩ := h.installed q hq
        have hqp : q ≠ p := by rintro rfl; exact hne hq
        exact ⟨Finset.mem_erase.mpr ⟨hqp, hlive⟩, hrest⟩
  · cases hs

omit [DecidableEq P] in
/-- A context switch installs the page table of the live address space it switches to. -/
theorem Inv.restoreState (h : s.Inv) {p : P} (hp : p ∈ s.live) : (s.restoreState p).Inv := by
  refine ⟨h.owned, h.wellFormed, fun q hq => ?_⟩
  simp only [MemState.restoreState] at hq ⊢
  split at hq
  · rename_i hsome
    cases hq
    exact ⟨hp, by simpa [Option.isSome_iff_ne_none] using hsome, rfl⟩
  · cases hq

/-- What an access that passed the translation does to the state: it sets bits of one entry of
the installed table, and may store into memory. -/
def Touched (s s' : MemState P) (writing : Bool) : Prop :=
  ∃ p table i e mem, s.pageTable = .table p ∧ (s.space p).pageTable = some table ∧
    table[i]? = some e ∧
    s' = { s with
      phys := { s.phys with mainMemory := mem }
      space := update s.space p
        { s.space p with pageTable := some (table.set i (e.touch writing)) } } ∧
    ∀ f, f ≠ e.pageFrame → ∀ j < pageSize,
      mem (f * pageSize + j) = s.phys.mainMemory (f * pageSize + j)

/-- Setting bits of an entry and storing into memory keep the invariant. -/
theorem Inv.touched (h : s.Inv) {writing : Bool} (hs : s.Touched s' writing) : s'.Inv := by
  obtain ⟨p, table, i, e, mem, hptr, htable, he, rfl, -⟩ := hs
  obtain ⟨hlive, -, hsize⟩ := h.installed p hptr
  refine ⟨?_, fun q hq => ?_, fun q hq => ?_⟩
  · refine h.owned.congr fun q _ => ?_
    by_cases hqp : q = p
    · subst hqp; simpa using AddrSpace.frames_touch htable he writing
    · simp [hqp]
  · by_cases hqp : q = p
    · subst hqp; simpa using (h.wellFormed q hq).touch htable he writing
    · simpa [hqp] using h.wellFormed q hq
  · have hq' : s.pageTable = .table q := hq
    rw [hptr] at hq'
    cases hq'
    simpa using ⟨hlive, hsize⟩

/-- The table through which an access that succeeds has gone. -/
private theorem installed_of_tables {m : Tables} {table : List TranslationEntry}
    (hs : s.tables = some m) (ht : m.pageTable = some table) :
    ∃ p, s.pageTable = .table p ∧ (s.space p).pageTable = some table ∧ ∀ m', s.putTables m' =
      { s with space := update s.space p { s.space p with pageTable := m'.pageTable } } := by
  unfold tables at hs
  split at hs
  · cases hs
    cases ht
  · rename_i p hp
    cases hs
    refine ⟨p, hp, ht, fun m' => ?_⟩
    unfold putTables
    rw [hp]
  · cases hs

omit [DecidableEq P] in
private theorem tables_eq_some {m : Tables} (hs : s.tables = some m) :
    m = ⟨none, m.pageTable, m.pageTableSize⟩ := by
  unfold tables at hs
  split at hs <;> cases hs <;> rfl

/-- Everything a `ReadMem` that does not fault can do to the state. -/
theorem touched_of_readMem (hs : s.next (.readMem addr size) = .next s') :
    s' = s ∨ s.Touched s' false := by
  simp only [MemState.next, readMem] at hs
  cases hm : s.tables with
  | none => simp [hm] at hs
  | some m =>
    simp only [hm] at hs
    cases hread : Machine.readMem m s.phys.mainMemory addr size with
    | none => simp [hread] at hs
    | some r =>
      simp only [hread] at hs
      cases r with
      | error e =>
        cases hs
        exact .inl rfl
      | ok r =>
        cases hs
        obtain ⟨x, htr⟩ := translate_of_readMem hread
        rw [tables_eq_some hm] at htr
        obtain ⟨-, t, e, ht, he, -, -, hm'⟩ := translate_eq_ok htr
        obtain ⟨p, hptr, htable, hput⟩ := installed_of_tables hm ht
        refine .inr ⟨p, t, _, e, s.phys.mainMemory, hptr, htable, he, ?_, fun _ _ _ _ => rfl⟩
        rw [hput, hm']

/-- Everything a `WriteMem` that does not fault can do to the state. -/
theorem touched_of_writeMem {value : Int}
    (hs : s.next (.writeMem addr size value) = .next s') : s' = s ∨ s.Touched s' true := by
  simp only [MemState.next, writeMem] at hs
  cases hm : s.tables with
  | none => simp [hm] at hs
  | some m =>
    simp only [hm] at hs
    cases hwrite : Machine.writeMem m s.phys.mainMemory addr size value with
    | none => simp [hwrite] at hs
    | some r =>
      simp only [hwrite] at hs
      cases r with
      | error e =>
        cases hs
        exact .inl rfl
      | ok r =>
        cases hs
        rw [tables_eq_some hm] at hwrite
        obtain ⟨t, e, ht, he, hm', hmem⟩ := writeMem_frame hwrite
        obtain ⟨p, hptr, htable, hput⟩ := installed_of_tables hm ht
        refine .inr ⟨p, t, _, e, r.1, hptr, htable, he, ?_, hmem⟩
        rw [hput, hm']

theorem Inv.next (h : s.Inv) {a : MemAction P} (hs : s.next a = .next s') : s'.Inv := by
  cases a with
  | new p => exact h.new hs
  | load p exe junk => exact h.load hs
  | destroy p => exact h.destroy hs
  | restoreState p =>
    simp only [MemState.next] at hs
    split at hs
    · rename_i hp
      cases hs
      exact h.restoreState hp
    · cases hs
  | readMem addr size =>
    rcases touched_of_readMem hs with rfl | htouched
    · exact h
    · exact h.touched htouched
  | writeMem addr size value =>
    rcases touched_of_writeMem hs with rfl | htouched
    · exact h
    · exact h.touched htouched

/-! ### Isolation -/

omit [DecidableEq P] in
/-- What is read after a switch to `q`: the read of the machine through the table of `q`. -/
theorem readUnder_eq [DecidableEq P] (s : MemState P) (q : P) (addr : BitVec 32) (size : ℕ) :
    s.readUnder q addr size =
      (Machine.readMem ⟨none, (s.space q).pageTable, (s.space q).numPages⟩ s.phys.mainMemory
        addr size).map fun r => r.map Prod.fst := by
  have htables : (s.restoreState q).tables
      = some ⟨none, (s.space q).pageTable, (s.space q).numPages⟩ := by
    unfold MemState.restoreState tables
    cases hq : (s.space q).pageTable <;> simp [hq]
  unfold readUnder readMem
  rw [htables]
  -- Reading also puts the table back with its use bit set, which the value does not depend on.
  show Option.map _ (match Machine.readMem _ s.phys.mainMemory addr size with
    | none => none
    | some (.error e) => _
    | some (.ok (v, m')) => _) = _
  cases Machine.readMem ⟨none, (s.space q).pageTable, (s.space q).numPages⟩ s.phys.mainMemory
    addr size with
  | none => rfl
  | some r => cases r <;> rfl

/-- A write changes nothing that is read through the table of another live address space: the
frame it stores into is not in that table. -/
theorem Inv.readUnder_writeMem (h : s.Inv) {value : Int}
    (hs : s.next (.writeMem addr size value) = .next s') {q : P} (hq : q ∈ s.live)
    (hne : s.pageTable ≠ .table q) (addr' : BitVec 32) (size' : ℕ) :
    s'.readUnder q addr' size' = s.readUnder q addr' size' := by
  rcases touched_of_writeMem hs with rfl | ⟨p, table, i, e, mem, hptr, htable, he, rfl, hmem⟩
  · rfl
  · have hqp : q ≠ p := by rintro rfl; exact hne hptr
    rw [readUnder_eq, readUnder_eq]
    simp only [update_of_ne hqp]
    apply congrArg
    apply readMem_congr
    intro e' he' j hj
    apply hmem _ _ j hj
    -- The two entries belong to different owners.
    intro hframe
    have hep : e.pageFrame ∈ (s.space p).frames := by
      apply List.mem_map_of_mem
      simpa [AddrSpace.entries, htable] using List.mem_of_getElem? he
    have heq : e.pageFrame ∈ (s.space q).frames := by
      rw [← hframe]
      exact List.mem_map_of_mem he'
    exact h.owned.disjoint p (h.installed p hptr).1 q hq (Ne.symm hqp) hep heq

end MemState

theorem mem_inv {s : MemState P} (h : (memSystem P).Reachable s) : s.Inv :=
  h.invariant (I := MemState.Inv) (by rintro s ⟨hbm, hlive, hptr⟩; exact .init hbm hlive hptr)
    (fun _ _ _ hi hs => hi.next hs)

omit [DecidableEq P] in
/-- The frames that are clear and the pages of the live address spaces make up the memory. -/
theorem MemState.Inv.numClear_add_sum {s : MemState P} (h : s.Inv) :
    s.phys.gPhysPageBitMap.numClear + ∑ p ∈ s.live, (s.space p).numPages = numPhysPages := by
  have hlen : ∀ p ∈ s.live, (s.space p).numPages = (s.space p).frames.length := by
    intro p hp
    rw [← (h.wellFormed p hp).length_entries, AddrSpace.frames, List.length_map]
  rw [Finset.sum_congr rfl hlen, ← h.owned.card_used]
  exact Bitmap.numClear_add_card _

/-- **Memory isolation.** In every state that creations, loads, destructions, context switches
and memory accesses can reach:

    * every entry of the page table of a live address space holds a frame of the machine that
      is marked in the bitmap;
    * no frame occurs twice in one page table or in those of two live address spaces;
    * the marked frames are as many as the live address spaces have pages together;
    * a `Load` of a well-formed executable returns, and one that fails changes nothing;
    * a `WriteMem` does not change what a `ReadMem` gives under a live address space that is
      not the installed one. -/
theorem memory_isolation (s : MemState P) (h : (memSystem P).Reachable s) :
    (∀ p ∈ s.live, ∀ e ∈ (s.space p).entries, 0 ≤ e.physicalPage ∧
      e.physicalPage < numPhysPages ∧ s.phys.gPhysPageBitMap.test e.physicalPage = some true) ∧
    (∀ p ∈ s.live, ((s.space p).entries.map TranslationEntry.physicalPage).Nodup) ∧
    (∀ p ∈ s.live, ∀ q ∈ s.live, p ≠ q → ∀ e ∈ (s.space p).entries, ∀ e' ∈ (s.space q).entries,
      e.physicalPage ≠ e'.physicalPage) ∧
    s.phys.gPhysPageBitMap.marked.card = ∑ p ∈ s.live, (s.space p).numPages ∧
    (∀ file junk, (HostFile.noffHeader file junk).WellFormed →
      AddrSpace.load (some file) junk s.phys ≠ none) ∧
    (∀ exe junk a phys, AddrSpace.load exe junk s.phys = some (false, a, phys) →
      phys = s.phys ∧ a.entries = []) ∧
    (∀ addr size value s', s.next (.writeMem addr size value) = .next s' →
      ∀ q ∈ s.live, s.pageTable ≠ .table q →
      ∀ addr' size', s'.readUnder q addr' size' = s.readUnder q addr' size') := by
  have hi := mem_inv h
  refine ⟨fun p hp e he => ?_, fun p hp => ?_, fun p hp q hq hpq e he e' he' heq => ?_, ?_,
    fun file junk hwf => ?_, fun exe junk a phys hload => ?_, ?_⟩
  · have hmarked : e.pageFrame ∈ s.phys.gPhysPageBitMap.marked :=
      (hi.owned.mem_used _).mpr ⟨p, hp, List.mem_map_of_mem he⟩
    have hlt := (hi.wellFormed p hp).pageFrame_lt e he
    rw [(hi.wellFormed p hp).physicalPage_eq e he, Bitmap.test_natCast _ hlt]
    exact ⟨by omega, by omega, by simpa using hmarked⟩
  · rw [(hi.wellFormed p hp).map_physicalPage]
    exact (hi.owned.nodup p hp).map Nat.cast_injective
  · refine hi.owned.disjoint p hp q hq hpq (List.mem_map_of_mem he) ?_
    have hframe : e.pageFrame = e'.pageFrame := by unfold TranslationEntry.pageFrame; rw [heq]
    rw [hframe]
    exact List.mem_map_of_mem he'
  · have hsum := hi.numClear_add_sum
    have hcard := s.phys.gPhysPageBitMap.numClear_add_card
    omega
  · obtain ⟨ok, a, phys, hload, -⟩ := AddrSpace.load_of_wellFormed hwf s.phys
    rw [hload]; nofun
  · rcases AddrSpace.load_cases hload with ⟨-, rfl, rfl⟩ | ⟨hok, -⟩
    · exact ⟨rfl, rfl⟩
    · cases hok
  · intro addr size value s' hs q hq hne addr' size'
    exact hi.readUnder_writeMem hs hq hne addr' size'

/-- The bytes of a header with empty segments: a program that consists of its stack. -/
def emptyProgram : HostFile := [0xad, 0xdf, 0xba, 0] ++ List.replicate 48 0

theorem emptyProgram_wellFormed :
    (emptyProgram.noffHeader fun _ => 0).WellFormed ∧
      (emptyProgram.noffHeader fun _ => 0).numPages = 8 := by
  have hheader : (emptyProgram.noffHeader fun _ => 0)
      = ⟨noffMagicNumber, ⟨0, 0, 0⟩, ⟨0, 0, 0⟩, ⟨0, 0, 0⟩, ⟨0, 0, 0⟩⟩ := by decide
  rw [hheader]
  exact ⟨⟨rfl, by decide, by decide, by decide⟩, by decide⟩

/-- Two programs of eight pages each are loaded; sixteen frames are marked. -/
theorem memory_isolation_two_programs :
    ∃ s : MemState (Fin 2), s.live = {0, 1} ∧ (s.space 0).numPages = 8 ∧
      (s.space 1).numPages = 8 ∧ s.phys.gPhysPageBitMap.marked.card = 16 := by
  obtain ⟨s, hs, hlive, hzero, hone⟩ := (memSystem (Fin 2)).reaches
    (s := ⟨⟨fun _ => 0, .new numPhysPages⟩, ∅, fun _ => .new, .null, 0⟩) ⟨rfl, rfl, rfl⟩
    [.new 1, .new 0, .load 0 emptyProgram fun _ => 0, .load 1 emptyProgram fun _ => 0]
    (fun s => s.live = {0, 1} ∧ (s.space 0).numPages = 8 ∧ (s.space 1).numPages = 8)
    (by decide +kernel)
  refine ⟨s, hlive, hzero, hone, ?_⟩
  obtain ⟨-, -, -, hcard, -⟩ := memory_isolation s hs
  rw [hcard, hlive]
  simp [hzero, hone]

end Nachos.UserProg
