import Nachos.Machine.Coherence
import Nachos.UserProg.Isolation

namespace Nachos.UserProg

open Base Machine

/-!
# UserProg — the three address translators

A virtual address is translated in three places: by `Machine::Translate` through a linear page
table, by `Machine::Translate` through a TLB, and by `AddrSpace::Translate`, which the kernel may
use. They test in different orders and with different types; over a page table that `Load` has built
they agree (`translators_agree`).

What the machine has set in the table since then are use and dirty bits (`withBits`), so the
statements are about such tables, and about TLB entries that have been copied at any time.
-/

/-! ### `AddrSpace::Translate` -/

namespace AddrSpace

/-- A computation over an address space. -/
abbrev SpaceM := EStateM AccessStop AddrSpace

/-- Read `*pte`. -/
def readPte (vpn : ℕ) : SpaceM TranslationEntry := fun a =>
  match a.entries[vpn]? with
  | some pte => .ok pte a
  | none => .error .assertion a

/-- An assignment to a field of `*pte`. -/
def setPte (vpn : ℕ) (f : TranslationEntry → TranslationEntry) : SpaceM Unit := do
  let pte ← readPte vpn
  modify fun a => { a with pageTable := a.pageTable.map (·.set vpn (f pte)) }

/-- `AddrSpace::Translate`. The valid bit is not looked at, and the frame is an `int`. -/
def translate (vaddr : BitVec 32) (isReadWrite : Bool) : SpaceM ℕ := do
  let a ← get
  let vpn := vaddr.toNat / pageSize
  let offset := vaddr.toNat % pageSize
  if vpn ≥ a.numPages then throw (.exception .addressErrorException)
  else do
    let pte ← readPte vpn
    if isReadWrite && pte.readOnly then throw (.exception .readOnlyException)
    else do
      let pfn := pte.physicalPage
      if pfn ≥ numPhysPages then throw (.exception .busErrorException)
      else do
        setPte vpn fun pte => { pte with use := true }
        if isReadWrite then setPte vpn fun pte => { pte with dirty := true } else pure ()
        let paddr := ((pfn * pageSize + offset) % 4294967296).toNat
        -- `ASSERT((*paddr < MemorySize))`
        if paddr < memorySize then return paddr else throw .assertion

/-! ### A page table in use -/

/-- The machine with this page table. -/
def tables (a : AddrSpace) : Tables := ⟨none, a.pageTable, a.numPages⟩

/-- The same page table with other use and dirty bits. -/
def withBits (a : AddrSpace) (use dirty : ℕ → Bool) : AddrSpace :=
  { a with pageTable := a.pageTable.map fun table =>
      table.mapIdx fun i e => { e with use := use i, dirty := dirty i } }

/-- A page table as `Load` builds it: entry `i` is valid, may be written and has the virtual page
`i` and a frame of the machine. -/
structure Built (table : List TranslationEntry) : Prop where
  virtualPage : ∀ {i : ℕ} {e : TranslationEntry}, table[i]? = some e → e.virtualPage = i
  valid : ∀ e ∈ table, e.valid = true
  readOnly : ∀ e ∈ table, e.readOnly = false
  physicalPage : ∀ e ∈ table, e.physicalPage = e.pageFrame
  pageFrame : ∀ e ∈ table, e.pageFrame < numPhysPages

theorem built_of_load {exe : Option HostFile} {junk : ℕ → UInt8} {s s' : PhysMem} {a : AddrSpace}
    (h : load exe junk s = some (true, a, s')) (use dirty : ℕ → Bool) :
    ∃ table, a.withBits use dirty = ⟨some table, table.length⟩ ∧ Built table := by
  obtain ⟨hfalse, -⟩ | ⟨-, l, rfl, -, hl, -⟩ := load_cases h
  · cases hfalse
  · have hentry : ∀ {i : ℕ} {e : TranslationEntry},
        (((ofFrames l).withBits use dirty).entries)[i]? = some e →
        ∃ frame ∈ l, e = ⟨i, frame, true, false, use i, dirty i⟩ := by
      intro i e he
      have hmap : (((l.mapIdx fun (i frame : ℕ) =>
          (⟨i, frame, true, false, false, false⟩ : TranslationEntry)).mapIdx
          fun i e => { e with use := use i, dirty := dirty i }))[i]? = some e := he
      rw [List.getElem?_mapIdx, List.getElem?_mapIdx, Option.map_map] at hmap
      obtain ⟨frame, hframe, rfl⟩ := Option.map_eq_some_iff.mp hmap
      exact ⟨frame, List.mem_of_getElem? hframe, rfl⟩
    have hmem : ∀ e ∈ ((ofFrames l).withBits use dirty).entries,
        ∃ (i : ℕ) (frame : ℕ), frame ∈ l ∧ e = ⟨i, frame, true, false, use i, dirty i⟩ := by
      intro e he
      obtain ⟨i, hi⟩ := List.mem_iff_getElem?.mp he
      exact ⟨i, hentry hi⟩
    have hnat : ∀ {i frame : ℕ}, frame ∈ l →
        (⟨i, frame, true, false, use i, dirty i⟩ : TranslationEntry).pageFrame = frame := by
      intro i frame hframe
      have hlt := (hl frame hframe).1
      unfold numPhysPages at hlt
      show ((frame : Int) % 4294967296).toNat = frame
      omega
    refine ⟨((ofFrames l).withBits use dirty).entries, ?_, ?_, ?_, ?_, ?_, ?_⟩
    · show AddrSpace.mk (some _) l.length = AddrSpace.mk (some _) _
      congr 1
      show l.length = (List.mapIdx _ (List.mapIdx _ l)).length
      rw [List.length_mapIdx, List.length_mapIdx]
    · intro i e he
      obtain ⟨frame, -, rfl⟩ := hentry he
      rfl
    · intro e he
      obtain ⟨i, frame, -, rfl⟩ := hmem e he
      rfl
    · intro e he
      obtain ⟨i, frame, -, rfl⟩ := hmem e he
      rfl
    · intro e he
      obtain ⟨i, frame, hframe, rfl⟩ := hmem e he
      rw [hnat hframe]
    · intro e he
      obtain ⟨i, frame, hframe, rfl⟩ := hmem e he
      rw [hnat hframe]
      exact (hl frame hframe).1

/-! ### The kernel and the page table -/

section Kernel

variable {table : List TranslationEntry} {n vpn : ℕ} {pte : TranslationEntry}

theorem readPte_eq (h : table[vpn]? = some pte) :
    readPte vpn ⟨some table, n⟩ = .ok pte ⟨some table, n⟩ := by
  have hpte : (AddrSpace.mk (some table) n).entries[vpn]? = some pte := h
  rw [readPte, hpte]

theorem setPte_eq (h : table[vpn]? = some pte) (f : TranslationEntry → TranslationEntry) :
    setPte vpn f ⟨some table, n⟩ = .ok () ⟨some (table.set vpn (f pte)), n⟩ := by
  rw [setPte, bind_ok (readPte_eq h)]
  rfl

/-- Setting the two bits one after the other. -/
theorem setPte_bits (h : table[vpn]? = some pte) (isReadWrite : Bool) {β : Type}
    (k : Unit → SpaceM β) :
    (do
      setPte vpn fun pte => { pte with use := true }
      let r ← if isReadWrite then setPte vpn fun pte => { pte with dirty := true } else pure ()
      k r) ⟨some table, n⟩ = k () ⟨some (table.set vpn (pte.touch isReadWrite)), n⟩ := by
  rw [bind_ok (setPte_eq h _)]
  unfold TranslationEntry.touch
  cases isReadWrite with
  | false =>
    rw [Bool.or_false]
    rfl
  | true =>
    have hset : (table.set vpn { pte with use := true })[vpn]? = some { pte with use := true } :=
      List.getElem?_set_self (List.getElem?_eq_some_iff.mp h).1
    rw [Bool.or_true, if_pos rfl, bind_ok (setPte_eq hset _), List.set_set]

/-- `AddrSpace::Translate` behind the last page. -/
theorem translate_out {vaddr : BitVec 32} (h : table.length ≤ vaddr.toNat / pageSize)
    (isReadWrite : Bool) : translate vaddr isReadWrite ⟨some table, table.length⟩ =
      .error (.exception .addressErrorException) ⟨some table, table.length⟩ := by
  unfold translate
  rw [get_bind, if_pos h]
  rfl

/-- `AddrSpace::Translate` in a page that `Load` has built. -/
theorem translate_in (hb : Built table) {vaddr : BitVec 32}
    (h : table[vaddr.toNat / pageSize]? = some pte)
    (isReadWrite : Bool) : translate vaddr isReadWrite ⟨some table, table.length⟩ =
      .ok (pte.pageFrame * pageSize + vaddr.toNat % pageSize)
        ⟨some (table.set (vaddr.toNat / pageSize) (pte.touch isReadWrite)), table.length⟩ := by
  have hmem := List.mem_of_getElem? h
  have hlt := (List.getElem?_eq_some_iff.mp h).1
  have hframe := hb.pageFrame pte hmem
  have hphys := hb.physicalPage pte hmem
  have hint : ¬ pte.physicalPage ≥ (numPhysPages : Int) := by
    rw [hphys]
    omega
  have hpaddr : ((pte.physicalPage * pageSize + (vaddr.toNat % pageSize : ℕ)) % 4294967296).toNat
      = pte.pageFrame * pageSize + vaddr.toNat % pageSize := by
    rw [hphys]
    unfold numPhysPages at hframe
    unfold pageSize
    omega
  have hassert : pte.pageFrame * pageSize + vaddr.toNat % pageSize < memorySize := by
    unfold numPhysPages at hframe
    unfold memorySize numPhysPages pageSize
    omega
  unfold translate
  rw [get_bind, if_neg (Nat.not_le.mpr hlt), bind_ok (readPte_eq h), hb.readOnly pte hmem,
    Bool.and_false]
  simp only [Bool.false_eq_true, if_false]
  rw [if_neg hint, setPte_bits h]
  simp only [hpaddr]
  rw [if_pos hassert]
  rfl

end Kernel

end AddrSpace

/-! ### The machine -/

section Translators

variable {table tlb : List TranslationEntry} {mem : ℕ → UInt8} {vaddr : BitVec 32} {writing : Bool}

/-- The exception or the address that a translation gives. -/
def answer {σ : Type} : EStateM.Result AccessStop σ ℕ → Except AccessStop ℕ
  | .ok x _ => .ok x
  | .error e _ => .error e

/-- The same, from the function `translate`. -/
def answerOf : Option (Except ExceptionType ℕ) → Except AccessStop ℕ
  | some (.ok x) => .ok x
  | some (.error which) => .error (.exception which)
  | none => .error .assertion

/-- A translation of the kernel, with the memory that the machine has. -/
def withMemory (mem : ℕ → UInt8) : EStateM.Result AccessStop AddrSpace ℕ →
    EStateM.Result AccessStop Memory ℕ
  | .ok x a => .ok x ⟨a.tables, mem⟩
  | .error e a => .error e ⟨a.tables, mem⟩

/-- An entry that has been copied from another one; the bits may have changed since then. -/
def IsCopy (e e' : TranslationEntry) : Prop := e = { e' with use := e.use, dirty := e.dirty }

/-- The answer of a translation from the function that it computes. -/
theorem answer_translateAddress (s : Memory) (vaddr : BitVec 32) (size : ℕ) (writing : Bool) :
    answer (translateAddress vaddr size writing s) =
      answerOf ((translate s.tables vaddr size writing).map (Except.map Prod.fst)) := by
  have hcomp := translateAddress_eq s vaddr size writing
  cases htr : translate s.tables vaddr size writing with
  | none =>
    rw [htr] at hcomp
    obtain ⟨s', hs'⟩ := hcomp
    rw [hs']
    rfl
  | some r =>
    rw [htr] at hcomp
    cases r with
    | error which =>
      rw [show translateAddress vaddr size writing s = _ from hcomp]
      rfl
    | ok r =>
      rw [show translateAddress vaddr size writing s = _ from hcomp]
      rfl

/-- The linear page table, in a page that `Load` has built. -/
theorem translate_linear (hb : AddrSpace.Built table) {pte : TranslationEntry}
    (h : table[vaddr.toNat / pageSize]? = some pte) {size : ℕ}
    (hal : misaligned vaddr size = false) (writing : Bool) :
    translate ⟨none, some table, table.length⟩ vaddr size writing =
      translateEntry pte (vaddr.toNat % pageSize) size writing fun e =>
        ⟨none, some (table.set (vaddr.toNat / pageSize) e), table.length⟩ := by
  have hlt := (List.getElem?_eq_some_iff.mp h).1
  unfold Machine.translate
  rw [if_neg (by rw [hal]; exact Bool.false_ne_true)]
  simp only [h]
  rw [if_neg (Nat.not_le.mpr hlt), if_pos (hb.valid pte (List.mem_of_getElem? h))]

/-- **The kernel and the machine** do the same to the page table. -/
theorem translate_eq_withMemory (hb : AddrSpace.Built table) (mem : ℕ → UInt8) (vaddr : BitVec 32)
    (writing : Bool) :
    translateAddress vaddr 1 writing ⟨⟨none, some table, table.length⟩, mem⟩ =
      withMemory mem (AddrSpace.translate vaddr writing ⟨some table, table.length⟩) := by
  have hcomp := translateAddress_eq ⟨⟨none, some table, table.length⟩, mem⟩ vaddr 1 writing
  by_cases hlt : vaddr.toNat / pageSize < table.length
  · -- The entry is there, and all tests of both pass.
    obtain ⟨pte, h⟩ : ∃ pte, table[vaddr.toNat / pageSize]? = some pte :=
      ⟨_, List.getElem?_eq_getElem hlt⟩
    have hmem := List.mem_of_getElem? h
    have hoff : vaddr.toNat % pageSize + 1 ≤ pageSize := Nat.mod_lt _ (by decide)
    have hro : (pte.readOnly && writing) = false := by rw [hb.readOnly pte hmem, Bool.false_and]
    have hframe := hb.pageFrame pte hmem
    have htr := translate_linear hb h (misaligned_one vaddr) writing
    rw [translateEntry_eq_ok.mpr ⟨hro, hframe, rfl, frame_add_le hframe hoff, rfl⟩] at htr
    rw [htr] at hcomp
    rw [AddrSpace.translate_in hb h]
    exact hcomp
  · have hout : translate ⟨none, some table, table.length⟩ vaddr 1 writing
        = some (.error .addressErrorException) := by
      unfold Machine.translate
      rw [if_neg (by rw [misaligned_one]; exact Bool.false_ne_true)]
      exact if_pos (Nat.not_lt.mp hlt)
    rw [hout] at hcomp
    rw [AddrSpace.translate_out (Nat.not_lt.mp hlt)]
    exact hcomp

/-- The answer of the second half of `Translate` depends on the protection and the frame only. -/
theorem translateEntry_answer {e e' : TranslationEntry} (hro : e.readOnly = e'.readOnly)
    (hframe : e.pageFrame = e'.pageFrame) (offset size : ℕ) (writing : Bool)
    (put put' : TranslationEntry → Tables) :
    (translateEntry e offset size writing put).map (Except.map Prod.fst) =
      (translateEntry e' offset size writing put').map (Except.map Prod.fst) := by
  unfold translateEntry
  rw [hro, hframe]
  split
  · rfl
  · split
    · rfl
    · simp only
      split <;> rfl

/-- **The TLB and the page table** give the same answer, or the page is not in the TLB. -/
theorem translate_tlb (hb : AddrSpace.Built table)
    (hcopy : ∀ e ∈ tlb, e.valid = true → ∃ e' ∈ table, IsCopy e e') (n : ℕ) (vaddr : BitVec 32)
    (size : ℕ) (writing : Bool) :
    (translate ⟨some tlb, none, n⟩ vaddr size writing = some (.error .pageFaultException) ∧
      ∀ e ∈ tlb, e.valid = true → e.virtualPage ≠ (vaddr.toNat / pageSize : ℕ)) ∨
    (translate ⟨some tlb, none, n⟩ vaddr size writing).map (Except.map Prod.fst) =
      (translate ⟨none, some table, table.length⟩ vaddr size writing).map
        (Except.map Prod.fst) := by
  by_cases hal : misaligned vaddr size = true
  · right
    unfold Machine.translate
    rw [if_pos hal, if_pos hal]
  · have hal' := Bool.eq_false_iff.mpr hal
    cases hi : tlb.findIdx? fun e => e.valid && e.virtualPage ==
      ((vaddr.toNat / pageSize : ℕ) : Int) with
    | none =>
      left
      constructor
      · unfold Machine.translate
        rw [if_neg hal]
        simp only [hi]
      · intro e he hvalid heq
        have hno := List.findIdx?_eq_none_iff.mp hi e he
        rw [hvalid, heq, Bool.true_and, beq_self_eq_true] at hno
        cases hno
    | some i =>
      right
      -- The entry that is found is a copy of the entry with the index `vpn`.
      obtain ⟨hlt, hfound, -⟩ := List.findIdx?_eq_some_iff_getElem.mp hi
      have hget : tlb[i]? = some tlb[i] := List.getElem?_eq_getElem hlt
      generalize tlb[i] = e at hfound hget
      rw [Bool.and_eq_true, beq_iff_eq] at hfound
      obtain ⟨e', he', hc⟩ := hcopy e (List.mem_of_getElem? hget) hfound.1
      obtain ⟨j, hj⟩ := List.mem_iff_getElem?.mp he'
      have hpage : j = vaddr.toNat / pageSize := by
        have hvirtual := hb.virtualPage hj
        have hsame : e.virtualPage = e'.virtualPage := by rw [hc]
        rw [hfound.2, hvirtual] at hsame
        exact_mod_cast hsame.symm
      rw [hpage] at hj
      rw [translate_linear hb hj hal' writing]
      unfold Machine.translate
      rw [if_neg hal]
      simp only [hi, hget]
      apply translateEntry_answer
      · rw [hc]
      · rw [hc]
        rfl

/-- **The three translators agree** over the page table of every address space that `Load` has
built, with the use and dirty bits of any time: the kernel and the machine set the same bits and
give the same exception or address; and through a TLB of copies the machine faults because the page
is not there, or gives the same exception or address. -/
theorem translators_agree (exe : Option HostFile) (junk : ℕ → UInt8) (s s' : PhysMem)
    (a : AddrSpace)
    (h : AddrSpace.load exe junk s = some (true, a, s')) (use dirty : ℕ → Bool) (mem : ℕ → UInt8)
    (vaddr : BitVec 32) (writing : Bool) :
    translateAddress vaddr 1 writing ⟨(a.withBits use dirty).tables, mem⟩ =
      withMemory mem (AddrSpace.translate vaddr writing (a.withBits use dirty)) ∧
    ∀ (tlb : List TranslationEntry) (n : ℕ),
      (∀ e ∈ tlb, e.valid = true → ∃ e' ∈ (a.withBits use dirty).entries, IsCopy e e') →
      ∀ w : Width,
        (answer (translateAddress vaddr w.size writing ⟨⟨some tlb, none, n⟩, mem⟩) =
            .error (.exception .pageFaultException) ∧
          ∀ e ∈ tlb, e.valid = true → e.virtualPage ≠ (vaddr.toNat / pageSize : ℕ)) ∨
        answer (translateAddress vaddr w.size writing ⟨⟨some tlb, none, n⟩, mem⟩) =
          answer (translateAddress vaddr w.size writing ⟨(a.withBits use dirty).tables, mem⟩) := by
  obtain ⟨table, hspace, hb⟩ := AddrSpace.built_of_load h use dirty
  rw [hspace]
  refine ⟨translate_eq_withMemory hb mem vaddr writing, fun tlb n hcopy w => ?_⟩
  rw [answer_translateAddress, answer_translateAddress]
  rcases translate_tlb hb hcopy n vaddr w.size writing with ⟨hfault, hnone⟩ | heq
  · left
    rw [hfault]
    exact ⟨rfl, hnone⟩
  · right
    show answerOf _ =
      answerOf ((translate ⟨none, some table, table.length⟩ vaddr w.size writing).map _)
    rw [heq]

/-- A program of eight pages: the kernel and the machine agree about its last byte, and a TLB with a
copy of the last entry gives the address of the last word. -/
theorem translators_agree_emptyProgram : ∃ a s' e,
    AddrSpace.load (some emptyProgram) (fun _ => 0) ⟨fun _ => 0, .new numPhysPages⟩ =
      some (true, a, s') ∧
    (a.withBits (fun _ => false) fun _ => false).entries[7]? = some e ∧ e.valid = true ∧
    translateAddress 1023 1 true ⟨(a.withBits (fun _ => false) fun _ => false).tables, fun _ => 0⟩ =
      withMemory (fun _ => 0)
        (AddrSpace.translate 1023 true (a.withBits (fun _ => false) fun _ => false)) ∧
    answer (translateAddress 1020 4 true ⟨⟨some [{ e with use := true }], none, 0⟩, fun _ => 0⟩) =
      answer (translateAddress 1020 4 true
        ⟨(a.withBits (fun _ => false) fun _ => false).tables, fun _ => 0⟩) := by
  obtain ⟨hwf, hpages⟩ := emptyProgram_wellFormed
  obtain ⟨ok, a, s', hload, hok, hnum⟩ :=
    AddrSpace.load_of_wellFormed hwf ⟨fun _ => 0, .new numPhysPages⟩
  have hclear : (emptyProgram.noffHeader fun _ => 0).numPages ≤
      (PhysMem.mk (fun _ => 0) (.new numPhysPages)).gPhysPageBitMap.numClear := by
    rw [hpages]
    decide +kernel
  rw [hok.mpr hclear] at hload
  obtain ⟨table, hspace, hb⟩ := AddrSpace.built_of_load hload (fun _ => false) fun _ => false
  have hentries : (a.withBits (fun _ => false) fun _ => false).entries = table := by
    rw [hspace]
    rfl
  have hlen : table.length = 8 := by
    rw [← hpages, ← hnum (hok.mpr hclear)]
    exact (congrArg AddrSpace.numPages hspace).symm
  obtain ⟨e, he⟩ : ∃ e, table[7]? = some e := ⟨_, List.getElem?_eq_getElem (by omega)⟩
  have hvalid := hb.valid e (List.mem_of_getElem? he)
  have hpage : e.virtualPage = 7 := hb.virtualPage he
  refine ⟨a, s', e, hload, hentries ▸ he, hvalid,
    (translators_agree _ _ _ s' a hload _ _ _ 1023 true).1, ?_⟩
  have htlb :=
    (translators_agree _ _ _ s' a hload (fun _ => false) (fun _ => false) (fun _ => 0) 1020 true).2
    [{ e with use := true }] 0 ?_ .word
  · refine htlb.resolve_left fun hfault => hfault.2 _ (List.mem_singleton_self _) hvalid hpage
  · rintro x hx -
    rw [List.mem_singleton.mp hx, hentries]
    exact ⟨e, List.mem_of_getElem? he, rfl⟩

end Translators

end Nachos.UserProg
