import Nachos.UserProg.Isolation

namespace Nachos.UserProg

open Base Lib Machine

/-!
# UserProg — the memory image of a program

What a user program finds in its memory after `Load`. The segments go from the file into one linear
buffer, the buffer goes page by page into the frames of the page table, and the program sees the
frames through the translation:

* `loadSegment_getD`, `loadBuffer_getD` — the buffer holds the bytes that the file has for each
  segment, and zeros;
* `copyPage_loop` — the page loop, by induction on the number of pages that are done;
* `loadProgram_memory` — the frames after a successful `Load`, page by page;
* `readMem_ofFrames` — a byte is read from the frame of its page;
* `load_builds_image` — all of it together.
-/

/-! ### The load buffer -/

/-- The virtual address `a` is in the segment. -/
def Segment.Contains (seg : Segment) (a : ℕ) : Prop :=
  seg.virtualAddr ≤ a ∧ (a : Int) < seg.virtualAddr + seg.size

instance (seg : Segment) (a : ℕ) : Decidable (seg.Contains a) := by
  unfold Segment.Contains
  infer_instance

/-- The byte that the file has for the virtual address `a` of the segment; `none` outside of the
segment, and where the file ends before it. -/
def Segment.byteAt (seg : Segment) (file : HostFile) (a : ℕ) : Option UInt8 :=
  if seg.Contains a then file[(seg.inFileAddr + (a - seg.virtualAddr)).toNat]? else none

/-- The bytes of a segment that `ReadAt` delivers. -/
theorem Segment.byteAt_eq (seg : Segment) (file : HostFile) (hpos : 0 ≤ seg.inFileAddr) (a : ℕ) :
    seg.byteAt file a = if seg.virtualAddr ≤ a then
      ((file.drop seg.inFileAddr.toNat).take seg.size.toNat)[(a - seg.virtualAddr).toNat]?
    else none := by
  unfold byteAt
  by_cases hlo : seg.virtualAddr ≤ a
  · rw [if_pos hlo, List.getElem?_take, List.getElem?_drop]
    have hidx : (seg.inFileAddr + (a - seg.virtualAddr)).toNat
        = seg.inFileAddr.toNat + (a - seg.virtualAddr).toNat := by omega
    by_cases hhi : (a : Int) < seg.virtualAddr + seg.size
    · have hin : seg.Contains a := ⟨hlo, hhi⟩
      rw [if_pos hin, if_pos (by omega), hidx]
    · rw [if_neg fun h : seg.Contains a => hhi h.2, if_neg (by omega)]
  · rw [if_neg hlo, if_neg fun h : seg.Contains a => hlo h.1]

namespace NoffHeader

/-- What stays outside of a piece that is put into a buffer, and what is inside. -/
theorem getD_splice (buffer bytes : List UInt8) {v : ℕ} (hv : v + bytes.length ≤ buffer.length)
    (a : ℕ) : (buffer.take v ++ bytes ++ buffer.drop (v + bytes.length)).getD a 0
      = (if v ≤ a then bytes[a - v]? else none).getD (buffer.getD a 0) := by
  have htake : (buffer.take v).length = v := by
    rw [List.length_take]
    omega
  simp only [List.getD_eq_getElem?_getD, List.append_assoc, List.getElem?_append, htake]
  by_cases hlo : a < v
  · rw [if_pos hlo, if_neg (by omega), List.getElem?_take_of_lt hlo]
    rfl
  · have hle : v ≤ a := by omega
    rw [if_neg hlo, if_pos hle]
    by_cases hhi : a - v < bytes.length
    · rw [if_pos hhi, List.getElem?_eq_getElem hhi]
      rfl
    · rw [if_neg hhi, List.getElem?_drop, List.getElem?_eq_none (by omega : bytes.length ≤ a - v)]
      show _ = (buffer[a]?).getD 0
      congr 2
      omega

/-- What the loading of a segment can do. -/
theorem loadSegment_cases {file : HostFile} {buffer buffer' : List UInt8} {seg : Segment}
    (h : loadSegment file buffer seg = some buffer') :
    (seg.size = 0 ∧ buffer' = buffer) ∨ (0 ≤ seg.inFileAddr ∧
      ∃ bytes, (file.drop seg.inFileAddr.toNat).take seg.size.toNat = bytes ∧
        (bytes = [] ∧ buffer' = buffer ∨
        0 ≤ seg.virtualAddr ∧ seg.virtualAddr + bytes.length ≤ buffer.length ∧
          buffer' = buffer.take seg.virtualAddr.toNat ++ bytes ++
            buffer.drop (seg.virtualAddr.toNat + bytes.length))) := by
  unfold loadSegment HostFile.readAt at h
  by_cases h0 : seg.size = 0
  · rw [if_pos h0] at h
    cases h
    exact .inl ⟨h0, rfl⟩
  · rw [if_neg h0] at h
    by_cases hpos : seg.inFileAddr < 0
    · rw [if_pos hpos] at h
      cases h
    · rw [if_neg hpos] at h
      refine .inr ⟨by omega, _, rfl, ?_⟩
      simp only at h
      split at h
      · rename_i hnil
        cases h
        exact .inl ⟨hnil, rfl⟩
      · split at h
        · rename_i hin
          cases h
          exact .inr ⟨hin.1, hin.2, rfl⟩
        · cases h

/-- **A segment goes into the buffer**, as far as the file has it. -/
theorem loadSegment_getD {file : HostFile} {buffer buffer' : List UInt8} {seg : Segment}
    (h : loadSegment file buffer seg = some buffer') :
    buffer'.length = buffer.length ∧
      ∀ a, buffer'.getD a 0 = (seg.byteAt file a).getD (buffer.getD a 0) := by
  rcases loadSegment_cases h with ⟨h0, rfl⟩ | ⟨hpos, bytes, hread, hbytes⟩
  · refine ⟨rfl, fun a => ?_⟩
    rw [Segment.byteAt, if_neg (by unfold Segment.Contains; omega)]
    rfl
  · have hbyte := seg.byteAt_eq file hpos
    rw [hread] at hbyte
    simp only [hbyte]
    rcases hbytes with ⟨hnil, rfl⟩ | ⟨h0, hle, rfl⟩
    · refine ⟨rfl, fun a => ?_⟩
      simp [hnil]
    · obtain ⟨v, hv⟩ := Int.eq_ofNat_of_zero_le h0
      rw [hv, Int.toNat_natCast]
      have hfits : v + bytes.length ≤ buffer.length := by omega
      refine ⟨?_, fun a => ?_⟩
      · simp only [List.length_append, List.length_take, List.length_drop]
        omega
      · rw [getD_splice buffer bytes hfits]
        by_cases hlo : v ≤ a
        · rw [if_pos hlo, if_pos (by omega)]
          congr 3
          omega
        · rw [if_neg hlo, if_neg (by omega)]

/-- **The load buffer**: a later segment wins where two of them overlap. -/
theorem loadBuffer_getD {noffH : NoffHeader} {file : HostFile} {buffer : List UInt8}
    (h : noffH.loadBuffer file = some buffer) :
    (buffer.length : Int) = noffH.actualSize ∧
      ∀ a, buffer.getD a 0 = (noffH.initData.byteAt file a).getD
        ((noffH.readonlyData.byteAt file a).getD ((noffH.code.byteAt file a).getD 0)) := by
  unfold loadBuffer at h
  split at h
  · cases h
  · simp only [List.foldlM_cons, List.foldlM_nil] at h
    obtain ⟨b₁, h₁, h⟩ := Option.bind_eq_some_iff.mp h
    obtain ⟨b₂, h₂, h⟩ := Option.bind_eq_some_iff.mp h
    obtain ⟨b₃, h₃, h⟩ := Option.bind_eq_some_iff.mp h
    cases h
    obtain ⟨hl₁, hb₁⟩ := loadSegment_getD h₁
    obtain ⟨hl₂, hb₂⟩ := loadSegment_getD h₂
    obtain ⟨hl₃, hb₃⟩ := loadSegment_getD h₃
    refine ⟨?_, fun a => ?_⟩
    · rw [hl₃, hl₂, hl₁, List.length_replicate]
      omega
    · have hzero : (List.replicate noffH.actualSize.toNat (0 : UInt8)).getD a 0 = 0 := by
        rw [List.getD_eq_getElem?_getD, List.getElem?_replicate]
        split <;> rfl
      rw [hb₃, hb₂, hb₁, hzero]

end NoffHeader

/-! ### The frames -/

/-- An address of the frame. -/
def InFrame (f x : ℕ) : Prop := f * pageSize ≤ x ∧ x < f * pageSize + pageSize

theorem inFrame_add (f : ℕ) {j : ℕ} (hj : j < pageSize) : InFrame f (f * pageSize + j) := by
  unfold InFrame
  omega

theorem InFrame.unique {f g x : ℕ} (hf : InFrame f x) (hg : InFrame g x) : f = g := by
  unfold InFrame pageSize at *
  omega

/-- The frames that are taken are filled with zeros. -/
theorem foldl_zeroFrame (l : List ℕ) (mem : ℕ → UInt8) :
    (∀ f ∈ l, ∀ x, InFrame f x → l.foldl zeroFrame mem x = 0) ∧
      ∀ x, (∀ f ∈ l, ¬ InFrame f x) → l.foldl zeroFrame mem x = mem x := by
  induction l generalizing mem with
  | nil => exact ⟨by simp, fun x _ => rfl⟩
  | cons g l ih =>
    obtain ⟨hin, hout⟩ := ih (zeroFrame mem g)
    rw [List.foldl_cons]
    constructor
    · intro f hf x hx
      by_cases hl : ∃ f' ∈ l, InFrame f' x
      · obtain ⟨f', hf', hx'⟩ := hl
        exact hin f' hf' x hx'
      · rw [hout x fun f' hf' hx' => hl ⟨f', hf', hx'⟩]
        rcases List.mem_cons.mp hf with rfl | hf
        · exact if_pos hx
        · exact absurd ⟨f, hf, hx⟩ hl
    · intro x hx
      rw [hout x fun f hf => hx f (List.mem_cons_of_mem g hf)]
      exact if_neg (hx g List.mem_cons_self)

/-- One round of the page loop. -/
def copyPage (frames : List ℕ) (buffer : List UInt8) (mem : ℕ → UInt8) (i : ℕ) :
    Option (ℕ → UInt8) :=
  match frames[i]? with
  | none => none
  | some frame => some (copyToFrame mem frame ((buffer.drop (i * pageSize)).take pageSize))

section PageLoop

variable {frames : List ℕ} {buffer : List UInt8} {mem mem' : ℕ → UInt8}

/-- One page of the buffer, the last one as far as it goes. -/
theorem copyToFrame_page (f i : ℕ) {j : ℕ} (hj : j < pageSize) :
    copyToFrame mem f ((buffer.drop (i * pageSize)).take pageSize) (f * pageSize + j)
      = if i * pageSize + j < buffer.length then buffer.getD (i * pageSize + j) 0
        else mem (f * pageSize + j) := by
  unfold copyToFrame
  rw [List.length_take, List.length_drop]
  by_cases hlt : i * pageSize + j < buffer.length
  · rw [if_pos (by omega), if_pos hlt, Nat.add_sub_cancel_left, List.getD_eq_getElem?_getD,
      List.getElem?_take_of_lt hj, List.getElem?_drop, List.getD_eq_getElem?_getD]
  · rw [if_neg (by omega), if_neg hlt]

/-- Another frame is left as it is. -/
theorem copyToFrame_other {f i x : ℕ} (hx : ¬ InFrame f x) :
    copyToFrame mem f ((buffer.drop (i * pageSize)).take pageSize) x = mem x := by
  unfold copyToFrame
  rw [List.length_take]
  apply if_neg
  unfold InFrame at hx
  omega

/-- **The page loop** after `k` pages: the frames of these pages hold the bytes of the buffer, the
rest of the memory is what it was. -/
theorem copyPage_loop (hnodup : frames.Nodup) {k : ℕ}
    (h : (List.range k).foldlM (copyPage frames buffer) mem = some mem') :
    (∀ i f, frames[i]? = some f → ∀ j < pageSize, mem' (f * pageSize + j) =
      if i < k ∧ i * pageSize + j < buffer.length then buffer.getD (i * pageSize + j) 0
      else mem (f * pageSize + j)) ∧
    ∀ x, (∀ f ∈ frames, ¬ InFrame f x) → mem' x = mem x := by
  induction k generalizing mem' with
  | zero =>
    cases h
    exact ⟨fun i f _ j _ => by simp, fun x _ => rfl⟩
  | succ k ih =>
    rw [List.range_succ, List.foldlM_append] at h
    obtain ⟨mem₁, hloop, hlast⟩ := Option.bind_eq_some_iff.mp h
    obtain ⟨hin, hout⟩ := ih hloop
    have hround : copyPage frames buffer mem₁ k = some mem' := by
      simpa only [List.foldlM_cons, List.foldlM_nil, Option.bind_eq_bind, Option.bind_some,
        Option.pure_def, Option.bind_fun_some] using hlast
    unfold copyPage at hround
    split at hround
    · cases hround
    · rename_i g hg
      cases hround
      constructor
      · intro i f hf j hj
        by_cases hik : i = k
        · subst hik
          rw [hg] at hf
          cases hf
          rw [copyToFrame_page g i hj, hin i g hg j hj]
          simp
        · -- Another page has another frame.
          have hne : ¬ InFrame g (f * pageSize + j) := by
            intro hg'
            have hfg : f = g := (inFrame_add f hj).unique hg'
            have hlt : i < frames.length := (List.getElem?_eq_some_iff.mp hf).1
            apply hik
            apply (List.getElem?_inj hlt hnodup).mp
            rw [hf, hg, hfg]
          rw [copyToFrame_other hne, hin i f hf j hj]
          have hiff : i < k + 1 ↔ i < k := by omega
          simp only [hiff]
      · intro x hx
        rw [copyToFrame_other (hx g (List.mem_of_getElem? hg)), hout x hx]

end PageLoop

namespace AddrSpace

/-- **The memory after a successful `Load`.** Page `i` of the load buffer is in the frame of page
`i`, what is behind the buffer is zero, and all other frames are what they were. -/
theorem loadProgram_memory {noffH : NoffHeader} {file : HostFile} {s s' : PhysMem} {a : AddrSpace}
    (h : loadProgram noffH file s = some (true, a, s')) :
    ∃ l buffer, a = ofFrames l ∧ l.length = noffH.numPages ∧
      (∀ f ∈ l, f < numPhysPages ∧ f ∉ s.gPhysPageBitMap.marked) ∧
      noffH.loadBuffer file = some buffer ∧
      (∀ i f, l[i]? = some f → ∀ j < pageSize,
        s'.mainMemory (f * pageSize + j) = buffer.getD (i * pageSize + j) 0) ∧
      ∀ x, (∀ f ∈ l, ¬ InFrame f x) → s'.mainMemory x = s.mainMemory x := by
  obtain ⟨-, ⟨hok, -⟩ | ⟨-, -, l, buffer, rfl, hlen, hnodup, hfresh, -, hbuffer, hmem⟩⟩ :=
    loadProgram_cases h
  · cases hok
  obtain ⟨hin, hout⟩ := copyPage_loop hnodup hmem
  obtain ⟨hzero, hkept⟩ := foldl_zeroFrame l s.mainMemory
  refine ⟨l, buffer, rfl, hlen, hfresh, hbuffer, ?_, ?_⟩
  · intro i f hf j hj
    rw [hin i f hf j hj]
    by_cases hlt : i * pageSize + j < buffer.length
    · -- A page with a byte of the buffer is one of those that are copied.
      rw [if_pos ⟨by unfold pageSize at *; omega, hlt⟩]
    · rw [if_neg (fun hand => hlt hand.2), hzero f (List.mem_of_getElem? hf) _ (inFrame_add f hj),
        List.getD_eq_getElem?_getD, List.getElem?_eq_none (by omega)]
      rfl
  · intro x hx
    rw [hout x hx, hkept x hx]

end AddrSpace

/-! ### Through the page table -/

/-- A byte is read from the frame of its page. -/
theorem readMem_ofFrames {l : List ℕ} (hl : ∀ f ∈ l, f < numPhysPages) (mem : ℕ → UInt8)
    {addr : BitVec 32} (haddr : addr.toNat < l.length * pageSize) :
    ∃ f, l[addr.toNat / pageSize]? = some f ∧
      (readMem ⟨none, (AddrSpace.ofFrames l).pageTable, l.length⟩ mem addr 1).map
          (fun r => r.map Prod.fst)
        = some (.ok (Int.bmod (mem (f * pageSize + addr.toNat % pageSize)).toNat 256)) := by
  have hvpn : addr.toNat / pageSize < l.length :=
    Nat.div_lt_of_lt_mul (by rwa [Nat.mul_comm] at haddr)
  have hf := hl _ (List.getElem_mem hvpn)
  have hframe : (⟨(addr.toNat / pageSize : ℕ), l[addr.toNat / pageSize],
      true, false, false, false⟩ : TranslationEntry).pageFrame = l[addr.toNat / pageSize] := by
    show ((l[addr.toNat / pageSize] : Int) % 4294967296).toNat = _
    unfold numPhysPages at hf
    omega
  have hoff : addr.toNat % pageSize < pageSize := Nat.mod_lt _ (by decide)
  have hphys : l[addr.toNat / pageSize] * pageSize + addr.toNat % pageSize + 1 ≤ memorySize := by
    unfold memorySize numPhysPages pageSize at *
    omega
  refine ⟨l[addr.toNat / pageSize], List.getElem?_eq_getElem hvpn, ?_⟩
  unfold readMem Machine.translate
  rw [if_neg (by simp [misaligned])]
  simp only [AddrSpace.ofFrames, if_neg (Nat.not_le.mpr hvpn), List.getElem?_mapIdx,
    List.getElem?_eq_getElem hvpn, Option.map_some, if_pos, translateEntry, Bool.false_and,
    hframe, if_neg (Nat.not_le.mpr hf), if_pos hphys, Bool.false_eq_true, if_false, Except.map]

/-! ### The image -/

/-- The executables with an image: the right magic number, sizes that are not negative, and the
three segments to be loaded disjoint and inside the addresses that their sizes add up to. -/
structure NoffHeader.Loadable (noffH : NoffHeader) : Prop where
  noffMagic : noffH.noffMagic = noffMagicNumber
  size_nonneg : ∀ seg ∈ [noffH.code, noffH.readonlyData, noffH.initData, noffH.uninitData],
    0 ≤ seg.size
  disjoint : [noffH.code, noffH.readonlyData, noffH.initData].Pairwise
    fun seg seg' => ∀ a, ¬ (seg.Contains a ∧ seg'.Contains a)
  contained : ∀ seg ∈ [noffH.code, noffH.readonlyData, noffH.initData], seg.size ≠ 0 →
    0 ≤ seg.virtualAddr ∧ seg.virtualAddr + seg.size ≤
      noffH.code.size + noffH.readonlyData.size + noffH.initData.size

/-- The frames that the program needs, by the sizes of its segments and of the stack. -/
def NoffHeader.framesNeeded (noffH : NoffHeader) : Int :=
  (noffH.code.size + noffH.readonlyData.size + noffH.initData.size + noffH.uninitData.size +
    userStackSize + pageSize - 1) / pageSize

namespace NoffHeader

variable {noffH : NoffHeader} {file : HostFile}

/-- In a buffer of disjoint segments every segment is found as the file has it. -/
theorem Loadable.getD_eq (h : noffH.Loadable) {buffer : List UInt8}
    (hb : noffH.loadBuffer file = some buffer) (a : ℕ) :
    (∀ seg ∈ [noffH.code, noffH.readonlyData, noffH.initData], seg.Contains a →
      buffer.getD a 0 = (seg.byteAt file a).getD 0) ∧
    ((∀ seg ∈ [noffH.code, noffH.readonlyData, noffH.initData], ¬ seg.Contains a) →
      buffer.getD a 0 = 0) := by
  have hnone : ∀ seg : Segment, ¬ seg.Contains a → seg.byteAt file a = none := fun seg hseg =>
    if_neg hseg
  have hd := h.disjoint
  simp only [List.pairwise_cons, List.mem_cons, List.not_mem_nil, or_false, forall_eq_or_imp,
    forall_eq, IsEmpty.forall_iff, implies_true, List.Pairwise.nil, and_true] at hd
  obtain ⟨⟨hcr, hci⟩, hri⟩ := hd
  rw [(loadBuffer_getD hb).2 a]
  constructor
  · intro seg hseg hin
    simp only [List.mem_cons, List.not_mem_nil, or_false] at hseg
    rcases hseg with rfl | rfl | rfl
    · rw [hnone _ fun hi => hci a ⟨hin, hi⟩, hnone _ fun hr => hcr a ⟨hin, hr⟩]
      rfl
    · rw [hnone _ fun hi => hri a ⟨hin, hi⟩, hnone _ fun hc => hcr a ⟨hc, hin⟩]
      rfl
    · rw [hnone _ fun hc => hci a ⟨hc, hin⟩, hnone _ fun hr => hri a ⟨hr, hin⟩]
      rfl
  · intro hall
    rw [hnone _ (hall _ (by simp)), hnone _ (hall _ (by simp)), hnone _ (hall _ (by simp))]
    rfl

/-- With enough free frames no size can have overflowed. -/
theorem Loadable.wellFormed (h : noffH.Loadable) {b : Bitmap numPhysPages}
    (hclear : noffH.framesNeeded ≤ b.numClear)
    (hpos : ∀ seg ∈ [noffH.code, noffH.readonlyData, noffH.initData], seg.size ≠ 0 →
      0 ≤ seg.inFileAddr) : noffH.WellFormed := by
  have hle : b.numClear ≤ 128 := by
    have hcard := b.numClear_add_card
    have hnum : numPhysPages = 128 := rfl
    omega
  refine ⟨h.noffMagic, h.size_nonneg, ?_, fun seg hseg h0 =>
    ⟨hpos seg hseg h0, h.contained seg hseg h0⟩⟩
  unfold framesNeeded pageSize at hclear
  unfold maxInt
  omega

/-- The number of pages is the number of frames needed. -/
theorem WellFormed.numPages_eq (h : noffH.WellFormed) :
    (noffH.numPages : Int) = noffH.framesNeeded := by
  have hsizes := h.sizes
  have hsize := h.addressSpaceSize_eq
  have htotal := h.total_le
  obtain ⟨t, ht⟩ := Int.eq_ofNat_of_zero_le (a := noffH.addressSpaceSize) (by omega)
  unfold numPages framesNeeded
  rw [ht, divRoundUp_natCast _ _ (by decide)]
  unfold userStackSize maxInt at *
  unfold pageSize
  omega

end NoffHeader

variable {P : Type*} [DecidableEq P]

/-- **The loader builds the right image.** For every executable with an image, every bitmap and
every memory: with enough free frames `Load` returns `TRUE` (if no segment is said to start in front
of the file); and whenever it has returned `TRUE`, a byte that the program reads after a switch to
the new address space is the byte of the file's segment that contains its address, and zero if none
does; the frames were free, and no other frame has changed. -/
theorem load_builds_image (file : HostFile) (junk : ℕ → UInt8)
    (h : (file.noffHeader junk).Loadable) (s : PhysMem) :
    ((file.noffHeader junk).framesNeeded ≤ s.gPhysPageBitMap.numClear →
      (∀ seg ∈ [(file.noffHeader junk).code, (file.noffHeader junk).readonlyData,
        (file.noffHeader junk).initData], seg.size ≠ 0 → 0 ≤ seg.inFileAddr) →
      ∃ a s', AddrSpace.load (some file) junk s = some (true, a, s')) ∧
    ∀ a s', AddrSpace.load (some file) junk s = some (true, a, s') →
      (∀ (m : MemState P) p, m.phys = s' → m.space p = a →
        ∀ addr : BitVec 32, addr.toNat < a.numPages * pageSize →
          (∀ seg ∈ [(file.noffHeader junk).code, (file.noffHeader junk).readonlyData,
            (file.noffHeader junk).initData], seg.Contains addr.toNat →
            m.readUnder p addr 1
              = some (.ok (Int.bmod ((seg.byteAt file addr.toNat).getD 0).toNat 256))) ∧
          ((∀ seg ∈ [(file.noffHeader junk).code, (file.noffHeader junk).readonlyData,
            (file.noffHeader junk).initData], ¬ seg.Contains addr.toNat) →
            m.readUnder p addr 1 = some (.ok 0))) ∧
      (∀ f ∈ a.frames, f < numPhysPages ∧ f ∉ s.gPhysPageBitMap.marked) ∧
      ∀ f, f ∉ a.frames → ∀ j < pageSize,
        s'.mainMemory (f * pageSize + j) = s.mainMemory (f * pageSize + j) := by
  constructor
  · intro hclear hpos
    have hwf := h.wellFormed hclear hpos
    obtain ⟨ok, a, s', hload, hok, -⟩ := AddrSpace.load_of_wellFormed hwf s
    have hpages := hwf.numPages_eq
    rw [hok.mpr (by omega)] at hload
    exact ⟨a, s', hload⟩
  · intro a s' hload
    have hprog : AddrSpace.loadProgram (file.noffHeader junk) file s = some (true, a, s') := hload
    obtain ⟨l, buffer, rfl, hlen, hfresh, hbuffer, hin, hout⟩ :=
      AddrSpace.loadProgram_memory hprog
    have hlt : ∀ f ∈ l, f < numPhysPages := fun f hf => (hfresh f hf).1
    rw [AddrSpace.frames_ofFrames hlt]
    refine ⟨?_, hfresh, fun f hf j hj => hout _ fun g hg hx => ?_⟩
    · rintro m p rfl hp addr haddr
      obtain ⟨f, hf, hread⟩ := readMem_ofFrames hlt m.phys.mainMemory haddr
      -- The byte in the frame is the byte of the buffer at the virtual address.
      have hbyte := hin _ f hf (addr.toNat % pageSize) (Nat.mod_lt _ (by decide))
      rw [Nat.mul_comm (addr.toNat / pageSize), Nat.div_add_mod] at hbyte
      have hunder : m.readUnder p addr 1 =
        some (.ok (Int.bmod (buffer.getD addr.toNat 0).toNat 256)) := by
        rw [MemState.readUnder_eq, hp]
        show Option.map _ (readMem ⟨none, (AddrSpace.ofFrames l).pageTable, l.length⟩ _ addr 1) = _
        rw [hread, hbyte]
      obtain ⟨hseg, hnone⟩ := h.getD_eq hbuffer addr.toNat
      refine ⟨fun seg hmem hcontains => ?_, fun hall => ?_⟩
      · rw [hunder, hseg seg hmem hcontains]
      · rw [hunder, hnone hall, UInt8.toNat_zero, Nat.cast_zero, Int.zero_bmod]
    · have hfg : f = g := (inFrame_add f hj).unique hx
      exact hf (hfg ▸ hg)

/-- A program of three bytes of code, two bytes of initialised data and ten of other data. -/
def smallProgram : HostFile :=
  [0xad, 0xdf, 0xba, 0] ++ [0, 0, 0, 0, 52, 0, 0, 0, 3, 0, 0, 0] ++
    [3, 0, 0, 0, 55, 0, 0, 0, 2, 0, 0, 0] ++ List.replicate 12 0 ++
    [5, 0, 0, 0, 0, 0, 0, 0, 10, 0, 0, 0] ++ [1, 2, 3, 200, 5]

theorem smallProgram_header : smallProgram.noffHeader (fun _ => 0) =
    ⟨noffMagicNumber, ⟨0, 52, 3⟩, ⟨3, 55, 2⟩, ⟨0, 0, 0⟩, ⟨5, 0, 10⟩⟩ := by
  decide +kernel

theorem smallProgram_loadable : (smallProgram.noffHeader fun _ => 0).Loadable := by
  rw [smallProgram_header]
  refine ⟨rfl, by decide, ?_, by decide⟩
  simp only [List.pairwise_cons, List.mem_cons, List.not_mem_nil, or_false, forall_eq_or_imp,
    forall_eq, Segment.Contains]
  refine ⟨⟨?_, ?_⟩, ?_, by simp⟩ <;> intro a <;> omega

/-- The program is loaded into a memory that is full of sevens: the first byte of its data, 200, is
read as a signed number, and a byte behind its data as zero. -/
theorem load_builds_image_smallProgram :
    ∃ a s', AddrSpace.load (some smallProgram) (fun _ => 0) ⟨fun _ => 7, .new numPhysPages⟩
        = some (true, a, s') ∧
      (⟨s', {0}, fun _ => a, .null, 0⟩ : MemState (Fin 1)).readUnder 0 3 1 = some (.ok (-56)) ∧
      (⟨s', {0}, fun _ => a, .null, 0⟩ : MemState (Fin 1)).readUnder 0 5 1 = some (.ok 0) := by
  obtain ⟨hreturns, himage⟩ := load_builds_image (P := Fin 1) smallProgram (fun _ => 0)
    smallProgram_loadable ⟨fun _ => 7, .new numPhysPages⟩
  rw [smallProgram_header] at hreturns himage
  obtain ⟨a, s', hload⟩ := hreturns (by decide +kernel) (by decide)
  have hpages : a.numPages = 9 := by
    obtain ⟨l, buffer, rfl, hlen, -⟩ := AddrSpace.loadProgram_memory hload
    rw [smallProgram_header] at hlen
    rw [show (AddrSpace.ofFrames l).numPages = l.length from rfl, hlen]
    decide
  obtain ⟨hread, -⟩ := himage a s' hload
  obtain ⟨hdata, -⟩ := hread ⟨s', {0}, fun _ => a, .null, 0⟩ 0 rfl rfl 3 (by rw [hpages]; decide)
  obtain ⟨-, hrest⟩ := hread ⟨s', {0}, fun _ => a, .null, 0⟩ 0 rfl rfl 5 (by rw [hpages]; decide)
  refine ⟨a, s', hload, ?_, hrest (by decide)⟩
  rw [hdata ⟨3, 55, 2⟩ (by simp) (by decide)]
  decide +kernel

end Nachos.UserProg
