import Nachos.Coff2Noff.Convert
import Nachos.UserProg.LoadImage

namespace Nachos.Coff2Noff

open Base UserProg

/-!
# Coff2Noff — the segments of the output

On a well-formed input the output is the NOFF header, and behind it the raw data of the sections
that are copied, in their order (`coff2noff_ok`). The position of a section is counted in a variable
of its own, which agrees with the offset of the file as long as that is an `int`.

* `convertSections_ok` — the loop, from any state between two of its rounds;
* `segment_of_present`, `segment_of_absent` — the segments that the header has in the end;
* `segments_preserved` — the segments of the output are the sections of the input.
-/

/-! ### What the loop adds to the two files -/

namespace Scnhdr

/-- There is a section of this kind, with something in it. -/
def Present (s : Scnhdr) (k : SegKind) : Prop := s.s_size ≠ 0 ∧ s.kind = some k

instance (s : Scnhdr) (k : SegKind) : Decidable (s.Present k) := inferInstanceAs (Decidable (_ ∧ _))

/-- The section is copied. -/
def copied (s : Scnhdr) : Bool :=
  decide (s.Present .text) || decide (s.Present .data) || decide (s.Present .rdata)

/-- The raw data of a section. -/
def rawData (coff : HostFile) (s : Scnhdr) : List UInt8 :=
  if s.copied then (coff.drop s.s_scnptr.toNat).take s.s_size.toNat else []

/-- The raw data is inside the file. -/
structure InFile (coff : HostFile) (s : Scnhdr) : Prop where
  scnptr : 0 ≤ s.s_scnptr
  size : 0 ≤ s.s_size
  le : s.s_scnptr + s.s_size ≤ coff.length

end Scnhdr

/-- The data behind the header. -/
def body (coff : HostFile) (sections : List Scnhdr) : List UInt8 :=
  sections.flatMap (·.rawData coff)

theorem body_append (coff : HostFile) (sections sections' : List Scnhdr) :
    body coff (sections ++ sections') = body coff sections ++ body coff sections' :=
  List.flatMap_append

theorem body_cons (coff : HostFile) (s : Scnhdr) (sections : List Scnhdr) :
    body coff (s :: sections) = s.rawData coff ++ body coff sections :=
  List.flatMap_cons

end Nachos.Coff2Noff

namespace Nachos.UserProg.NoffHeader

open Base Coff2Noff

/-- The segment of this kind. -/
def segment (h : NoffHeader) : SegKind → Segment
  | .text => h.code
  | .data => h.initData
  | .rdata => h.readonlyData
  | .bss => h.uninitData

/-- The header with another segment of this kind. -/
def put (h : NoffHeader) (k : SegKind) (seg : Segment) : NoffHeader :=
  match k with
  | .text => { h with code := seg }
  | .data => { h with initData := seg }
  | .rdata => { h with readonlyData := seg }
  | .bss => { h with uninitData := seg }

theorem segment_put_self (h : NoffHeader) (k : SegKind) (seg : Segment) :
    (h.put k seg).segment k = seg := by
  cases k <;> rfl

theorem segment_put_of_ne (h : NoffHeader) {k k' : SegKind} (hne : k' ≠ k) (seg : Segment) :
    (h.put k seg).segment k' = h.segment k' := by
  cases k <;> cases k' <;> first | rfl | exact absurd rfl hne

theorem noffMagic_put (h : NoffHeader) (k : SegKind) (seg : Segment) :
    (h.put k seg).noffMagic = h.noffMagic := by
  cases k <;> rfl

end Nachos.UserProg.NoffHeader

namespace Nachos.Coff2Noff

open Base UserProg

/-- What a round of the loop does to the variables. -/
def Locals.record (l : Locals) (s : Scnhdr) : Locals :=
  if s.s_size = 0 then l
  else
    match s.kind with
    | none => l
    | some .bss =>
      { l with noffH := l.noffH.put .bss ⟨s.s_paddr, l.noffH.uninitData.inFileAddr, s.s_size⟩ }
    | some k =>
      ⟨l.noffH.put k ⟨s.s_paddr, l.inNoffFile, s.s_size⟩, wrap32 (l.inNoffFile + s.s_size)⟩

section Round

variable {H : Host} {coff : HostFile} {s : Scnhdr} {l : Locals} {f : Files} {b : List UInt8}

theorem length_le_of_getElem? {out : HostFile} {k : ℕ} (h : ∀ i, out[k + i]? = b[i]?) :
    out.length ≤ k + b.length := by
  have hend := h b.length
  rw [List.getElem?_eq_none le_rfl] at hend
  exact List.getElem?_eq_none_iff.mp hend

/-- What is behind the first `k` bytes of a file, when more is written there. -/
theorem getElem?_writeAt_append {out : HostFile} {raw : List UInt8} {k : ℕ}
    (h : ∀ i, out[k + i]? = b[i]?) (hraw : raw ≠ []) (i : ℕ) :
    (out.writeAt raw (k + b.length))[k + i]? = (b ++ raw)[i]? := by
  have hlen := length_le_of_getElem? h
  by_cases hi : i < b.length
  · have hlt : k + i < out.length := by
      have hb := h i
      rw [List.getElem?_eq_getElem hi] at hb
      exact (List.getElem?_eq_some_iff.mp hb).1
    rw [List.getElem?_append_left hi, HostFile.getElem?_writeAt_of_notMem hlt (.inl (by omega)),
      h i]
  · rw [List.getElem?_append_right (by omega)]
    obtain ⟨j, rfl⟩ : ∃ j, i = b.length + j := ⟨i - b.length, by omega⟩
    rw [← Nat.add_assoc, Nat.add_sub_cancel_left]
    by_cases hj : j < raw.length
    · rw [HostFile.getElem?_writeAt hj]
    · have hlength : (out.writeAt raw (k + b.length)).length =
        max out.length (k + b.length + raw.length) := HostFile.length_writeAt hraw
      rw [List.getElem?_eq_none (by omega), List.getElem?_eq_none (by omega)]

/-- **A section that is copied.** -/
theorem copySection_ok (put : NoffHeader → Segment → NoffHeader) (hin : s.InFile coff)
    (hmalloc : H.malloc s.s_size.toNat = true) (hmoves : H.moves s.s_size.toNat = true)
    (hmax : f.outPos + s.s_size.toNat ≤ maxOffset) :
    ∃ inPos, copySection H coff put s l f =
      .ok ⟨put l.noffH ⟨s.s_paddr, l.inNoffFile, s.s_size⟩, wrap32 (l.inNoffFile + s.s_size)⟩
        { f with
          inPos := inPos
          out := f.out.writeAt ((coff.drop s.s_scnptr.toNat).take s.s_size.toNat) f.outPos
          outPos := f.outPos + s.s_size.toNat } := by
  obtain ⟨n, hn⟩ := Int.eq_ofNat_of_zero_le hin.size
  have hlen := hin.le
  have hscnptr := hin.scnptr
  rw [hn, Int.toNat_natCast] at hmalloc hmoves hmax ⊢
  have hseek : seekIn s.s_scnptr f = .ok () { f with inPos := s.s_scnptr.toNat } := by
    unfold seekIn
    rw [if_neg (by omega)]
  have hread : read H coff (H.malloc n) n { f with inPos := s.s_scnptr.toNat } =
      .ok ((coff.drop s.s_scnptr.toNat).take n) { f with inPos := s.s_scnptr.toNat + n } := by
    apply read_ok (fun _ => ⟨hmalloc, hmoves⟩)
    dsimp only
    omega
  have hwrite : write H (H.malloc n) ((coff.drop s.s_scnptr.toNat).take n) n
      { f with inPos := s.s_scnptr.toNat + n } = .ok () { f with
        inPos := s.s_scnptr.toNat + n
        out := f.out.writeAt ((coff.drop s.s_scnptr.toNat).take n) f.outPos
        outPos := f.outPos + n } := by
    unfold write
    rw [Int.toNat_natCast, if_pos ⟨served_of_moves fun _ => ⟨hmalloc, hmoves⟩, hmax⟩,
      List.take_take, Nat.min_self]
  refine ⟨s.s_scnptr.toNat + n, ?_⟩
  unfold copySection
  rw [bind_ok hseek, hn, Int.toNat_natCast, bind_ok hread, bind_ok hwrite]
  rfl

theorem Scnhdr.copied_iff : s.copied = true ↔ s.s_size ≠ 0 ∧ ∃ k, s.kind = some k ∧ k ≠ .bss := by
  unfold copied
  simp only [Bool.or_eq_true, decide_eq_true_eq]
  constructor
  · rintro ((⟨h0, hk⟩ | ⟨h0, hk⟩) | ⟨h0, hk⟩)
    · exact ⟨h0, _, hk, by decide⟩
    · exact ⟨h0, _, hk, by decide⟩
    · exact ⟨h0, _, hk, by decide⟩
  · rintro ⟨h0, k, hk, hne⟩
    cases k with
    | text => exact .inl (.inl ⟨h0, hk⟩)
    | data => exact .inl (.inr ⟨h0, hk⟩)
    | rdata => exact .inr ⟨h0, hk⟩
    | bss => exact absurd rfl hne

theorem Scnhdr.Present.not_copied (h : s.Present .bss) : ¬ s.copied = true := by
  intro hcopied
  obtain ⟨-, k, hk, hne⟩ := copied_iff.mp hcopied
  exact hne (Option.some.inj (hk.symm.trans h.2))

theorem Scnhdr.rawData_of_copied (h : s.copied = true) :
    s.rawData coff = (coff.drop s.s_scnptr.toNat).take s.s_size.toNat := if_pos h

theorem Scnhdr.rawData_of_not_copied (h : ¬ s.copied = true) : s.rawData coff = [] := if_neg h

theorem Scnhdr.InFile.length_rawData (h : s.InFile coff) (hcopied : s.copied = true) :
    (s.rawData coff).length = s.s_size.toNat := by
  have hscnptr := h.scnptr
  have hle := h.le
  have hsize := h.size
  rw [rawData_of_copied hcopied]
  apply length_take_drop
  omega

/-- The three cases of sections that are copied. -/
theorem convertSection_copied {k : SegKind} (h0 : s.s_size ≠ 0) (hk : s.kind = some k)
    (hne : k ≠ .bss) :
    convertSection H coff l s = copySection H coff (fun h seg => h.put k seg) s l := by
  unfold convertSection
  rw [if_neg h0, hk]
  cases k with
  | text => rfl
  | data => rfl
  | rdata => rfl
  | bss => exact absurd rfl hne

theorem convertSection_bss (h : s.Present .bss) : convertSection H coff l s = bssSection s l := by
  unfold convertSection
  rw [if_neg h.1, h.2]

/-- **What a round can be.** -/
theorem convertSection_cases {l' : Locals} {f' : Files}
    (h : convertSection H coff l s f = .ok l' f') :
    (s.s_size = 0 ∧ l' = l ∧ f' = f) ∨
      (∃ k, k ≠ .bss ∧ s.Present k ∧ copySection H coff (fun h seg => h.put k seg) s l f =
      .ok l' f') ∨ (s.Present .bss ∧ bssSection s l f = .ok l' f') := by
  by_cases h0 : s.s_size = 0
  · unfold convertSection at h
    rw [if_pos h0] at h
    cases h
    exact .inl ⟨h0, rfl, rfl⟩
  · cases hk : s.kind with
    | none =>
      unfold convertSection at h
      rw [if_neg h0, hk] at h
      cases h
    | some k =>
      by_cases hne : k = .bss
      · subst hne
        rw [convertSection_bss ⟨h0, hk⟩] at h
        exact .inr (.inr ⟨⟨h0, hk⟩, h⟩)
      · rw [convertSection_copied h0 hk hne] at h
        exact .inr (.inl ⟨k, hne, ⟨h0, hk⟩, h⟩)

/-- A section of uninitialised data does not touch the files. -/
theorem files_of_bss {l' : Locals} {f' : Files} (h : bssSection s l f = .ok l' f') : f' = f := by
  unfold bssSection at h
  simp only at h
  split at h
  · split at h
    · cases h
    · cases h
      rfl
  · cases h
    rfl

theorem record_copied {k : SegKind} (h0 : s.s_size ≠ 0) (hk : s.kind = some k) (hne : k ≠ .bss) :
    l.record s = ⟨l.noffH.put k ⟨s.s_paddr, l.inNoffFile, s.s_size⟩,
      wrap32 (l.inNoffFile + s.s_size)⟩ := by
  unfold Locals.record
  rw [if_neg h0, hk]
  cases k with
  | text => rfl
  | data => rfl
  | rdata => rfl
  | bss => exact absurd rfl hne

theorem record_bss (h : s.Present .bss) :
    l.record s = { l with
      noffH := l.noffH.put .bss ⟨s.s_paddr, l.noffH.uninitData.inFileAddr, s.s_size⟩ } := by
  unfold Locals.record
  rw [if_neg h.1, h.2]

/-- Between two rounds: this is behind the header, and the counter agrees with the file. -/
structure Laid (b : List UInt8) (l : Locals) (f : Files) : Prop where
  out : ∀ i, f.out[noffHeaderSize + i]? = b[i]?
  outPos : f.outPos = noffHeaderSize + b.length
  inNoffFile : l.inNoffFile = noffHeaderSize + b.length
  linked : f.linked = true

/-- A section that can be converted. -/
structure Convertible (H : Host) (coff : HostFile) (s : Scnhdr) : Prop where
  named : s.s_size ≠ 0 → ∃ k, s.kind = some k
  inFile : s.copied = true → s.InFile coff
  malloc : s.copied = true → H.malloc s.s_size.toNat = true
  moves : s.copied = true → H.moves s.s_size.toNat = true

/-- Behind a section that has been copied. -/
theorem Laid.copied (hlaid : Laid b l f) (hin : s.InFile coff) (hcopied : s.copied = true)
    (hmax : noffHeaderSize + (b ++ s.rawData coff).length ≤ maxOffset) (noffH : NoffHeader)
    (inPos : ℕ) : Laid (b ++ s.rawData coff) ⟨noffH, wrap32 (l.inNoffFile + s.s_size)⟩
      { f with
        inPos := inPos
        out := f.out.writeAt ((coff.drop s.s_scnptr.toNat).take s.s_size.toNat) f.outPos
        outPos := f.outPos + s.s_size.toNat } := by
  have hlen := hin.length_rawData hcopied
  have hsize := hin.size
  have h0 := (Scnhdr.copied_iff.mp hcopied).1
  rw [List.length_append, hlen] at hmax
  refine ⟨fun i => ?_, ?_, ?_, hlaid.linked⟩
  · have hraw : s.rawData coff ≠ [] := by
      intro hnil
      rw [hnil, List.length_nil] at hlen
      omega
    rw [← Scnhdr.rawData_of_copied hcopied, hlaid.outPos]
    exact getElem?_writeAt_append hlaid.out hraw i
  · rw [List.length_append, hlen, hlaid.outPos, Nat.add_assoc]
  · unfold maxOffset at hmax
    rw [hlaid.inNoffFile, List.length_append, hlen,
      wrap32_of_nonneg (by omega) (by unfold maxInt; omega)]
    push_cast
    omega

/-- **One round.** -/
theorem convertSection_ok (hs : Convertible H coff s) (hlaid : Laid b l f)
    (hmax : noffHeaderSize + (b ++ s.rawData coff).length ≤ maxOffset)
    (hbss : s.Present .bss → l.noffH.uninitData.size = 0) :
    ∃ f', convertSection H coff l s f = .ok (l.record s) f' ∧
    Laid (b ++ s.rawData coff) (l.record s) f' := by
  by_cases h0 : s.s_size = 0
  · have hnot : ¬ s.copied = true := fun h => (Scnhdr.copied_iff.mp h).1 h0
    have hrecord : l.record s = l := if_pos h0
    refine ⟨f, ?_, ?_⟩
    · unfold convertSection
      rw [if_pos h0, hrecord]
      rfl
    · rw [Scnhdr.rawData_of_not_copied hnot, hrecord, List.append_nil]
      exact hlaid
  · obtain ⟨k, hk⟩ := hs.named h0
    by_cases hne : k = .bss
    · subst hne
      have hnot := Scnhdr.Present.not_copied ⟨h0, hk⟩
      refine ⟨f, ?_, ?_⟩
      · rw [convertSection_bss ⟨h0, hk⟩, record_bss ⟨h0, hk⟩]
        unfold bssSection
        rw [if_neg (not_not.mpr (hbss ⟨h0, hk⟩))]
        rfl
      · rw [Scnhdr.rawData_of_not_copied hnot, record_bss ⟨h0, hk⟩, List.append_nil]
        exact ⟨hlaid.out, hlaid.outPos, hlaid.inNoffFile, hlaid.linked⟩
    · have hcopied := Scnhdr.copied_iff.mpr ⟨h0, k, hk, hne⟩
      have hin := hs.inFile hcopied
      have hfits : f.outPos + s.s_size.toNat ≤ maxOffset := by
        rw [List.length_append, hin.length_rawData hcopied] at hmax
        rw [hlaid.outPos]
        omega
      obtain ⟨inPos, hcopy⟩ :=
        copySection_ok (l := l) (fun h seg => h.put k seg) hin (hs.malloc hcopied)
        (hs.moves hcopied) hfits
      rw [convertSection_copied h0 hk hne, record_copied h0 hk hne]
      exact ⟨_, hcopy, hlaid.copied hin hcopied hmax _ inPos⟩

end Round

/-! ### The loop -/

/-- There is at most one section of each kind. -/
def Once (sections : List Scnhdr) : Prop :=
  sections.Pairwise fun s s' => ∀ k, s.Present k → ¬ s'.Present k

section Loop

variable {H : Host} {coff : HostFile} {sections : List Scnhdr} {k : SegKind}

/-- What a round may do to the header. -/
theorem record_cases (l : Locals) (s : Scnhdr) :
    l.record s = l ∨ ∃ k seg, s.Present k ∧ (l.record s).noffH = l.noffH.put k seg := by
  by_cases h0 : s.s_size = 0
  · exact .inl (if_pos h0)
  · cases hk : s.kind with
    | none =>
      left
      unfold Locals.record
      rw [if_neg h0, hk]
    | some k =>
      right
      by_cases hne : k = .bss
      · subst hne
        rw [record_bss ⟨h0, hk⟩]
        exact ⟨.bss, _, ⟨h0, hk⟩, rfl⟩
      · rw [record_copied h0 hk hne]
        exact ⟨k, _, ⟨h0, hk⟩, rfl⟩

theorem segment_record_of_not_present (l : Locals) {s : Scnhdr} (h : ¬ s.Present k) :
    (l.record s).noffH.segment k = l.noffH.segment k := by
  rcases record_cases l s with hsame | ⟨k', seg, hpresent, hput⟩
  · rw [hsame]
  · rw [hput]
    apply NoffHeader.segment_put_of_ne
    rintro rfl
    exact h hpresent

theorem segment_of_absent (l : Locals) (h : ∀ s ∈ sections, ¬ s.Present k) :
    (sections.foldl Locals.record l).noffH.segment k = l.noffH.segment k := by
  induction sections generalizing l with
  | nil => rfl
  | cons s sections ih =>
    rw [List.forall_mem_cons] at h
    rw [List.foldl_cons, ih _ h.2, segment_record_of_not_present l h.1]

theorem noffMagic_foldl (l : Locals) : (sections.foldl Locals.record l).noffH.noffMagic =
    l.noffH.noffMagic := by
  induction sections generalizing l with
  | nil => rfl
  | cons s sections ih =>
    rw [List.foldl_cons, ih]
    rcases record_cases l s with hsame | ⟨k, seg, -, hput⟩
    · rw [hsame]
    · rw [hput, NoffHeader.noffMagic_put]

/-- **The loop.** -/
theorem convertSections_ok {b : List UInt8} {l : Locals} {f : Files}
    (hs : ∀ s ∈ sections, Convertible H coff s) (honce : Once sections) (hlaid : Laid b l f)
    (hmax : noffHeaderSize + (b ++ body coff sections).length ≤ maxOffset)
    (hbss : ∀ s ∈ sections, s.Present .bss → l.noffH.uninitData.size = 0) :
    ∃ f', convertSections H coff sections l f = .ok (sections.foldl Locals.record l) f' ∧
      Laid (b ++ body coff sections) (sections.foldl Locals.record l) f' := by
  induction sections generalizing b l f with
  | nil =>
    refine ⟨f, rfl, ?_⟩
    show Laid (b ++ []) l f
    rw [List.append_nil]
    exact hlaid
  | cons s sections ih =>
    rw [List.forall_mem_cons] at hs hbss
    obtain ⟨hother, honce⟩ := List.pairwise_cons.mp honce
    rw [body_cons, ← List.append_assoc] at hmax ⊢
    obtain ⟨f₁, hround, hlaid₁⟩ := convertSection_ok hs.1 hlaid
      (by rw [List.length_append] at hmax; omega) hbss.1
    -- The segment of uninitialised data is still empty if there is a section for it to come.
    have hbss₁ : ∀ s' ∈ sections, s'.Present .bss → (l.record s).noffH.uninitData.size = 0 := by
      intro s' hs' hpresent
      have hnot : ¬ s.Present .bss := fun h => hother s' hs' .bss h hpresent
      have hkept := segment_record_of_not_present l hnot
      show ((l.record s).noffH.segment .bss).size = 0
      rw [hkept]
      exact hbss.2 s' hs' hpresent
    obtain ⟨f₂, hrest, hlaid₂⟩ := ih hs.2 honce hlaid₁ hmax hbss₁
    refine ⟨f₂, ?_, hlaid₂⟩
    unfold convertSections at hrest ⊢
    rw [List.foldlM_cons, bind_ok hround]
    exact hrest

end Loop

/-! ### The header that is read back -/

section Header

theorem getElem?_toBytes (h : NoffHeader) {i : ℕ} (hi : i < 52) :
    h.toBytes[i]? = some (intByte (h.word (i / 4)) (i % 4)) := by
  unfold NoffHeader.toBytes noffHeaderSize
  rw [List.getElem?_map, List.getElem?_range hi]
  rfl

theorem length_toBytes (h : NoffHeader) : h.toBytes.length = 52 := by
  unfold NoffHeader.toBytes
  rw [List.length_map, List.length_range]
  rfl

/-- The words of a header that is stored in these bytes. -/
theorem segment_ofBytes {h : NoffHeader} {b : ℕ → UInt8}
    (hword : ∀ w < 13, intOfBytes (fun j => b (4 * w + j)) = wrap32 (h.word w)) (k : SegKind) :
    (NoffHeader.ofBytes b).segment k =
      ⟨wrap32 (h.segment k).virtualAddr, wrap32 (h.segment k).inFileAddr,
      wrap32 (h.segment k).size⟩ := by
  have hseg : ∀ w, w + 2 < 13 → Segment.ofBytes b (4 * w) =
      ⟨wrap32 (h.word w), wrap32 (h.word (w + 1)), wrap32 (h.word (w + 2))⟩ := by
    intro w hw
    rw [← hword w (by omega), ← hword (w + 1) (by omega), ← hword (w + 2) hw]
    rfl
  cases k with
  | text => exact hseg 1 (by decide)
  | data => exact hseg 4 (by decide)
  | rdata => exact hseg 7 (by decide)
  | bss => exact hseg 10 (by decide)

/-- **The header as `Load` reads it** is the one that has been written. -/
theorem noffHeader_toBytes (h : NoffHeader) (b : List UInt8) (junk : ℕ → UInt8) :
    (HostFile.noffHeader (h.toBytes ++ b) junk).noffMagic = wrap32 h.noffMagic ∧
      ∀ k, (HostFile.noffHeader (h.toBytes ++ b) junk).segment k =
        ⟨wrap32 (h.segment k).virtualAddr, wrap32 (h.segment k).inFileAddr,
        wrap32 (h.segment k).size⟩ := by
  obtain ⟨bytes, hbytes⟩ : ∃ bytes : ℕ → UInt8, bytes = fun i =>
      if i < 52 then ((h.toBytes ++ b)[i]?).getD (junk i) else 0 := ⟨_, rfl⟩
  have hword : ∀ w < 13, intOfBytes (fun j => bytes (4 * w + j)) = wrap32 (h.word w) := by
    intro w hw
    rw [← intOfBytes_intByte]
    apply intOfBytes_congr
    intro j hj
    have hdiv : (4 * w + j) / 4 = w := by omega
    have hmod : (4 * w + j) % 4 = j := by omega
    simp only [hbytes]
    rw [if_pos (by omega), List.getElem?_append_left (by rw [length_toBytes]; omega),
      getElem?_toBytes h (by omega), Option.getD_some, hdiv, hmod]
  have hheader : HostFile.noffHeader (h.toBytes ++ b) junk = .ofBytes bytes :=
    congrArg NoffHeader.ofBytes hbytes.symm
  refine ⟨(congrArg NoffHeader.noffMagic hheader).trans ?_, fun k => ?_⟩
  · have hmagic := hword 0 (by decide)
    have hfirst : h.word 0 = h.noffMagic := rfl
    simp only [Nat.mul_zero, Nat.zero_add, hfirst] at hmagic
    simp only [NoffHeader.ofBytes]
    exact hmagic
  · exact (congrArg (fun h' => h'.segment k) hheader).trans (segment_ofBytes hword k)

end Header

/-! ### The output -/

/-- A COFF file that the program is made for: the magic numbers are right, and the raw data of every
section is inside the file. -/
structure WellFormed (coff : HostFile) : Prop where
  headers : HasHeaders coff
  inFile : ∀ s ∈ sectionsOf coff, s.copied = true → s.InFile coff

/-- The sections with something in them have the four names, each at most once. -/
structure FourSections (coff : HostFile) : Prop where
  named : ∀ s ∈ sectionsOf coff, s.s_size ≠ 0 → ∃ k, s.kind = some k
  once : Once (sectionsOf coff)

/-- The host gives the memory and moves the bytes that the program asks for. -/
structure Host.Serves (H : Host) (coff : HostFile) : Prop where
  headers : H.ServesHeaders coff
  malloc : ∀ s ∈ sectionsOf coff, s.copied = true → H.malloc s.s_size.toNat = true
  moves : ∀ s ∈ sectionsOf coff, s.copied = true → H.moves s.s_size.toNat = true
  noffHeader : H.moves noffHeaderSize = true

/-- The variables when the loop starts. -/
def Locals.initial (junk : Buffer) : Locals := ⟨.initial junk, noffHeaderSize⟩

section Output

variable {H : Host} {coff : HostFile} {sections : List Scnhdr} {k : SegKind}
    {pre post : List Scnhdr}

/-- The header is put into the gap. -/
theorem writeAt_zero_append {out : HostFile} {b header : List UInt8}
    (hlen : header.length = noffHeaderSize)
    (h : ∀ i, out[noffHeaderSize + i]? = b[i]?) : out.writeAt header 0 = header ++ b := by
  have hne : header ≠ [] := List.ne_nil_of_length_pos (by rw [hlen]; decide)
  have hout := length_le_of_getElem? h
  have hlength : (out.writeAt header 0).length = max out.length (0 + header.length) :=
    HostFile.length_writeAt hne
  apply List.ext_getElem?
  intro i
  by_cases hi : i < header.length
  · have hwrite : (out.writeAt header 0)[0 + i]? = header[i]? := HostFile.getElem?_writeAt hi
    rw [Nat.zero_add] at hwrite
    rw [List.getElem?_append_left hi, hwrite]
  · rw [List.getElem?_append_right (by omega)]
    obtain ⟨j, rfl⟩ : ∃ j, i = header.length + j := ⟨i - header.length, by omega⟩
    rw [Nat.add_sub_cancel_left, hlen, ← h j]
    by_cases hj : noffHeaderSize + j < out.length
    · exact HostFile.getElem?_writeAt_of_notMem hj (.inr (by omega))
    · rw [List.getElem?_eq_none (by omega), List.getElem?_eq_none (by omega)]

theorem segment_initial (junk : Buffer) (k : SegKind) :
    ((Locals.initial junk).noffH.segment k).size = 0 := by
  cases k <;> rfl

theorem laid_initial (junk : Buffer) (inPos : ℕ) :
    Laid [] (.initial junk) ⟨inPos, [], noffHeaderSize, true⟩ :=
  ⟨fun _ => rfl, rfl, rfl, rfl⟩

theorem convertible (hcoff : WellFormed coff) (hfour : FourSections coff) (hhost : H.Serves coff) :
    ∀ s ∈ sectionsOf coff, Convertible H coff s := by
  intro s hs
  exact ⟨hfour.named s hs, hcoff.inFile s hs, hhost.malloc s hs, hhost.moves s hs⟩

/-- **The whole program.** The output is the header and what is copied. -/
theorem coff2noff_ok (junk : Buffer) (hcoff : WellFormed coff) (hfour : FourSections coff)
    (hhost : H.Serves coff)
    (hmax : noffHeaderSize + (body coff (sectionsOf coff)).length ≤ maxOffset) :
    ∃ f, coff2noff H coff junk .opened = .ok () f ∧ f.linked = true ∧
      f.out = ((sectionsOf coff).foldl Locals.record (.initial junk)).noffH.toBytes ++
        body coff (sectionsOf coff) := by
  obtain ⟨inPos, hread⟩ := readHeaders_ok hcoff.headers hhost.headers
  obtain ⟨f, hloop, hlaid⟩ := convertSections_ok (convertible hcoff hfour hhost) hfour.once
    (laid_initial junk inPos) hmax (fun _ _ _ => segment_initial junk .bss)
  obtain ⟨h, hh⟩ : ∃ h, h = ((sectionsOf coff).foldl Locals.record (.initial junk)).noffH :=
    ⟨_, rfl⟩
  have hlen : h.toBytes.length = noffHeaderSize := length_toBytes h
  have hwrite : write H true h.toBytes noffHeaderSize { f with outPos := 0 } =
      .ok () { f with
        out := h.toBytes ++ body coff (sectionsOf coff)
        outPos := 0 + noffHeaderSize } := by
    have hfits : 0 + noffHeaderSize ≤ maxOffset := by decide
    unfold write
    rw [Int.toNat_natCast, if_pos ⟨served_of_moves fun _ => ⟨rfl, hhost.noffHeader⟩, hfits⟩,
      List.take_of_length_le hlen.le, writeAt_zero_append hlen hlaid.out, List.nil_append]
  have hgap : seekOut noffHeaderSize ⟨inPos, [], 0, true⟩ =
    .ok () ⟨inPos, [], noffHeaderSize, true⟩ := rfl
  have hback : seekOut 0 f = .ok () { f with outPos := 0 } := rfl
  rw [← hh]
  refine ⟨{ f with out := h.toBytes ++ body coff (sectionsOf coff), outPos := 0 + noffHeaderSize },
    ?_, hlaid.linked, rfl⟩
  unfold coff2noff
  rw [bind_ok hread, bind_ok hgap]
  show (convertSections H coff (sectionsOf coff) (.initial junk) >>= _) _ = _
  rw [bind_ok hloop, bind_ok hback, ← hh, hwrite]

/-- The fields of a section header are `long`s. -/
theorem fields_mem {s : Scnhdr} (hs : s ∈ sectionsOf coff) :
    (minInt ≤ s.s_paddr ∧ s.s_paddr ≤ maxInt) ∧ minInt ≤ s.s_size ∧ s.s_size ≤ maxInt := by
  obtain ⟨i, -, rfl⟩ := List.mem_map.mp hs
  dsimp only [Scnhdr.ofBytes]
  exact ⟨Buffer.intAt_mem _ _, Buffer.intAt_mem _ _⟩

/-- The counter in front of a section. -/
theorem inNoffFile_foldl (junk : Buffer)
    (hs : ∀ s ∈ pre ++ post, Convertible H coff s) (honce : Once (pre ++ post))
    (hmax : noffHeaderSize + (body coff (pre ++ post)).length ≤ maxOffset) :
    (pre.foldl Locals.record (.initial junk)).inNoffFile =
      noffHeaderSize + (body coff pre).length := by
  rw [body_append, List.length_append] at hmax
  obtain ⟨f, -, hlaid⟩ := convertSections_ok (fun s hmem => hs s (List.mem_append_left _ hmem))
    (List.pairwise_append.mp honce).1 (laid_initial junk 0) (by rw [List.nil_append]; omega)
    (fun _ _ _ => segment_initial junk .bss)
  exact hlaid.inNoffFile

/-- The segment of a section that is copied. -/
theorem segment_of_present {s : Scnhdr} (junk : Buffer)
    (hs : ∀ s' ∈ pre ++ s :: post, Convertible H coff s') (honce : Once (pre ++ s :: post))
    (hmax : noffHeaderSize + (body coff (pre ++ s :: post)).length ≤ maxOffset)
    (hpresent : s.Present k) (hne : k ≠ .bss) :
    ((pre ++ s :: post).foldl Locals.record (.initial junk)).noffH.segment k =
      ⟨s.s_paddr, noffHeaderSize + (body coff pre).length, s.s_size⟩ := by
  have hrest := (List.pairwise_cons.mp (List.pairwise_append.mp honce).2.1).1
  rw [List.foldl_append, List.foldl_cons, segment_of_absent _ fun s' hs' => hrest s' hs' k hpresent,
    record_copied hpresent.1 hpresent.2 hne, NoffHeader.segment_put_self,
    inNoffFile_foldl junk hs honce hmax]

/-- The segment of uninitialised data. -/
theorem segment_of_bss {s : Scnhdr} (l : Locals) (honce : Once (pre ++ s :: post))
    (hpresent : s.Present .bss) :
    ∃ inFileAddr, ((pre ++ s :: post).foldl Locals.record l).noffH.segment .bss =
      ⟨s.s_paddr, inFileAddr, s.s_size⟩ := by
  have hrest := (List.pairwise_cons.mp (List.pairwise_append.mp honce).2.1).1
  rw [List.foldl_append, List.foldl_cons, segment_of_absent _ fun s' hs' =>
    hrest s' hs' .bss hpresent, record_bss hpresent, NoffHeader.segment_put_self]
  exact ⟨_, rfl⟩

end Output

/-- The segments of the output are the sections of the input. -/
structure Preserves (coff noff : HostFile) (header : NoffHeader) : Prop where
  noffMagic : header.noffMagic = noffMagicNumber
  address : ∀ s ∈ sectionsOf coff, ∀ k, s.Present k →
    (header.segment k).virtualAddr = s.s_paddr ∧ (header.segment k).size = s.s_size
  /-- The bytes `[inFileAddr, inFileAddr + s_size)` are the raw data. -/
  contents : ∀ s ∈ sectionsOf coff, ∀ k, s.Present k → k ≠ .bss →
    noffHeaderSize ≤ (header.segment k).inFileAddr ∧
      (header.segment k).inFileAddr + s.s_size ≤ noff.length ∧
      noff.readAt s.s_size (header.segment k).inFileAddr =
        some ((coff.drop s.s_scnptr.toNat).take s.s_size.toNat)
  disjoint : ∀ s ∈ sectionsOf coff, ∀ s' ∈ sectionsOf coff, ∀ k k', s.Present k → s'.Present k' →
    k ≠ .bss → k' ≠ .bss → k ≠ k' →
    (header.segment k).inFileAddr + (header.segment k).size ≤ (header.segment k').inFileAddr ∨
      (header.segment k').inFileAddr + (header.segment k').size ≤ (header.segment k).inFileAddr
  absent : ∀ k, (∀ s ∈ sectionsOf coff, ¬ s.Present k) → (header.segment k).size = 0

/-- A run of the program that ends well, and its output. -/
structure Converted (H : Host) (coff noff : HostFile) (junk : Buffer) : Prop where
  wellFormed : WellFormed coff
  four : FourSections coff
  serves : H.Serves coff
  fits : noffHeaderSize + (body coff (sectionsOf coff)).length ≤ maxOffset
  output : noff = ((sectionsOf coff).foldl Locals.record (.initial junk)).noffH.toBytes ++
    body coff (sectionsOf coff)

theorem Scnhdr.Present.copied {s : Scnhdr} {k : SegKind} (h : s.Present k) (hne : k ≠ .bss) :
    s.copied = true :=
  copied_iff.mpr ⟨h.1, k, h.2, hne⟩

/-- The raw data at its place in the output. -/
theorem readAt_output {coff header : HostFile} (hlen : header.length = noffHeaderSize) {s : Scnhdr}
    (hin : s.InFile coff) (hcopied : s.copied = true) (pre post : List Scnhdr) :
    HostFile.readAt (header ++ body coff (pre ++ s :: post)) s.s_size
        (noffHeaderSize + (body coff pre).length)
      = some ((coff.drop s.s_scnptr.toNat).take s.s_size.toNat) := by
  have hpos : ((noffHeaderSize : Int) + (body coff pre).length).toNat
      = header.length + (body coff pre).length := by omega
  unfold HostFile.readAt
  rw [if_neg (by omega), hpos, body_append, body_cons, List.drop_append,
    List.drop_of_length_le (by omega),
    List.nil_append, Nat.add_sub_cancel_left, List.drop_left,
    List.take_left' (hin.length_rawData hcopied), Scnhdr.rawData_of_copied hcopied]

namespace Converted

variable {H : Host} {coff noff : HostFile} {junk : Buffer} {s s' : Scnhdr} {k k' : SegKind}

variable (h : Converted H coff noff junk)

include h

theorem inFile (hs : s ∈ sectionsOf coff) (hk : s.Present k) (hne : k ≠ .bss) :
    s.InFile coff :=
  h.wellFormed.inFile s hs (hk.copied hne)

/-- What `Load` reads of the segment of a section that is copied. -/
theorem segment_eq (junk' : ℕ → UInt8) {pre post : List Scnhdr}
    (hsplit : sectionsOf coff = pre ++ s :: post) (hk : s.Present k) (hne : k ≠ .bss) :
    (noff.noffHeader junk').segment k =
      ⟨s.s_paddr, noffHeaderSize + (body coff pre).length, s.s_size⟩ := by
  have hconv := convertible h.wellFormed h.four h.serves
  have honce := h.four.once
  have hmax := h.fits
  have hmem : s ∈ sectionsOf coff := by
    rw [hsplit]
    exact List.mem_append_right _ List.mem_cons_self
  obtain ⟨⟨hlo, hhi⟩, hlo', hhi'⟩ := fields_mem hmem
  have hseg : ((sectionsOf coff).foldl Locals.record (.initial junk)).noffH.segment k =
      ⟨s.s_paddr, noffHeaderSize + (body coff pre).length, s.s_size⟩ := by
    rw [hsplit] at hconv honce hmax ⊢
    exact segment_of_present junk hconv honce hmax hk hne
  have haddr : wrap32 (noffHeaderSize + (body coff pre).length) =
      noffHeaderSize + (body coff pre).length := by
    rw [hsplit, body_append, List.length_append] at hmax
    unfold maxOffset at hmax
    exact wrap32_of_nonneg (by omega) (by unfold maxInt; omega)
  rw [h.output, (noffHeader_toBytes _ _ junk').2 k, hseg, wrap32_eq_self hlo hhi,
    wrap32_eq_self hlo' hhi', haddr]

/-- The segments of two sections, the first of which is in front of the other. -/
theorem segment_before (junk' : ℕ → UInt8) {pre post : List Scnhdr}
    (hsplit : sectionsOf coff = pre ++ s' :: post) (hs : s ∈ pre) (hk : s.Present k)
    (hk' : s'.Present k') (hne : k ≠ .bss) (hne' : k' ≠ .bss) :
    ((noff.noffHeader junk').segment k).inFileAddr + ((noff.noffHeader junk').segment k).size
      ≤ ((noff.noffHeader junk').segment k').inFileAddr := by
  obtain ⟨pre₁, pre₂, rfl⟩ := List.append_of_mem hs
  have hsplit₁ : sectionsOf coff = pre₁ ++ s :: (pre₂ ++ s' :: post) := by
    rw [hsplit, List.append_assoc, List.cons_append]
  have hmem : s ∈ sectionsOf coff := by
    rw [hsplit₁]
    exact List.mem_append_right _ List.mem_cons_self
  have hin := h.inFile hmem hk hne
  have hlen := hin.length_rawData (hk.copied hne)
  have hsize := hin.size
  rw [h.segment_eq junk' hsplit₁ hk hne, h.segment_eq junk' hsplit hk' hne', body_append, body_cons,
    List.length_append, List.length_append, hlen]
  dsimp only
  omega

/-- The segment of uninitialised data. -/
theorem segment_bss (junk' : ℕ → UInt8) (hs : s ∈ sectionsOf coff)
    (hk : s.Present .bss) : ((noff.noffHeader junk').segment .bss).virtualAddr = s.s_paddr ∧
      ((noff.noffHeader junk').segment .bss).size = s.s_size := by
  obtain ⟨pre, post, hsplit⟩ := List.append_of_mem hs
  obtain ⟨⟨hlo, hhi⟩, hlo', hhi'⟩ := fields_mem hs
  have honce := h.four.once
  rw [hsplit] at honce
  obtain ⟨inFileAddr, hseg⟩ := segment_of_bss (.initial junk) honce hk
  rw [← hsplit] at hseg
  rw [h.output, (noffHeader_toBytes _ _ junk').2 .bss, hseg]
  exact ⟨wrap32_eq_self hlo hhi, wrap32_eq_self hlo' hhi'⟩

/-- **The output.** -/
theorem preserves (junk' : ℕ → UInt8) :
    Preserves coff noff (noff.noffHeader junk') where
  noffMagic := by
    rw [h.output, (noffHeader_toBytes _ _ junk').1, noffMagic_foldl]
    rfl
  address := by
    intro s hs k hk
    by_cases hne : k = .bss
    · subst hne
      exact h.segment_bss junk' hs hk
    · obtain ⟨pre, post, hsplit⟩ := List.append_of_mem hs
      rw [h.segment_eq junk' hsplit hk hne]
      exact ⟨rfl, rfl⟩
  contents := by
    intro s hs k hk hne
    obtain ⟨pre, post, hsplit⟩ := List.append_of_mem hs
    have hin := h.inFile hs hk hne
    have hlen := hin.length_rawData (hk.copied hne)
    have hsize := hin.size
    rw [h.segment_eq junk' hsplit hk hne]
    refine ⟨?_, ?_, ?_⟩
    · dsimp only
      omega
    · rw [h.output, List.length_append, length_toBytes, hsplit, body_append, body_cons,
        List.length_append, List.length_append, hlen]
      unfold noffHeaderSize
      push_cast
      omega
    · rw [h.output, hsplit]
      exact readAt_output (length_toBytes _) hin (hk.copied hne) pre post
  disjoint := by
    intro s hs s' hs' k k' hk hk' hne hne' hdiff
    obtain ⟨pre, post, hsplit⟩ := List.append_of_mem hs'
    rw [hsplit, List.mem_append, List.mem_cons] at hs
    rcases hs with hpre | rfl | hpost
    · exact .inl (h.segment_before junk' hsplit hpre hk hk' hne hne')
    · exact absurd (Option.some.inj (hk.2.symm.trans hk'.2)) hdiff
    · obtain ⟨post₁, post₂, rfl⟩ := List.append_of_mem hpost
      have hsplit₂ : sectionsOf coff = (pre ++ s' :: post₁) ++ s :: post₂ := by
        rw [hsplit, List.append_assoc, List.cons_append]
      right
      apply h.segment_before junk' hsplit₂ _ hk' hk hne' hne
      exact List.mem_append_right _ List.mem_cons_self
  absent := by
    intro k habsent
    rw [h.output, (noffHeader_toBytes _ _ junk').2 k, segment_of_absent _ habsent]
    show wrap32 ((Locals.initial junk).noffH.segment k).size = 0
    rw [segment_initial]
    rfl

end Converted

/-! ### The inputs that are not converted -/

section Refused

variable {H : Host} {coff : HostFile} {l' : Locals} {f f' : Files}

/-- A section of another kind ends the loop. -/
theorem named_of_ok {sections : List Scnhdr} {l : Locals}
    (h : convertSections H coff sections l f = .ok l' f') :
    ∀ s ∈ sections, s.s_size ≠ 0 → s.kind ≠ none := by
  induction sections generalizing l f with
  | nil =>
    intro s hs
    cases hs
  | cons s sections ih =>
    obtain ⟨l₁, f₁, hround, hrest⟩ := bind_eq_ok h
    rw [List.forall_mem_cons]
    refine ⟨fun h0 hnone => ?_, ih hrest⟩
    rcases convertSection_cases hround with ⟨hzero, -⟩ | ⟨k, -, hpresent, -⟩ | ⟨hpresent, -⟩
    · exact h0 hzero
    · exact Option.some_ne_none k (hpresent.2.symm.trans hnone)
    · exact Option.some_ne_none SegKind.bss (hpresent.2.symm.trans hnone)

theorem write_eq_ok {buf : Bool} {buffer : List UInt8} {n : ℕ}
    (h : write H buf buffer n f = .ok () f') : f'.outPos = f.outPos + n ∧ f'.outPos ≤ maxOffset ∧
      f'.out = f.out.writeAt (buffer.take n) f.outPos := by
  unfold write at h
  rw [Int.toNat_natCast] at h
  split at h
  · rename_i hserved
    cases h
    exact ⟨rfl, hserved.2, rfl⟩
  · rw [if_pos (by omega)] at h
    cases h

/-- What a run that ends well has gone through. -/
theorem exists_of_ok {junk : Buffer} (h : coff2noff H coff junk .opened = .ok () f) :
    ∃ f₀ l f₁, readHeaders H coff .opened = .ok (sectionsOf coff) f₀ ∧
      convertSections H coff (sectionsOf coff) (.initial junk) { f₀ with outPos := noffHeaderSize }
      = .ok l f₁ ∧ f.out = l.noffH.toBytes ++ f₁.out.drop noffHeaderSize := by
  obtain ⟨sections, f₀, hread, htail⟩ := bind_eq_ok h
  obtain ⟨rfl, -, -⟩ := readHeaders_eq_ok hread
  have hgap : seekOut noffHeaderSize f₀ = .ok () { f₀ with outPos := noffHeaderSize } := rfl
  rw [bind_ok hgap] at htail
  obtain ⟨l, f₁, hloop, hend⟩ := bind_eq_ok htail
  have hback : seekOut 0 f₁ = .ok () { f₁ with outPos := 0 } := rfl
  rw [bind_ok hback] at hend
  refine ⟨f₀, l, f₁, hread, hloop, ?_⟩
  have hlen : l.noffH.toBytes.length = noffHeaderSize := length_toBytes l.noffH
  rw [(write_eq_ok hend).2.2, List.take_of_length_le hlen.le]
  exact writeAt_zero_append hlen fun i => List.getElem?_drop.symm

/-- A section that is copied moves the offset of the output, which is an `off_t`. -/
theorem outPos_of_copied {put : NoffHeader → Segment → NoffHeader} {s : Scnhdr} {l : Locals}
    (hsize : 0 ≤ s.s_size) (h : copySection H coff put s l f = .ok l' f') :
    f'.outPos = f.outPos + s.s_size.toNat ∧ f'.outPos ≤ maxOffset := by
  obtain ⟨n, hn⟩ := Int.eq_ofNat_of_zero_le hsize
  obtain ⟨_, f₁, hseek, htail⟩ := bind_eq_ok h
  obtain ⟨bytes, f₂, hread, htail'⟩ := bind_eq_ok htail
  obtain ⟨_, f₃, hwrite, hpure⟩ := bind_eq_ok htail'
  rw [hn] at hread hwrite ⊢
  rw [Int.toNat_natCast] at hread hwrite ⊢
  obtain ⟨-, rfl⟩ := read_eq_ok hread
  obtain ⟨hpos, hmax, -⟩ := write_eq_ok hwrite
  cases hpure
  have hseek' : f₁.outPos = f.outPos := by
    unfold seekIn at hseek
    split at hseek <;> cases hseek <;> rfl
  exact ⟨hpos.trans (congrArg (· + n) hseek'), hmax⟩

/-- The offset of the output behind a round. -/
theorem outPos_of_round {s : Scnhdr} {l : Locals} (hin : s.copied = true → s.InFile coff)
    (hf : f.outPos ≤ maxOffset) (h : convertSection H coff l s f = .ok l' f') :
    f'.outPos = f.outPos + (s.rawData coff).length ∧ f'.outPos ≤ maxOffset := by
  rcases convertSection_cases h with ⟨h0, -, rfl⟩ | ⟨k, hne, hpresent, hcopy⟩ | ⟨hpresent, hbss⟩
  · have hnot : ¬ s.copied = true := fun hcopied => (Scnhdr.copied_iff.mp hcopied).1 h0
    rw [Scnhdr.rawData_of_not_copied hnot]
    exact ⟨rfl, hf⟩
  · have hcopied := hpresent.copied hne
    rw [(hin hcopied).length_rawData hcopied]
    exact outPos_of_copied (hin hcopied).size hcopy
  · rw [files_of_bss hbss, Scnhdr.rawData_of_not_copied hpresent.not_copied]
    exact ⟨rfl, hf⟩

/-- The output of a run that ends well is a file. -/
theorem fits_of_ok {sections : List Scnhdr} {l : Locals}
    (hin : ∀ s ∈ sections, s.copied = true → s.InFile coff) (hf : f.outPos ≤ maxOffset)
    (h : convertSections H coff sections l f = .ok l' f') :
    f.outPos + (body coff sections).length ≤ maxOffset := by
  induction sections generalizing l f with
  | nil => exact hf
  | cons s sections ih =>
    obtain ⟨l₁, f₁, hround, hrest⟩ := bind_eq_ok h
    rw [List.forall_mem_cons] at hin
    have hstep := outPos_of_round hin.1 hf hround
    have hle := ih hin.2 hstep.2 hrest
    rw [hstep.1] at hle
    rw [body_cons, List.length_append, ← Nat.add_assoc]
    exact hle

end Refused

/-- **`coff2noff`.** A well-formed input is converted, segment by segment, if its output can be
written; and with a section of any other name no output is left. -/
theorem segments_preserved (H : Host) (junk : Buffer) (coff : HostFile) :
    (WellFormed coff → FourSections coff → H.Serves coff →
      noffHeaderSize + (body coff (sectionsOf coff)).length ≤ maxOffset →
      ∃ f, coff2noff H coff junk .opened = .ok () f ∧ f.linked = true ∧
        ∀ junk', Preserves coff f.out (f.out.noffHeader junk')) ∧
    ((∃ s ∈ sectionsOf coff, s.s_size ≠ 0 ∧ s.kind = none) →
      ∃ e f, coff2noff H coff junk .opened = .error e f ∧ f.linked = false) := by
  constructor
  · intro hcoff hfour hhost hmax
    obtain ⟨f, hrun, hlinked, hout⟩ := coff2noff_ok junk hcoff hfour hhost hmax
    have hconv : Converted H coff f.out junk := ⟨hcoff, hfour, hhost, hmax, hout⟩
    exact ⟨f, hrun, hlinked, hconv.preserves⟩
  · rintro ⟨s, hs, h0, hnone⟩
    cases hrun : coff2noff H coff junk .opened with
    | ok _ f =>
      obtain ⟨f₀, l, f₁, -, hloop, -⟩ := exists_of_ok hrun
      exact absurd hnone (named_of_ok hloop s hs h0)
    | error e f => exact ⟨e, f, rfl, (removes_coff2noff junk).linked hrun⟩

/-- A host that refuses nothing. -/
def Host.ideal : Host := ⟨fun _ => true, fun _ => true⟩

theorem serves_ideal (coff : HostFile) : Host.ideal.Serves coff :=
  ⟨⟨rfl, rfl, fun _ => ⟨rfl, rfl⟩⟩, fun _ _ _ => rfl, fun _ _ _ => rfl, rfl⟩

/-- The four bytes of an `int`. -/
def intBytes (x : Int) : List UInt8 := (List.range 4).map (intByte x)

/-- A section header. -/
def scnhdrBytes (k : SegKind) (paddr size scnptr : Int) : List UInt8 :=
  k.name.1 ++ List.replicate (8 - k.name.1.length) 0 ++ intBytes paddr ++ intBytes paddr ++
  intBytes size ++
    intBytes scnptr ++ List.replicate 16 0

/-- The headers of a COFF file with three sections. -/
def coffHeaders (sections : List UInt8) : List UInt8 :=
  [0x62, 1, 3, 0] ++ List.replicate 16 0 ++ [7, 1] ++ List.replicate 54 0 ++ sections

theorem shortAt_append {headers : List UInt8} (data : List UInt8) {o : ℕ}
    (h : o + 1 < headers.length) : shortAt (headers ++ data) o = shortAt headers o := by
  unfold shortAt
  rw [List.getD_append _ _ _ _ h, List.getD_append _ _ _ _ (by omega)]

/-- What is behind the headers does not change the sections. -/
theorem sectionsOf_append {headers : List UInt8} (data : List UInt8)
    (h : filehdrSize + aouthdrSize + shortAt headers 2 * scnhdrSize ≤ headers.length) :
    sectionsOf (headers ++ data) = sectionsOf headers := by
  have hnum : shortAt (headers ++ data) 2 = shortAt headers 2 := by
    apply shortAt_append
    unfold filehdrSize at h
    omega
  unfold sectionsOf
  rw [hnum, List.drop_append_of_le_length (by omega), ← scnhdrs_take,
    List.take_append_of_le_length (by rw [List.length_drop]; omega), scnhdrs_take]

/-- Three bytes of code, two bytes of initialised data and ten of other data. -/
def smallCoff : HostFile :=
  coffHeaders (scnhdrBytes .text 0 3 196 ++ scnhdrBytes .data 3 2 199 ++ scnhdrBytes .bss 5 10 0) ++
    [1, 2, 3, 200, 5]

/-- The section header in these bytes. -/
def sectionOf (k : SegKind) (paddr size scnptr : Int) : Scnhdr :=
  ⟨k.name.1 ++ List.replicate (8 - k.name.1.length) 0, paddr, size, scnptr⟩

theorem kind_sectionOf (k : SegKind) (paddr size scnptr : Int) :
    (sectionOf k paddr size scnptr).kind = some k := by
  cases k <;> rfl

/-- Three sections of different kinds. -/
theorem fourSections_of_three {coff : HostFile} {k₁ k₂ k₃ : SegKind} {s₁ s₂ s₃ : Scnhdr}
    (h : sectionsOf coff = [s₁, s₂, s₃]) (h₁ : s₁.kind = some k₁) (h₂ : s₂.kind = some k₂)
    (h₃ : s₃.kind = some k₃) (h₁₂ : k₁ ≠ k₂) (h₁₃ : k₁ ≠ k₃) (h₂₃ : k₂ ≠ k₃) :
    FourSections coff := by
  have hdiff : ∀ {s s' : Scnhdr} {k k' : SegKind}, s.kind = some k → s'.kind = some k' → k ≠ k' →
      ∀ j, s.Present j → ¬ s'.Present j := by
    intro s s' k k' hk hk' hne j hj hj'
    exact hne (Option.some.inj (hk.symm.trans (hj.2.trans (hj'.2.symm.trans hk'))))
  constructor
  · rw [h]
    simp only [List.forall_mem_cons, h₁, h₂, h₃]
    simp
  · unfold Once
    rw [h]
    simp only [List.pairwise_cons, List.forall_mem_cons]
    exact ⟨⟨hdiff h₁ h₂ h₁₂, hdiff h₁ h₃ h₁₃, by simp⟩, ⟨hdiff h₂ h₃ h₂₃, by simp⟩, by simp⟩

theorem sectionsOf_smallCoff : sectionsOf smallCoff =
    [sectionOf .text 0 3 196, sectionOf .data 3 2 199, sectionOf .bss 5 10 0] := by
  decide +kernel

theorem output_smallCoff :
    ((sectionsOf smallCoff).foldl Locals.record (.initial fun _ => 0)).noffH.toBytes ++
    body smallCoff (sectionsOf smallCoff) = smallProgram := by
  decide +kernel

theorem segments_preserved_smallCoff : ∃ f,
    coff2noff .ideal smallCoff (fun _ => 0) .opened = .ok () f ∧ f.out = smallProgram ∧
      Preserves smallCoff f.out (f.out.noffHeader fun _ => 0) := by
  have hcoff : WellFormed smallCoff := by
    refine ⟨⟨by decide +kernel, by decide +kernel, by decide +kernel⟩, ?_⟩
    rw [sectionsOf_smallCoff]
    simp only [List.forall_mem_cons]
    refine ⟨fun _ => ⟨by decide, by decide, by decide +kernel⟩, fun _ =>
      ⟨by decide, by decide, by decide +kernel⟩, fun hcopied => ?_, by simp⟩
    exact absurd hcopied (by decide)
  have hfour : FourSections smallCoff :=
    fourSections_of_three sectionsOf_smallCoff (kind_sectionOf ..)
    (kind_sectionOf ..) (kind_sectionOf ..) (by decide) (by decide) (by decide)
  obtain ⟨f, hrun, -, hpreserves⟩ :=
    (segments_preserved .ideal (fun _ => 0) smallCoff).1 hcoff hfour
    (serves_ideal smallCoff) (by decide +kernel)
  refine ⟨f, hrun, ?_, hpreserves _⟩
  obtain ⟨f', hrun', -, hout⟩ := coff2noff_ok (fun _ => 0) hcoff hfour (serves_ideal smallCoff)
    (by decide +kernel)
  rw [hrun'] at hrun
  cases hrun
  exact hout.trans output_smallCoff

/-- The headers of three sections of one gigabyte each, which share their raw data. -/
def bigHeaders : List UInt8 :=
  coffHeaders (scnhdrBytes .text 0 1073741824 196 ++ scnhdrBytes .data 1073741824 1073741824 196 ++
    scnhdrBytes .rdata (-2147483648) 1073741824 196)

/-- The file with these sections. -/
def bigCoff : HostFile := bigHeaders ++ List.replicate 1073741824 0

theorem length_bigCoff : bigCoff.length = 196 + 1073741824 := by
  have hheaders : bigHeaders.length = 196 := by decide +kernel
  unfold bigCoff
  rw [List.length_append, List.length_replicate, hheaders]

theorem sectionsOf_bigCoff : sectionsOf bigCoff = [sectionOf .text 0 1073741824 196,
    sectionOf .data 1073741824 1073741824 196, sectionOf .rdata (-2147483648) 1073741824 196] := by
  unfold bigCoff
  rw [sectionsOf_append _ (by decide +kernel)]
  decide +kernel

theorem inFile_bigCoff (k : SegKind) (paddr : Int) :
    (sectionOf k paddr 1073741824 196).InFile bigCoff := by
  refine ⟨show (0 : Int) ≤ 196 by decide, show (0 : Int) ≤ 1073741824 by decide, ?_⟩
  rw [length_bigCoff]
  exact show (196 : Int) + 1073741824 ≤ (196 + 1073741824 : ℕ) by decide

/-- The positions in the output do not fit into the `int`s of a NOFF header. -/
theorem segments_not_preserved : WellFormed bigCoff ∧ FourSections bigCoff ∧
    Host.ideal.Serves bigCoff ∧
    ∀ junk, ¬ ∃ f, coff2noff .ideal bigCoff junk .opened = .ok () f := by
  have hin : ∀ s ∈ sectionsOf bigCoff, s.InFile bigCoff := by
    rw [sectionsOf_bigCoff]
    simp only [List.forall_mem_cons]
    exact ⟨inFile_bigCoff .., inFile_bigCoff .., inFile_bigCoff .., by simp⟩
  have hshort : ∀ {o : ℕ}, o < 195 → shortAt bigCoff o = shortAt bigHeaders o := by
    intro o ho
    apply shortAt_append
    have hheaders : bigHeaders.length = 196 := by decide +kernel
    omega
  refine ⟨⟨⟨?_, ?_, ?_⟩, fun s hs _ => hin s hs⟩, ?_, serves_ideal bigCoff, ?_⟩
  · rw [hshort (by decide)]
    decide +kernel
  · rw [hshort (by decide)]
    decide +kernel
  · rw [hshort (by decide), length_bigCoff]
    decide +kernel
  · exact fourSections_of_three sectionsOf_bigCoff (kind_sectionOf ..) (kind_sectionOf ..)
      (kind_sectionOf ..) (by decide) (by decide) (by decide)
  · rintro junk ⟨f, hrun⟩
    obtain ⟨f₀, l, f₁, -, hloop, -⟩ := exists_of_ok hrun
    have hfits :=
      fits_of_ok (fun s hs _ => hin s hs) (show noffHeaderSize ≤ maxOffset by decide) hloop
    rw [sectionsOf_bigCoff] at hfits
    simp only [body_cons, List.length_append] at hfits
    rw [(inFile_bigCoff .text 0).length_rawData (by decide),
      (inFile_bigCoff .data 1073741824).length_rawData (by decide),
      (inFile_bigCoff .rdata (-2147483648)).length_rawData (by decide)] at hfits
    unfold noffHeaderSize maxOffset sectionOf at hfits
    dsimp only at hfits
    omega

end Nachos.Coff2Noff
