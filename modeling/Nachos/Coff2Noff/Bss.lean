import Nachos.Coff2Noff.Segments

namespace Nachos.Coff2Noff

open Base UserProg

/-!
# Coff2Noff — uninitialised data

A COFF file may have several sections of uninitialised data, which a NOFF file has one segment for.
The loop has a test for a second one, which is the wrong way round: the section is refused if it
starts where the segment ends, and merged with it if it does not.

* `uninitData_of_absent`, `uninitData_of_once` — the segment behind at most one section;
* `accepted_iff` — the test;
* `merges_bss_iff` — the segment is the union of the sections, and just those are accepted that fit,
  exactly if the loop does not get to a second one.
-/

/-! ### The segment along the loop -/

/-- At most one of the sections is uninitialised data. -/
def OnceBss (sections : List Scnhdr) : Prop :=
  sections.Pairwise fun s s' => s.Present .bss → ¬ s'.Present .bss

section Loop

variable {H : Host} {coff : HostFile} {sections : List Scnhdr} {l l' : Locals} {f f' : Files}
    {s : Scnhdr}

/-- A section of another kind does not touch the segment. -/
theorem uninitData_of_not_present (hnot : ¬ s.Present .bss)
    (h : convertSection H coff l s f = .ok l' f') :
    l'.noffH.uninitData = l.noffH.uninitData := by
  rcases convertSection_cases h with ⟨-, rfl, -⟩ | ⟨k, hne, -, hcopy⟩ | ⟨hpresent, -⟩
  · rfl
  · obtain ⟨_, f₁, -, htail⟩ := bind_eq_ok hcopy
    obtain ⟨bytes, f₂, -, htail'⟩ := bind_eq_ok htail
    obtain ⟨_, f₃, -, hpure⟩ := bind_eq_ok htail'
    cases hpure
    exact NoffHeader.segment_put_of_ne _ (show SegKind.bss ≠ k from hne.symm) _
  · exact absurd hpresent hnot

/-- Neither do several of them. -/
theorem uninitData_of_absent (hnot : ∀ s ∈ sections, ¬ s.Present .bss)
    (h : convertSections H coff sections l f = .ok l' f') :
    l'.noffH.uninitData = l.noffH.uninitData := by
  induction sections generalizing l f with
  | nil =>
    cases h
    rfl
  | cons s sections ih =>
    obtain ⟨l₁, f₁, hround, hrest⟩ := bind_eq_ok h
    rw [List.forall_mem_cons] at hnot
    exact (ih hnot.2 hrest).trans (uninitData_of_not_present hnot.1 hround)

/-- The first one is recorded. -/
theorem uninitData_of_first (hpresent : s.Present .bss) (h0 : l.noffH.uninitData.size = 0)
    (h : convertSection H coff l s f = .ok l' f') :
    l'.noffH.uninitData.virtualAddr = s.s_paddr ∧ l'.noffH.uninitData.size = s.s_size := by
  rw [convertSection_bss hpresent] at h
  unfold bssSection at h
  rw [if_neg (not_not.mpr h0)] at h
  cases h
  exact ⟨rfl, rfl⟩

/-- **The test.** Another one is accepted if it does not start where the segment ends. -/
theorem accepted_iff (hpresent : s.Present .bss) (hsize : l.noffH.uninitData.size ≠ 0) :
    (∃ l' f', convertSection H coff l s f = .ok l' f') ↔
      s.s_paddr ≠ wrap32 (l.noffH.uninitData.virtualAddr + l.noffH.uninitData.size) := by
  rw [convertSection_bss hpresent]
  unfold bssSection
  simp only [if_pos hsize]
  by_cases hend : s.s_paddr = wrap32 (l.noffH.uninitData.virtualAddr + l.noffH.uninitData.size)
  · rw [if_pos hend]
    refine ⟨fun ⟨l', f', h⟩ => ?_, fun hne => absurd hend hne⟩
    cases h
  · rw [if_neg hend]
    exact ⟨fun _ => hend, fun _ => ⟨_, _, rfl⟩⟩

theorem convertSections_append {pre post : List Scnhdr}
    (h : convertSections H coff (pre ++ post) l f = .ok l' f') :
    ∃ l₁ f₁, convertSections H coff pre l f = .ok l₁ f₁ ∧ convertSections H coff post l₁ f₁ =
    .ok l' f' := by
  unfold convertSections at h
  rw [List.foldlM_append] at h
  exact bind_eq_ok h

/-- The segment behind one section. -/
theorem uninitData_of_once (honce : OnceBss sections) (hs : s ∈ sections)
    (hpresent : s.Present .bss)
    (h0 : l.noffH.uninitData.size = 0) (h : convertSections H coff sections l f = .ok l' f') :
    l'.noffH.uninitData.virtualAddr = s.s_paddr ∧ l'.noffH.uninitData.size = s.s_size := by
  obtain ⟨pre, post, rfl⟩ := List.append_of_mem hs
  obtain ⟨-, hcons, hcross⟩ := List.pairwise_append.mp honce
  obtain ⟨l₁, f₁, hpre, htail⟩ := convertSections_append h
  obtain ⟨l₂, f₂, hround, hpost⟩ := bind_eq_ok htail
  have hbefore : l₁.noffH.uninitData = l.noffH.uninitData := by
    apply uninitData_of_absent _ hpre
    intro s' hs' hpresent'
    exact hcross s' hs' s List.mem_cons_self hpresent' hpresent
  have hafter : l'.noffH.uninitData = l₂.noffH.uninitData := by
    apply uninitData_of_absent _ hpost
    intro s' hs'
    exact (List.pairwise_cons.mp hcons).1 s' hs' hpresent
  rw [hafter]
  exact uninitData_of_first hpresent (hbefore ▸ h0) hround

/-- There is a second section of uninitialised data if there is more than one. -/
theorem exists_second (sections : List Scnhdr) : OnceBss sections ∨ ∃ pre s post,
    sections = pre ++ s :: post ∧ OnceBss pre ∧ s.Present .bss ∧ ∃ s' ∈ pre, s'.Present .bss := by
  induction sections using List.reverseRecOn with
  | nil => exact .inl .nil
  | append_singleton sections s ih =>
    rcases ih with honce | ⟨pre, s₁, post, rfl, hsecond⟩
    · by_cases hboth : s.Present .bss ∧ ∃ s' ∈ sections, s'.Present .bss
      · exact .inr ⟨sections, s, [], rfl, honce, hboth⟩
      · apply Or.inl
        apply List.pairwise_append.mpr
        refine ⟨honce, List.pairwise_singleton _ _, fun s' hs' x hx hpresent' hpresent => ?_⟩
        rw [List.mem_singleton.mp hx] at hpresent
        exact hboth ⟨hpresent, s', hs', hpresent'⟩
    · exact .inr ⟨pre, s₁, post ++ [s], by rw [List.append_assoc, List.cons_append], hsecond⟩

end Loop

/-! ### Merging -/

/-- The addresses `[start, start + size)` of the simulated machine. -/
def addressRange (start size : Int) : Set (BitVec 32) :=
  {a | (a - BitVec.ofInt 32 start).toNat < (BitVec.ofInt 32 size).toNat}

instance (start size : Int) (a : BitVec 32) : Decidable (a ∈ addressRange start size) :=
  inferInstanceAs (Decidable ((a - BitVec.ofInt 32 start).toNat < (BitVec.ofInt 32 size).toNat))

/-- The state of the loop behind these sections. -/
def Reaches (H : Host) (coff : HostFile) (junk : Buffer) (pre : List Scnhdr) (l : Locals)
    (f : Files) : Prop :=
  ∃ f₀, readHeaders H coff .opened = .ok (sectionsOf coff) f₀ ∧
    convertSections H coff pre (.initial junk) { f₀ with outPos := noffHeaderSize } = .ok l f

/-- The sections of uninitialised data are merged. -/
structure MergesBss (H : Host) (coff : HostFile) (junk : Buffer) : Prop where
  /-- The segment of the output is the union of the sections. -/
  union : ∀ {f}, coff2noff H coff junk .opened = .ok () f → ∀ junk' a,
    a ∈ addressRange (f.out.noffHeader junk').uninitData.virtualAddr
      (f.out.noffHeader junk').uninitData.size ↔
      ∃ s ∈ sectionsOf coff, s.Present .bss ∧ a ∈ addressRange s.s_paddr s.s_size
  /-- A later section is accepted iff it starts where the segment so far ends. -/
  contiguous : ∀ {pre s post l f}, sectionsOf coff = pre ++ s :: post →
    Reaches H coff junk pre l f → s.Present .bss → (∃ s' ∈ pre, s'.Present .bss) →
    ((∃ l' f', convertSection H coff l s f = .ok l' f') ↔
      s.s_paddr = wrap32 (l.noffH.uninitData.virtualAddr + l.noffH.uninitData.size))
  /-- Otherwise the output is removed. -/
  removed : ∀ {e f}, coff2noff H coff junk .opened = .error e f → f.linked = false

/-- The loop gets to a second section of uninitialised data. -/
def SecondBss (H : Host) (coff : HostFile) (junk : Buffer) : Prop :=
  ∃ pre s post l f, sectionsOf coff = pre ++ s :: post ∧ Reaches H coff junk pre l f ∧
    s.Present .bss ∧ ∃ s' ∈ pre, s'.Present .bss

section Merging

variable {H : Host} {coff : HostFile} {junk : Buffer} {pre post : List Scnhdr} {l : Locals}
    {f : Files}

theorem Reaches.of_append (h : Reaches H coff junk (pre ++ post) l f) :
    ∃ l₁ f₁, Reaches H coff junk pre l₁ f₁ := by
  obtain ⟨f₀, hread, hloop⟩ := h
  obtain ⟨l₁, f₁, hpre, -⟩ := convertSections_append hloop
  exact ⟨l₁, f₁, f₀, hread, hpre⟩

/-- The segment is not empty behind one section, so the next one is tested. -/
theorem Reaches.accepted_iff {s : Scnhdr} (h : Reaches H coff junk pre l f) (honce : OnceBss pre)
    (hbefore : ∃ s' ∈ pre, s'.Present .bss) (hpresent : s.Present .bss) :
    (∃ l' f', convertSection H coff l s f = .ok l' f') ↔
      s.s_paddr ≠ wrap32 (l.noffH.uninitData.virtualAddr + l.noffH.uninitData.size) := by
  obtain ⟨f₀, -, hloop⟩ := h
  obtain ⟨s', hs', hpresent'⟩ := hbefore
  obtain ⟨-, hsize⟩ := uninitData_of_once honce hs' hpresent' (segment_initial junk .bss) hloop
  apply Coff2Noff.accepted_iff hpresent
  rw [hsize]
  exact hpresent'.1

/-- The first time that the loop gets to a second section, it takes the wrong branch. -/
theorem not_mergesBss (h : SecondBss H coff junk) : ¬ MergesBss H coff junk := by
  intro hmerges
  obtain ⟨pre, s, post, l, f, hsections, hreach, hpresent, hbefore⟩ := h
  rcases exists_second (pre ++ [s]) with honce |
    ⟨pre₁, s₁, post₁, hsplit, honce₁, hpresent₁, hbefore₁⟩
  · obtain ⟨s', hs', hpresent'⟩ := hbefore
    exact (List.pairwise_append.mp honce).2.2 s' hs' s List.mem_cons_self hpresent' hpresent
  · have hle : pre₁ <+: pre := by
      have hlen : (pre ++ [s]).length = (pre₁ ++ s₁ :: post₁).length := congrArg List.length hsplit
      simp only [List.length_append, List.length_cons, List.length_nil] at hlen
      apply List.prefix_of_prefix_length_le ⟨s₁ :: post₁, hsplit.symm⟩ (List.prefix_append pre [s])
      omega
    have hsections₁ : sectionsOf coff = pre₁ ++ s₁ :: (post₁ ++ post) := by
      rw [hsections, ← List.singleton_append, ← List.append_assoc, hsplit, List.append_assoc,
        List.cons_append]
    obtain ⟨rest, rfl⟩ := hle
    obtain ⟨l₁, f₁, hreach₁⟩ := hreach.of_append
    have hcode := hreach₁.accepted_iff honce₁ hbefore₁ hpresent₁
    have hwanted := hmerges.contiguous hsections₁ hreach₁ hpresent₁ hbefore₁
    exact iff_not_self (hwanted.symm.trans hcode)

/-- The segment of the output is the one that the loop leaves. -/
theorem uninitData_output (h : coff2noff H coff junk .opened = .ok () f) (junk' : ℕ → UInt8) :
    ∃ l f₁, Reaches H coff junk (sectionsOf coff) l f₁ ∧
      (f.out.noffHeader junk').uninitData.virtualAddr = wrap32 l.noffH.uninitData.virtualAddr ∧
      (f.out.noffHeader junk').uninitData.size = wrap32 l.noffH.uninitData.size := by
  obtain ⟨f₀, l, f₁, hread, hloop, hout⟩ := exists_of_ok h
  have hseg := (noffHeader_toBytes l.noffH (f₁.out.drop noffHeaderSize) junk').2 .bss
  rw [← hout] at hseg
  exact ⟨l, f₁, ⟨f₀, hread, hloop⟩, congrArg Segment.virtualAddr hseg, congrArg Segment.size hseg⟩

/-- The segment is the union of the sections if there is at most one. -/
theorem union_of_once (honce : OnceBss (sectionsOf coff))
    (h : coff2noff H coff junk .opened = .ok () f) (junk' : ℕ → UInt8) (a : BitVec 32) :
    a ∈ addressRange (f.out.noffHeader junk').uninitData.virtualAddr
      (f.out.noffHeader junk').uninitData.size ↔
      ∃ s ∈ sectionsOf coff, s.Present .bss ∧ a ∈ addressRange s.s_paddr s.s_size := by
  obtain ⟨l, f₁, ⟨f₀, -, hloop⟩, haddr, hsize⟩ := uninitData_output h junk'
  rw [haddr, hsize]
  by_cases hany : ∃ s ∈ sectionsOf coff, s.Present .bss
  · obtain ⟨s, hs, hpresent⟩ := hany
    obtain ⟨⟨hlo, hhi⟩, hlo', hhi'⟩ := fields_mem hs
    obtain ⟨hu, hu'⟩ := uninitData_of_once honce hs hpresent (segment_initial junk .bss) hloop
    rw [hu, hu', wrap32_eq_self hlo hhi, wrap32_eq_self hlo' hhi']
    refine ⟨fun ha => ⟨s, hs, hpresent, ha⟩, fun ⟨s', hs', hpresent', ha⟩ => ?_⟩
    obtain ⟨hv, hv'⟩ := uninitData_of_once honce hs' hpresent' (segment_initial junk .bss) hloop
    rw [← hu, ← hu', hv, hv']
    exact ha
  · have habsent : ∀ s ∈ sectionsOf coff, ¬ s.Present .bss :=
      fun s hs hpresent => hany ⟨s, hs, hpresent⟩
    have hzero : l.noffH.uninitData.size = 0 := by
      rw [uninitData_of_absent habsent hloop]
      exact segment_initial junk .bss
    rw [hzero]
    refine ⟨fun ha => absurd ha (Nat.not_lt_zero _), fun ⟨s, hs, hpresent, _⟩ =>
      absurd hpresent (habsent s hs)⟩

/-- If the loop does not get to a second section and ends well, then there is none. -/
theorem once_of_not_secondBss (h : ¬ SecondBss H coff junk)
    (hreach : Reaches H coff junk (sectionsOf coff) l f) : OnceBss (sectionsOf coff) := by
  rcases exists_second (sectionsOf coff) with honce | ⟨pre, s, post, hsplit, -, hpresent, hbefore⟩
  · exact honce
  · rw [hsplit] at hreach
    obtain ⟨l₁, f₁, hreach₁⟩ := hreach.of_append
    exact absurd ⟨pre, s, post, l₁, f₁, hsplit, hreach₁, hpresent, hbefore⟩ h

end Merging

/-- **Uninitialised data.** The sections are merged exactly if the loop does not get to a second
one. -/
theorem merges_bss_iff (H : Host) (coff : HostFile) (junk : Buffer) :
    MergesBss H coff junk ↔ ¬ SecondBss H coff junk := by
  constructor
  · intro hmerges hsecond
    exact not_mergesBss hsecond hmerges
  · intro hnot
    constructor
    · intro f hrun junk'
      obtain ⟨l, f₁, hreach, -⟩ := uninitData_output hrun junk'
      exact union_of_once (once_of_not_secondBss hnot hreach) hrun junk'
    · intro pre s post l f hsplit hreach hpresent hbefore
      exact absurd ⟨pre, s, post, l, f, hsplit, hreach, hpresent, hbefore⟩ hnot
    · intro e f hrun
      exact (removes_coff2noff junk).linked hrun

/-- A byte of code, and two sections of uninitialised data: ten bytes at 4, and five bytes. -/
def twoBss (paddr : Int) : HostFile :=
  coffHeaders (scnhdrBytes .text 0 1 196 ++ scnhdrBytes .bss 4 10 0 ++
  scnhdrBytes .bss paddr 5 0) ++ [1]

/-- The loop gets to the second section that is adjacent to the first. -/
theorem secondBss_twoBss : SecondBss .ideal (twoBss 14) fun _ => 0 := by
  have hsections : sectionsOf (twoBss 14) = [sectionOf .text 0 1 196, sectionOf .bss 4 10 0] ++
      sectionOf .bss 14 5 0 :: [] := by
    decide +kernel
  have hheaders : HasHeaders (twoBss 14) :=
    ⟨by decide +kernel, by decide +kernel, by decide +kernel⟩
  obtain ⟨inPos, hread⟩ := readHeaders_ok hheaders (serves_ideal (twoBss 14)).headers
  have hconv : ∀ s ∈ [sectionOf .text 0 1 196, sectionOf .bss 4 10 0],
    Convertible .ideal (twoBss 14) s := by
    simp only [List.forall_mem_cons]
    exact ⟨⟨fun _ => ⟨_, kind_sectionOf ..⟩, fun _ => ⟨by decide, by decide, by decide +kernel⟩,
      fun _ => rfl,
        fun _ => rfl⟩,
      ⟨fun _ => ⟨_, kind_sectionOf ..⟩, fun h => absurd h (by decide), fun _ => rfl,
      fun _ => rfl⟩, by simp⟩
  have honce : Once [sectionOf .text 0 1 196, sectionOf .bss 4 10 0] := by
    unfold Once
    simp only [List.pairwise_cons, List.forall_mem_cons]
    refine ⟨⟨fun k hk hk' => ?_, by simp⟩, by simp, .nil⟩
    exact absurd (hk.2.trans hk'.2.symm) (by decide)
  obtain ⟨f, hloop, -⟩ :=
    convertSections_ok hconv honce (laid_initial (fun _ => 0) inPos) (by decide +kernel)
    (fun _ _ _ => segment_initial _ .bss)
  exact ⟨_, _, _, _, f, hsections, ⟨_, hread, hloop⟩, by decide, _,
    List.mem_cons_of_mem _ List.mem_cons_self, by decide⟩

/-- Two adjacent sections are refused, and two sections that are apart are merged into one that has
not all of the second. -/
theorem bss_not_merged :
    (coff2noff .ideal (twoBss 14) (fun _ => 0) .opened =
        .error .bssAndSbss ⟨197, List.replicate 52 0 ++ [1], 53, false⟩ ∧
      ¬ MergesBss .ideal (twoBss 14) fun _ => 0) ∧
    (∃ f, coff2noff .ideal (twoBss 100) (fun _ => 0) .opened = .ok () f ∧
      (f.out.noffHeader fun _ => 0).uninitData = ⟨4, 0, 15⟩) ∧
    ¬ MergesBss .ideal (twoBss 100) fun _ => 0 := by
  obtain ⟨h, hh⟩ : ∃ h, h = ({ NoffHeader.initial (fun _ => 0) with
      code := ⟨0, 52, 1⟩, uninitData := ⟨4, 0, 15⟩ } : NoffHeader) := ⟨_, rfl⟩
  have hrun : coff2noff .ideal (twoBss 100) (fun _ => 0) .opened =
      .ok () ⟨197, h.toBytes ++ [1], 52, true⟩ := by
    rw [hh]
    decide +kernel
  have hseg : (HostFile.noffHeader (h.toBytes ++ [1]) fun _ => 0).segment .bss = ⟨4, 0, 15⟩ := by
    rw [(noffHeader_toBytes h [1] fun _ => 0).2 .bss, hh]
    decide +kernel
  refine ⟨⟨by decide +kernel, not_mergesBss secondBss_twoBss⟩, ⟨_, hrun, hseg⟩, fun hmerges => ?_⟩
  have hmem : sectionOf .bss 100 5 0 ∈ sectionsOf (twoBss 100) := by decide +kernel
  have h100 := (hmerges.union hrun (fun _ => 0) 100).mpr ⟨_, hmem, by decide, by decide +kernel⟩
  rw [show (HostFile.noffHeader (h.toBytes ++ [1]) fun _ => 0).uninitData = ⟨4, 0, 15⟩ from hseg]
    at h100
  exact absurd h100 (by decide +kernel)

end Nachos.Coff2Noff
