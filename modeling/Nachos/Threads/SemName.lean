import Nachos.Threads.STable

namespace Nachos.Threads

open Base Function

/-!
# Threads — the name in a semaphore object

`Sem::Sem` copies the name of a semaphore with `strcpy` into a field of 50 bytes and then assigns
the pointer behind it; the system call hands over names of up to 255 bytes.

The bytes of an object are modelled from its beginning on (`Sem.construct`). A name that fits its
field is found again by `strcmp`, and by no other name (`strcmpAt_construct`), so the lookups of
`STable` may compare names. A longer one is written past the field whatever was there
(`exists_outside`), and from 52 bytes on its end is the pointer (`strcmpAt_construct_long`).
-/

/-! ### The object -/

/-- The offset of `sem` in `Sem`: the first multiple of 4 behind `name`. -/
def semOffset : ℕ := 52

/-- `Sem::Sem`: the bytes at the object, which were `object`, once the name is copied and the
pointer to the semaphore is assigned. -/
def Sem.construct (object : Buffer) (na : CStr) (pointer : ℕ) : Buffer :=
  (strcpy object na).copy semOffset 4 (wordByte pointer)

section Object

variable {object : Buffer} {na name : CStr} {pointer : ℕ}

theorem construct_of_lt {i : ℕ} (h : i < semOffset) :
    Sem.construct object na pointer i = strcpy object na i :=
  Buffer.copy_of_notMem _ _ (.inl h)

/-- A name that fits is found by `strcmp`, and by no other name. -/
theorem strcmpAt_construct (h : na.1.length < semNameSize) :
    strcmpAt name (Sem.construct object na pointer) = 0 ↔ name = na := by
  refine strcmpAt_string fun i hi => ?_
  unfold semNameSize at h
  rw [construct_of_lt (by unfold semOffset; omega), strcpy_of_le hi]

theorem strcpy_inside (h : na.1.length < semNameSize) {i : ℕ} (hi : semNameSize ≤ i) :
    strcpy object na i = object i :=
  strcpy_of_gt (by omega)

/-- A longer name is written behind its field. -/
theorem exists_outside (na : CStr) (h : semNameSize ≤ na.1.length) :
    ∃ object : Buffer, strcpy object na semNameSize ≠ object semNameSize := by
  refine ⟨fun _ => if na.buffer semNameSize = 0 then 1 else 0, ?_⟩
  rw [strcpy_of_le h]
  split
  · rename_i h0
    rw [h0]
    decide
  · assumption

/-- A name of 52 bytes or more is not found, unless it goes on with the first byte of the
pointer. -/
theorem strcmpAt_construct_long (h : semOffset ≤ na.1.length)
    (hfound : strcmpAt na (Sem.construct object na pointer) = 0) :
    wordByte pointer 0 = na.buffer semOffset := by
  have hbyte := (strcmpAt_eq_zero_iff _ _).mp hfound semOffset h
  rwa [Sem.construct, Buffer.copy_of_mem _ _ le_rfl (by omega), Nat.sub_self] at hbyte

end Object

/-! ### The calls behind a `Create` -/

namespace SemTabState

variable {T : Type*} {s s' : SemTabState T} {t : T} {i j : Fin maxSemaphore} {e : Sem T}
    {name : CStr}

/-- There is a semaphore of the name in slot `i`. -/
def NamedAt (s : SemTabState T) (name : CStr) (i : Fin maxSemaphore) : Prop :=
  ∃ e, s.tab.table i = some e ∧ e.name = name

/-- What a call does to one semaphore does not change its name. -/
theorem NamedAt.setSem (h : s.NamedAt name i) (hj : s.tab.table j = some e) {sem : Semaphore T}
    (htab : s'.tab = s.tab.setSem j e sem) : s'.NamedAt name i := by
  obtain ⟨a, ha, hname⟩ := h
  rw [NamedAt, htab, STable.setSem]
  by_cases hij : i = j
  · subst hij
    rw [hj, Option.some.injEq] at ha
    subst ha
    exact ⟨_, update_self _ _ _, hname⟩
  · exact ⟨a, (update_of_ne hij _ _).trans ha, hname⟩

variable [DecidableEq T]

theorem NamedAt.pass (h : s.NamedAt name i) (hs : s.pass t j = .next s') : s'.NamedAt name i := by
  unfold SemTabState.pass at hs
  split at hs
  · cases hs
  · rename_i e he
    split at hs
    · cases hs
    · cases hs
      exact h.setSem he rfl
    · cases hs
      exact h.setSem he rfl

theorem NamedAt.signalAt (h : s.NamedAt name i) (hs : s.signalAt t j = .next s') :
    s'.NamedAt name i := by
  unfold SemTabState.signalAt at hs
  split at hs
  · cases hs
  · rename_i e he
    split at hs
    · cases hs
      exact h.setSem he rfl
    · cases hs
      exact h.setSem he rfl

theorem NamedAt.create (h : s.NamedAt name i) (hinv : s.Inv) {name' : CStr} {value : Int}
    (hs : s.create t name' value = .next s') : s'.NamedAt name i := by
  have hcreated := hinv.wf.create name' value
  unfold SemTabState.create at hs
  generalize s.tab.create name' value = r at hcreated hs
  cases hcreated with
  | added _ hfree _ _ hother =>
    cases hs
    obtain ⟨e, he, hname⟩ := h
    refine ⟨e, ?_, hname⟩
    show _ = some e
    rw [hother i (by rintro rfl; rw [hfree] at he; cases he), he]
  | refused =>
    cases hs
    exact h
  | overflow => cases hs

theorem NamedAt.find (h : s.NamedAt name i) {name' : CStr}
    {go : Fin maxSemaphore → Outcome (SemTabState T)}
    (hgo : ∀ j s', go j = .next s' → s'.NamedAt name i) (hs : s.find t name' go = .next s') :
    s'.NamedAt name i := by
  unfold SemTabState.find at hs
  split at hs
  · cases hs
  · cases hs
    exact h
  · exact hgo _ _ hs

/-- **A semaphore stays in its slot.** -/
theorem NamedAt.next (h : s.NamedAt name i) (hinv : s.Inv) {a : SemTabAction T}
    (hs : s.next a = .next s') : s'.NamedAt name i := by
  cases a with
  | create t name' value => exact h.create hinv (Outcome.guard_eq_next.mp hs).2
  | wait t name' => exact h.find (fun _ _ => h.pass) (Outcome.guard_eq_next.mp hs).2
  | resume t =>
    simp only [SemTabState.next] at hs
    split at hs
    · exact h.pass hs
    · cases hs
  | signal t name' => exact h.find (fun _ _ => h.signalAt) (Outcome.guard_eq_next.mp hs).2

/-- The lookup finds the slot. -/
theorem NamedAt.find_eq (h : s.NamedAt name i) (hinv : s.Inv) (t : T)
    (go : Fin maxSemaphore → Outcome (SemTabState T)) : s.find t name go = go i := by
  obtain ⟨e, he, hname⟩ := h
  rcases hinv.find t name go with ⟨habsent, -⟩ | ⟨j, e', he', hname', -, hfind⟩
  · exact absurd hname (STable.sems_eq_none_iff.mp habsent i e he)
  · rw [hfind, hinv.wf.inj j i e' e he' he (hname'.trans hname.symm)]

/-- A second `Create` is refused. -/
theorem NamedAt.create_refused (h : s.NamedAt name i) (hinv : s.Inv) (ht : s.pc t = .outside)
    (value : Int) :
    s.next (.create t name value) = .next { s with log := s.log.returned t (-1) } := by
  obtain ⟨e, he, hname⟩ := h
  refine hinv.refines.create_refused t name value (hname ▸ e.fits) ht fun hno => ?_
  exact STable.sems_eq_none_iff.mp hno.1 i e he hname

/-- A `Create` with a name that fits, absent and with a slot free for it, puts it into a slot. -/
theorem Inv.exists_create (h : s.Inv) (ht : s.pc t = .outside) (habsent : s.tab.sems name = none)
    (hfree : ∃ i, s.tab.table i = none) (hfits : name.1.length < semNameSize) (value : Int) :
    ∃ s₁ i, s.next (.create t name value) = .next s₁ ∧ s₁.log.result t = some 0 ∧
      s.tab.table i = none ∧ s₁.NamedAt name i := by
  have hcreated := h.wf.create name value
  rw [SemTabState.next, if_pos ht, SemTabState.create]
  generalize s.tab.create name value = r at hcreated
  cases hcreated with
  | @added i tab _ hi hwf hsems hother =>
    refine ⟨_, i, rfl, update_self _ _ _, hi, ?_⟩
    -- The name is found somewhere, and all other slots are as they were.
    obtain ⟨j, e, he, hname⟩ : ∃ j e, tab.table j = some e ∧ e.name = name := by
      by_contra hno
      have hnone : tab.sems name = none := STable.sems_eq_none_iff.mpr fun j e he hname =>
        hno ⟨j, e, he, hname⟩
      rw [hsems, update_self] at hnone
      cases hnone
    by_cases hj : j = i
    · subst hj
      exact ⟨e, he, hname⟩
    · rw [hother j hj] at he
      exact absurd hname (STable.sems_eq_none_iff.mp habsent j e he)
  | refused hno => exact absurd ⟨habsent, hfree⟩ hno
  | overflow hlong => exact absurd hfits hlong

/-- `Create` by thread `t` stores the name as it is and inside its field; and from then on `Wait`
and `Signal` with the name act on the new semaphore and `Create` is refused. -/
structure NameWorks (s : SemTabState T) (t : T) (name : CStr) (value : Int) : Prop where
  stored : ∀ object pointer, strcmpAt name (Sem.construct object name pointer) = 0
  inside : ∀ object i, semNameSize ≤ i → strcpy object name i = object i
  found : ∃ s₁ i, s.next (.create t name value) = .next s₁ ∧ s₁.log.result t = some 0 ∧
    s.tab.table i = none ∧ ∀ ls s₂, (semTabSystem T).Run s₁ ls s₂ → ∀ u, s₂.pc u = .outside →
      s₂.next (.wait u name) = s₂.pass u i ∧ s₂.next (.signal u name) = s₂.signalAt u i ∧
      ∀ w, s₂.next (.create u name w) = .next { s₂ with log := s₂.log.returned u (-1) }

end SemTabState

/-- **Names of semaphores.** Where `Create` finds the name absent and a slot free, in any table that
any number of threads can bring about, the semaphore works under its name exactly if the name is
shorter than its field. -/
theorem semaphore_name_works_iff {T : Type*} [DecidableEq T] (s : SemTabState T)
    (hs : (semTabSystem T).Reachable s) (t : T) (ht : s.pc t = .outside) (name : CStr)
    (habsent : s.tab.sems name = none) (hfree : ∃ i, s.tab.table i = none) (value : Int) :
    s.NameWorks t name value ↔ name.1.length < semNameSize := by
  constructor
  · intro h
    by_contra hlong
    obtain ⟨object, hout⟩ := exists_outside name (by omega)
    exact hout (h.inside object semNameSize le_rfl)
  · intro hfits
    refine ⟨fun object pointer => (strcmpAt_construct hfits).mpr rfl,
      fun object i hi => strcpy_inside hfits hi, ?_⟩
    have hinv := SemTabState.inv_of_reachable hs
    obtain ⟨s₁, i, hnext, hres, hi, hnamed⟩ := hinv.exists_create ht habsent hfree hfits value
    have hs₁ : (semTabSystem T).Reachable s₁ := hs.step (l := .create t name value) hnext
    refine ⟨s₁, i, hnext, hres, hi, fun ls s₂ hrun u hu => ?_⟩
    have hnamed₂ : s₂.NamedAt name i := by
      refine hs₁.invariant_run (I := (SemTabState.NamedAt · name i)) hnamed
        (fun s a s' hs hn hl => ?_) hrun
      exact hn.next (SemTabState.inv_of_reachable hs) hl
    have hinv₂ := SemTabState.inv_of_reachable (hs₁.run hrun)
    refine ⟨?_, ?_, fun w => hnamed₂.create_refused hinv₂ hu w⟩
    · rw [SemTabState.next, if_pos hu, hnamed₂.find_eq hinv₂]
    · rw [SemTabState.next, if_pos hu, hnamed₂.find_eq hinv₂]

/-- A state in which no semaphore has been created. -/
def noSemaphores : SemTabState (Fin 1) := .new

theorem reachable_noSemaphores : (semTabSystem (Fin 1)).Reachable noSemaphores := .init rfl

theorem sems_noSemaphores (name : CStr) : noSemaphores.tab.sems name = none :=
  STable.sems_eq_none_iff.mpr fun _ _ h => nomatch h

/-- A name of one byte. -/
theorem semaphore_name_works_short : noSemaphores.NameWorks 0 ⟨[97], by decide⟩ 1 :=
  (semaphore_name_works_iff noSemaphores reachable_noSemaphores 0 rfl ⟨[97], by decide⟩
    (sems_noSemaphores _) ⟨⟨0, by decide⟩, rfl⟩ 1).mpr (by decide)

/-- A name of 60 bytes. -/
def longName : CStr := ⟨List.replicate 60 97, by decide⟩

/-- `Create` writes behind the field of `longName`, and `strcmp` does not find the name
afterwards. -/
theorem semaphore_longName_fails : longName.1.length = 60 ∧
    strcpy (fun _ => 0) longName semNameSize ≠ 0 ∧
    strcmpAt longName (Sem.construct (fun _ => 0) longName 0x0804A000) ≠ 0 ∧
    ¬ noSemaphores.NameWorks 0 longName 1 := by
  have hlong : semNameSize ≤ longName.1.length := by decide
  refine ⟨by decide, ?_, fun hfound => ?_, fun hworks => ?_⟩
  · rw [strcpy_of_le hlong]
    decide
  · have hbyte := strcmpAt_construct_long (by decide) hfound
    exact absurd hbyte (by decide)
  · obtain ⟨object, hout⟩ := exists_outside longName hlong
    exact hout (hworks.inside object semNameSize le_rfl)

end Nachos.Threads
