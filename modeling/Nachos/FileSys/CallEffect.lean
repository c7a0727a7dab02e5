import Nachos.FileSys.DescriptorTable

namespace Nachos.FileSys.Stub

open Base Function

/-!
# FileSys — what a system call does to the descriptor table

Each call on the stub file system does one of two things to the table (`TableStep`): it empties
entries and may fill one that was empty (`Reassigns`), or it moves the offset of one file.
`tableStep_call` says this once for all calls, so that a property of an entry that is open has to be
checked for a moved offset only (`TableStep.same`).

What `Open` can return is `Opened`. `Close`, `Create`, `Send` and `Receive` may also fail an
assertion or leave the table; `Inv.close_returns_iff` and the lemmas behind it say when they do not.
-/

namespace FileSystem

variable {s s' s₁ : FileSystem} {i : Fin maxFile} {f g : OpenFile}

/-! ### Emptied entries -/

/-- Entries have been emptied, and nothing else has changed. -/
def Shrinks (s s' : FileSystem) : Prop := ∀ i, s'.table i = s.table i ∨ s'.table i = none

theorem Clears.shrinks {p : Fin maxFile → Prop} (h : s.Clears p s') : s.Shrinks s' := by
  intro j
  cases h with
  | kept => exact .inl rfl
  | @cleared i f _ _ _ _ =>
    by_cases hj : j = i
    · subst hj
      exact .inr (update_self _ _ _)
    · exact .inl (update_of_ne hj _ _)

/-! ### All calls -/

/-- Entries are emptied, and one that was empty may be filled with a file at its beginning. -/
inductive Reassigns (s s' : FileSystem) : Prop where
  | shrinks : s.Shrinks s' → Reassigns s s'
  | filled {i : Fin maxFile} {f : OpenFile} : s.table i = none → s'.table i = some f →
      f.currentOffset = 0 → (∀ j, j ≠ i → s'.table j = s.table j ∨ s'.table j = none) →
      Reassigns s s'

/-- A file in the table has been there before, or is at its beginning. -/
theorem Reassigns.entry (h : s.Reassigns s') (hi : s'.table i = some g) :
    s.table i = some g ∨ s.table i = none ∧ g.currentOffset = 0 := by
  have hkept : s'.table i = s.table i ∨ s'.table i = none → s.table i = some g := by
    rintro (heq | hnone)
    · rw [← heq, hi]
    · rw [hi] at hnone
      cases hnone
  cases h with
  | shrinks h => exact .inl (hkept (h i))
  | @filled j f hj hj' hoff hother =>
    by_cases hij : i = j
    · subst hij
      rw [hi, Option.some.injEq] at hj'
      exact .inr ⟨hj, hj' ▸ hoff⟩
    · exact .inl (hkept (hother i hij))

/-- What a call does to the table. -/
inductive TableStep (s s' : FileSystem) : Prop where
  | reassigns : s.Reassigns s' → TableStep s s'
  | moved {i : Fin maxFile} {f : OpenFile} (offset : Int) : s.table i = some f →
      s'.table = update s.table i (some { f with currentOffset := offset }) → TableStep s s'

/-- An entry that stays open is the same file, at some offset. -/
theorem TableStep.same (h : s.TableStep s') (hi : s.table i = some f) (hi' : s'.table i = some g) :
    ∃ offset, g = { f with currentOffset := offset } := by
  cases h with
  | reassigns h =>
    rcases h.entry hi' with heq | ⟨hnone, -⟩
    · rw [hi, Option.some.injEq] at heq
      exact ⟨f.currentOffset, heq.symm⟩
    · rw [hi] at hnone
      cases hnone
  | @moved j f' offset hj htable =>
    by_cases hij : i = j
    · subst hij
      rw [hi, Option.some.injEq] at hj
      subst hj
      rw [htable, update_self, Option.some.injEq] at hi'
      exact ⟨offset, hi'.symm⟩
    · rw [htable, update_of_ne hij, hi, Option.some.injEq] at hi'
      exact ⟨f.currentOffset, hi'.symm⟩

/-- What `Open` can return: `-1` and the same table, the entry in which it has found the name, or a
new entry. -/
inductive Opened (s : FileSystem) (type : Int) (same : ℕ → Bool) : Int × FileSystem → Prop where
  | refused {s' : FileSystem} : s'.table = s.table → Opened s type same (-1, s')
  | found {i : Fin maxFile} {f : OpenFile} : s.table i = some f → same i = true →
    Opened s type same ((i : Int), s)
  | added {i : Fin maxFile} {fd : ℕ} : (∀ j f, s.table j = some f → same j = false) → 2 ≤ (i : ℕ) →
    s.table i = none →
      Opened s type same ((i : Int),
        ⟨update s.table i (some ⟨-1, fd, 0, type⟩), insert fd s.hostOpen⟩)

theorem opened_sysOpen (s : FileSystem) (fileName : String) {type : Int}
    (htype : type = 0 ∨ type = 1) (same : ℕ → Bool) (answer : Option ℕ) :
    Post (s.Opened type same) (s.sysOpen fileName type same answer) := by
  refine post_sysOpen fileName htype answer (.refused rfl) ?_ ?_
  · exact fun i f hi hsame => .found hi hsame
  · exact fun hno i fd h2 hi _ => .added hno h2 hi

/-- `Open` of a file that the host opens succeeds if there is an entry for it. -/
theorem sysOpen_eq_ok {fileName : String} (hname : ¬fileName.isEmpty = true) {type : Int}
    (htype : type = 0 ∨ type = 1) (same : ℕ → Bool) {fd : ℕ} (hfd : fd ∉ s.hostOpen)
    (hfree : ∃ i : Fin maxFile, 2 ≤ (i : ℕ) ∧ s.table i = none) :
    ∃ id s', s.sysOpen fileName type same (some fd) = .ok (id, s') ∧ id ≠ -1 := by
  rw [sysOpen, if_neg hname]
  rcases s.getFileDescriptorID_spec same with ⟨i, f, hi, hsame, heq⟩ | ⟨-, heq⟩
  · rw [heq, ok_bind, if_pos (by omega)]
    exact ⟨_, _, rfl, by omega⟩
  · rw [heq, ok_bind, if_neg (by simp)]
    rcases s.getFileDescriptorEmptySlot_spec with ⟨i, h2, hi, hslot⟩ | ⟨hfull, -⟩
    · rw [hslot, ok_bind, if_neg (by omega)]
      simp only [addToFileDescriptorTable, entry_fin, ok_bind, hi, openMode, if_pos htype,
        hostDescriptor,
        if_neg hfd, setEntry_fin, pure_eq_ok, Option.map_some, Option.isSome_some, if_true]
      exact ⟨_, _, rfl, by omega⟩
    · obtain ⟨i, h2, hi⟩ := hfree
      exact absurd hi (hfull i h2)

theorem Effect.reassigns_or_moved {c : FsCall} (h : s.Effect c s') : s.Reassigns s' ∨
    c.moves = true ∧ ∃ i f offset, s.table i = some f ∧ s' = s.moved i f offset := by
  cases h with
  | clears h => exact .inl (.shrinks h.shrinks)
  | moved offset hc _ hi => exact .inr ⟨hc, _, _, offset, hi, rfl⟩
  | added _ hi =>
    exact .inl (.filled hi (update_self _ _ _) rfl fun j hj => .inl (update_of_ne hj _ _))
  | socket _ hi _ h =>
    refine .inl (.filled hi (update_self _ _ _) rfl fun j hj => ?_)
    simp only [update_of_ne hj]
    exact h.shrinks j

/-- Most calls move no offset. -/
theorem reassigns_call (s : FileSystem) {c : FsCall} (hc : c.moves = false) :
    Post (fun r => s.Reassigns r.2) (s.call c) := by
  refine fun r hr => (s.effect_call c r hr).reassigns_or_moved.resolve_right ?_
  rintro ⟨hm, -⟩
  simp [hc] at hm

/-- **One call.** -/
theorem tableStep_call (s : FileSystem) (c : FsCall) :
    Post (fun r => s.TableStep r.2) (s.call c) := by
  intro r hr
  rcases (s.effect_call c r hr).reassigns_or_moved with h | ⟨-, i, f, offset, hi, heq⟩
  · exact .reassigns h
  · rw [heq]
    exact .moved offset hi rfl

/-- **One step.** -/
theorem tableStep_next {a : FsAction} (hs : s.next a = .next s') : s.TableStep s' := by
  rcases next_cases hs with ⟨c, r, rfl, hc⟩ | ⟨fd, rfl, -, rfl⟩ | ⟨fd, rfl, -, rfl⟩
  · exact s.tableStep_call c _ hc
  · exact .reassigns (.shrinks fun _ => .inl rfl)
  · exact .reassigns (.shrinks fun _ => .inl rfl)

/-! ### Calls that return -/

/-- The loop over the sockets gets to its end: the file of a socket is not the socket itself. -/
theorem Inv.removeSocketFrom_eq_ok (h : s.Inv) (id : Int) (l : List (Fin maxFile)) :
    ∃ r, s.removeSocketFrom id (l.map Fin.val) = .ok r := by
  rcases s.removeSocketFrom_cases id l with ⟨i, -, f, hi, hf, heq⟩ | heq <;> rw [heq]
  · have hopen := h.isOpen i f hi f.file (by simp [OpenFile.descriptors])
    have hne : f.file ≠ (id - plusSocketId).toNat := by
      have hnodup := h.nodup i f hi
      simp only [OpenFile.descriptors, hf.1, hf.2, if_true, List.nodup_cons, List.mem_singleton]
        at hnodup
      exact hnodup.1
    rw [deleteEntry, if_pos (Finset.mem_erase.mpr ⟨hne, hopen⟩), setEntry_fin]
    exact ⟨_, rfl⟩
  · exact ⟨_, rfl⟩

/-- `Close` returns unless the id is the one behind the last entry. -/
theorem Inv.close_returns_iff (h : s.Inv) (id : Int) :
    (∃ r, s.call (.close id) = .ok r) ↔ id ≠ maxFile := by
  constructor
  · rintro ⟨r, hr⟩ rfl
    cases hr
  · intro hne
    suffices hremove : ∃ r, s.removeFileDescriptor id = .ok r by
      obtain ⟨r, hr⟩ := hremove
      exact ⟨_, by rw [call, sysClose, hr]; rfl⟩
    by_cases hrange : id > maxFile ∨ id < 0
    · rw [removeFileDescriptor, if_pos hrange, map_behind]
      exact h.removeSocketFrom_eq_ok id behind
    · obtain ⟨i, rfl⟩ := exists_fin (show ¬ (id < 0 ∨ id ≥ maxFile) by omega)
      rw [removeFileDescriptor, if_neg hrange, entry_fin, ok_bind]
      cases hi : s.table i with
      | none => exact ⟨_, rfl⟩
      | some f => exact ⟨_, by simp only [h.deleteEntry_eq hi, ok_bind]; rfl⟩

/-- `Create` returns unless the host cannot open the file. -/
theorem Inv.create_returns_iff (h : s.Inv) (fileName : String) {answer : Option ℕ}
    (hposix : ∀ fd ∈ answer, fd ∉ s.hostOpen) :
    (∃ r, s.call (.create fileName answer) = .ok r) ↔ fileName.isEmpty = true ∨ answer ≠ none := by
  by_cases hname : fileName.isEmpty = true
  · exact iff_of_true ⟨_, if_pos hname⟩ (.inl hname)
  · rw [call, sysCreate, if_neg hname]
    cases answer with
    | none => exact iff_of_false (by rintro ⟨r, hr⟩; cases hr) (by simp [hname])
    | some fd =>
      refine iff_of_true ?_ (.inr (by simp))
      rcases h.create_eq (hposix fd rfl) with ⟨i, f, -, -, -, heq⟩ | ⟨-, heq⟩
      · exact ⟨_, by rw [heq]; rfl⟩
      · exact ⟨_, by rw [heq]; rfl⟩

/-- `Send` and `Receive` return unless they meet an empty entry first. -/
theorem message_returns_iff (s : FileSystem) (id length : Int) (result : ℕ → Int) :
    (∃ r, s.messageFrom id length result (List.range 20) = .ok r) ↔
    s.FoundFirst id length result := by
  rcases s.message_spec id length result with ⟨hfound, r, heq, -⟩ | ⟨hfound, heq⟩
  · exact iff_of_true ⟨r, heq⟩ hfound
  · exact iff_of_false (by rintro ⟨r, hr⟩; cases heq.symm.trans hr) hfound

end FileSystem

end Nachos.FileSys.Stub
