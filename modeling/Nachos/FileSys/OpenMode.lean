import Nachos.FileSys.CallEffect

namespace Nachos.FileSys.Stub

open Base

/-!
# FileSys — the mode of an open file

`Open(name, type)` asks for a file to read and write (`type` 0) or to read only (`type` 1), and
`Write` refuses the second kind. The mode is kept in the entry of the table, and a file that is open
already is found by its name: `Open` then returns the entry as it is, whatever mode was asked for.

An entry keeps its mode for as long as it is open (`fileType_run`), so what was asked for holds from
then on, or never did.
-/

namespace FileSystem

variable {s s' : FileSystem} {i : Fin maxFile} {f : OpenFile}

/-- The file with the id may be written to as it was asked for: every `Write` of something returns
`-1` and does nothing, or none is refused for the mode of the file. -/
def Honours (s : FileSystem) (readOnly : Bool) (id : Int) : Prop :=
  if readOnly then ∀ size n, 0 < size → s.call (.write size id n) = .ok (-1, s)
  else ∀ size n, s.call (.write size id n) = s.write size id n

/-- It depends on the type in the entry. -/
theorem honours_iff (h2 : 2 ≤ (i : ℕ)) (hi : s.table i = some f) (readOnly : Bool) :
    s.Honours readOnly (i : Int) ↔ (f.fileType = 1 ↔ readOnly = true) := by
  have hcall : ∀ size n, s.call (.write size (i : Int) n) =
      if f.fileType = 1 then .ok (-1, s) else s.write size (i : Int) n := fun size n =>
    sysWrite_eq h2 hi size n
  -- A `Write` of one byte that the host writes is not refused by `FileSystem::Write`.
  have hwrite : s.write 1 (i : Int) 1 ≠ .ok (-1, s) := by
    rw [write_eq h2 hi, if_pos rfl]
    cases s.transfer (i : Int) f 1 with
    | error e => exact nofun
    | ok s₁ =>
      intro h
      simp only [ok_bind, Except.ok.injEq, Prod.mk.injEq] at h
      exact absurd h.1 (by decide)
  unfold Honours
  by_cases hf : f.fileType = 1
  · cases readOnly with
    | true => simp [hcall, hf]
    | false =>
      simp only [hcall, hf, if_true, Bool.false_eq_true, if_false, iff_false, not_true_eq_false]
      exact fun h => hwrite (h 1 1).symm
  · cases readOnly with
    | false => simp [hcall, hf]
    | true =>
      simp only [hcall, hf, if_false, if_true, false_iff, not_true_eq_false]
      exact iff_of_false (fun h => hwrite (h 1 1 (by decide))) id

/-- The entry with the id holds a file. -/
def IsOpen (i : Fin maxFile) (s : FileSystem) : Prop := s.table i ≠ none

/-- A file keeps its type for as long as it is open. -/
theorem fileType_run {ls : List FsAction} (hi : s.table i = some f)
    (hopen : stubSystem.Always (IsOpen i) s ls) (hs : stubSystem.exec s ls = some s') :
    ∃ g, s'.table i = some g ∧ g.fileType = f.fileType := by
  induction ls generalizing s f with
  | nil =>
    cases hs
    exact ⟨f, hi, rfl⟩
  | cons a ls ih =>
    simp only [LTS.exec] at hs
    split at hs
    · rename_i s₁ hnext
      have hrest := hopen.2 s₁ hnext
      obtain ⟨g, hg⟩ := Option.ne_none_iff_exists'.mp hrest.head
      obtain ⟨offset, rfl⟩ := (tableStep_next hnext).same hi hg
      have hg' := ih hg hrest hs
      exact hg'
    · cases hs

end FileSystem

/-- **The mode of an open file.** Say that `Open` returns a file behind the console. Through every
run of calls in which the file is not closed, it may be written to as it was asked for exactly if it
has been opened now, or had been opened in the same mode. -/
theorem open_mode_honoured_iff (s s₁ : FileSystem) (fileName : String) (readOnly : Bool)
    (same : ℕ → Bool) (answer : Option ℕ) (i : Fin maxFile) (h2 : 2 ≤ (i : ℕ))
    (hcall : s.call (.openFile fileName readOnly same answer) = .ok ((i : Int), s₁)) :
    (∀ ls s₂, stubSystem.exec s₁ ls = some s₂ →
      stubSystem.Always (FileSystem.IsOpen i) s₁ ls → s₂.Honours readOnly (i : Int)) ↔
    ∀ f, s.table i = some f → (f.fileType = 1 ↔ readOnly = true) := by
  have hopened : s.Opened (if readOnly then 1 else 0) same ((i : Int), s₁) :=
    s.opened_sysOpen fileName (by cases readOnly <;> simp) same answer _ hcall
  -- The file that `Open` leaves in the entry.
  have hentry : ∃ f, s₁.table i = some f ∧
      ((f.fileType = 1 ↔ readOnly = true) ↔ ∀ f, s.table i = some f →
      (f.fileType = 1 ↔ readOnly = true)) := by
    generalize hr : ((i : Int), s₁) = r at hopened
    cases hopened with
    | refused =>
      simp only [Prod.mk.injEq] at hr
      omega
    | @found j f hj _ =>
      simp only [Prod.mk.injEq, Int.natCast_inj] at hr
      obtain ⟨hij, rfl⟩ := hr
      obtain rfl := Fin.ext hij
      exact ⟨f, hj, by simp [hj]⟩
    | @added j fd _ _ hj =>
      simp only [Prod.mk.injEq, Int.natCast_inj] at hr
      obtain ⟨hij, rfl⟩ := hr
      obtain rfl := Fin.ext hij
      refine ⟨_, Function.update_self _ _ _, ?_⟩
      cases readOnly <;> simp [hj]
  obtain ⟨f, hi, hiff⟩ := hentry
  rw [← hiff]
  constructor
  · intro h
    have hnow := h [] s₁ rfl (show s₁.table i ≠ none by rw [hi]; exact nofun)
    exact (FileSystem.honours_iff h2 hi readOnly).mp hnow
  · intro hmode ls s₂ hex hopen
    obtain ⟨g, hg, htype⟩ := FileSystem.fileType_run hi hopen hex
    rw [FileSystem.honours_iff h2 hg readOnly, htype]
    exact hmode

/-- A file that is opened to read only, right after the start. -/
theorem open_mode_honoured_first : ∃ s₁,
    FileSystem.started.call (.openFile "f" true (fun _ => false) (some 7)) = .ok (2, s₁) ∧
    ∀ ls s₂, stubSystem.exec s₁ ls = some s₂ →
      stubSystem.Always (FileSystem.IsOpen ⟨2, by decide⟩) s₁ ls → s₂.Honours true 2 :=
  ⟨_, rfl, (open_mode_honoured_iff .started _ "f" true (fun _ => false) (some 7) ⟨2, by decide⟩
    (by decide) rfl).mpr nofun⟩

/-- The first `Open` of a name decides for the second one: a file that was opened to read only is
returned to a process that asks to write to it, and the other way round. -/
theorem open_mode_ignored :
    (∃ s s₁, stubSystem.Reachable s ∧
      s.call (.openFile "f" false (fun j => j == 2) none) = .ok (2, s₁) ∧
      s₁.call (.write 1 2 1) = .ok (-1, s₁)) ∧
    ∃ s s₁ s₂, stubSystem.Reachable s ∧
      s.call (.openFile "f" true (fun j => j == 2) none) = .ok (2, s₁) ∧
      s₁.call (.write 1 2 1) = .ok (1, s₂) := by
  constructor
  · exact ⟨_, _, FileSystem.reachable_started.step
      (l := .call (.openFile "f" true (fun _ => false) (some 7))) rfl, rfl, rfl⟩
  · exact ⟨_, _, _, FileSystem.reachable_started.step
      (l := .call (.openFile "f" false (fun _ => false) (some 7))) rfl, rfl, rfl⟩

end Nachos.FileSys.Stub
