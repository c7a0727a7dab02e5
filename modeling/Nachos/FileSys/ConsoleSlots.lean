import Nachos.FileSys.DescriptorTable

namespace Nachos.FileSys.Stub

open Base Function

/-!
# FileSys — the two entries of the console

The constructor of the stub file system opens the console in the entries `0` and `1`, and
`GetFileDescriptorEmptySlot` and the loop over the sockets start at `2`. `FileSystem::Close`
refuses the ids below `2`, but `SysClose` calls `RemoveFileDescriptor`, which does not.

`KeepsConsole s s'` says that the two entries are the same; `Effect.keepsConsole` that every
system call keeps them except `Close(0)` and `Close(1)`.
-/

namespace FileSystem

/-- The entries of the console are the same. -/
def KeepsConsole (s s' : FileSystem) : Prop :=
  ∀ j : Fin maxFile, (j : ℕ) < 2 → s'.table j = s.table j

variable {s s' : FileSystem}

theorem KeepsConsole.refl (s : FileSystem) : s.KeepsConsole s := fun _ _ => rfl

theorem Clears.keepsConsole {p : Fin maxFile → Prop} (h : s.Clears p s')
    (hp : ∀ i, p i → 2 ≤ (i : ℕ)) : s.KeepsConsole s' := by
  intro j hj
  cases h with
  | kept => rfl
  | cleared hi =>
    refine update_of_ne ?_ _ _
    rintro rfl
    exact absurd (hp _ hi) (by omega)

end FileSystem

/-- The call closes an entry of the console. -/
def FsAction.ClosesConsole (a : FsAction) : Prop := a = .call (.close 0) ∨ a = .call (.close 1)

namespace FileSystem

variable {s s' : FileSystem} {f g : OpenFile}

/-- Every call keeps the entries of the console, except the two that close them. -/
theorem Effect.keepsConsole {c : FsCall} (h : s.Effect c s')
    (hc : ¬ (FsAction.call c).ClosesConsole) : s.KeepsConsole s' := by
  intro j hj
  cases h with
  | clears h =>
    refine h.keepsConsole (fun i hi => ?_) j hj
    by_contra hlt
    obtain rfl := hi.resolve_left hlt
    rcases (show (i : ℕ) = 0 ∨ (i : ℕ) = 1 by omega) with h0 | h1
    · exact hc (.inl (by rw [h0]; rfl))
    · exact hc (.inr (by rw [h1]; rfl))
  | moved _ _ h2 => exact update_of_ne (by omega) _ _
  | added h2 => exact update_of_ne (by omega) _ _
  | socket h2 _ _ h => exact (update_of_ne (by omega) _ _).trans (h.keepsConsole (fun _ => id) j hj)

/-- A step that does not close the console keeps its entries. -/
theorem keepsConsole_next {a : FsAction} (hs : s.next a = .next s') (ha : ¬ a.ClosesConsole) :
    s.KeepsConsole s' := by
  rcases next_cases hs with ⟨c, r, rfl, hc⟩ | ⟨fd, rfl, -, rfl⟩ | ⟨fd, rfl, -, rfl⟩
  · exact (s.effect_call c _ hc).keepsConsole ha
  · exact .refl s
  · exact .refl s

/-- `ConsoleInput` and `ConsoleOutput` are in the first two entries. -/
structure HasConsole (f g : OpenFile) (s : FileSystem) : Prop where
  input : s.table ⟨0, by decide⟩ = some f
  output : s.table ⟨1, by decide⟩ = some g

/-- The console is in its entries, on descriptors that are open, and a `Read` on id `0` and a
`Write` on id `1` go to the console: the first returns what `GetString` returns, the second
what `PutString` returns, and no file moves. -/
structure Console (f g : OpenFile) (s : FileSystem) : Prop extends HasConsole f g s where
  isOpen : f.file ∈ s.hostOpen ∧ g.file ∈ s.hostOpen
  read : ∀ n, s.call (.read 0 n) = .ok (n, s)
  write : ∀ size n, s.call (.write size 1 n) = .ok (size, s)

/-- The rest follows from the two entries. -/
theorem HasConsole.console (h : s.HasConsole f g) (hinv : s.Inv) : s.Console f g := by
  have hin : s.getFileDescriptorByID 0 = .ok (some f) := by
    rw [← h.input]
    exact s.getFileDescriptorByID_fin ⟨0, by decide⟩
  have hout : s.getFileDescriptorByID 1 = .ok (some g) := by
    rw [← h.output]
    exact s.getFileDescriptorByID_fin ⟨1, by decide⟩
  refine ⟨h, ⟨hinv.isOpen _ f h.input _ ?_, hinv.isOpen _ g h.output _ ?_⟩, fun n => ?_,
    fun size n => ?_⟩
  · simp [OpenFile.descriptors]
  · simp [OpenFile.descriptors]
  · simp [call, sysRead, hin]
  · simp [call, sysWrite, hout]

/-- `Close` on the number of an entry empties it. -/
theorem Inv.call_close (hinv : s.Inv) {i : Fin maxFile} (hi : s.table i = some f) :
    s.call (.close (i : Int)) =
      .ok (0, ⟨update s.table i none, s.hostOpen.erase f.file⟩) := by
  have hlt := fin_lt i
  rw [FileSystem.call, FileSystem.sysClose, removeFileDescriptor, if_neg (by omega), entry_fin,
    ok_bind, hi]
  simp only [hinv.deleteEntry_eq hi, ok_bind, pure_eq_ok, if_true]

theorem Inv.next_close (hinv : s.Inv) {i : Fin maxFile} (hi : s.table i = some f)
    (hs : s.next (.call (.close (i : Int))) = .next s') : s'.table i = none := by
  simp only [FileSystem.next, hinv.call_close hi, Outcome.next.injEq] at hs
  rw [← hs]
  exact update_self ..

theorem Inv.not_hasConsole (hinv : s.Inv) (h : s.HasConsole f g) {a : FsAction}
    (ha : a.ClosesConsole) (hs : s.next a = .next s') : ¬ s'.HasConsole f g := by
  intro h'
  rcases ha with rfl | rfl
  · have hnone := hinv.next_close h.input hs
    rw [h'.input] at hnone
    cases hnone
  · have hnone := hinv.next_close h.output hs
    rw [h'.output] at hnone
    cases hnone

/-- A step keeps the console exactly if it does not close it. -/
theorem Inv.console_next_iff (hinv : s.Inv) (h : s.Console f g) {a : FsAction}
    (hs : s.next a = .next s') : s'.Console f g ↔ ¬ a.ClosesConsole := by
  constructor
  · intro h' ha
    exact hinv.not_hasConsole h.toHasConsole ha hs h'.toHasConsole
  · intro ha
    have hkeep := keepsConsole_next hs ha
    have hhas : s'.HasConsole f g :=
      ⟨(hkeep _ (by simp)).trans h.input, (hkeep _ (by simp)).trans h.output⟩
    exact hhas.console (hinv.next hs)

end FileSystem

/-- **The entries of the console.** The constructor has put `ConsoleInput` and `ConsoleOutput` into
the first two entries. Whatever system calls follow, by whatever processes and with whatever
answers of the host, the entries stay what they are and `Read` on id `0` and `Write` on id `1`
reach the console, all along the run, exactly if none of the calls is `Close(0)` or
`Close(1)`. -/
theorem console_permanent_iff (s₀ : FileSystem) (f g : OpenFile) (h₀ : stubSystem.init s₀)
    (hcon : s₀.HasConsole f g) (ls : List FsAction) (hrun : stubSystem.exec s₀ ls ≠ none) :
    stubSystem.Always (FileSystem.Console f g) s₀ ls ↔ ∀ a ∈ ls, ¬ a.ClosesConsole := by
  have hinv : s₀.Inv := FileSystem.inv_of_reachable (.init h₀)
  refine LTS.always_iff (I := FileSystem.Inv) ?_ ?_ hinv (hcon.console hinv) hrun
  · exact fun s a s' h hs => h.next hs
  · exact fun s a s' h hc hs => h.console_next_iff hc hs

/-- A run in which another file is closed keeps the console. -/
theorem console_permanent_iff_close_two :
    stubSystem.Always (FileSystem.Console ⟨-1, 5, 0, 0⟩ ⟨-1, 6, 0, 1⟩) .started
      [.call (.openFile "f" false (fun _ => false) (some 7)), .call (.close 2)] := by
  refine (console_permanent_iff .started _ _ FileSystem.init_started ⟨rfl, rfl⟩ _ ?_).mpr ?_
  · exact fun h => by cases h
  · simp [FsAction.ClosesConsole]

/-- Right after the start any process can close the console. A `Read` on id `0` and a `Write` on
id `1` then return `-1` and do not reach it. -/
theorem console_closed : ∃ s s₁ s₂, stubSystem.init s ∧ s.HasConsole ⟨-1, 5, 0, 0⟩ ⟨-1, 6, 0, 1⟩ ∧
    s.call (.close 0) = .ok (0, s₁) ∧ s₁.call (.close 1) = .ok (0, s₂) ∧
    s₂.table ⟨0, by decide⟩ = none ∧ s₂.table ⟨1, by decide⟩ = none ∧
    (∀ n, s₂.call (.read 0 n) = .ok (-1, s₂)) ∧
    ∀ size n, s₂.call (.write size 1 n) = .ok (-1, s₂) :=
  ⟨.started, _, _, FileSystem.init_started, ⟨rfl, rfl⟩, rfl, rfl, rfl, rfl, fun _ => rfl,
    fun _ _ => rfl⟩

end Nachos.FileSys.Stub
