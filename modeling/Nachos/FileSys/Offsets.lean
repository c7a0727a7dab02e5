import Nachos.FileSys.CallEffect

namespace Nachos.FileSys.Stub

open Base Function

/-!
# FileSys — failed calls and the offset of a file

`OpenFile::Read` and `OpenFile::Write` add what the host returns to the offset before anybody looks
at it. A failed `read` returns `-1`, and so does a failed `write` of `-1` bytes, which passes the
assertion in `WriteFile`; then the offset is moved back by one, and from offset 0 the next `Lseek`
fails its assertion. Above, the offset is an `int` and the sum may wrap around.

The result is that these two are all: the calls of a run keep the offsets exactly if no host call
fails and no transfer passes the largest `int` (`failed_calls_keep_offsets_iff`).
-/

/-- The arithmetic of one transfer: a result that is reported as an error leaves the offset, and the
offset does not become negative. -/
theorem transfer_offset_iff {offset n : Int} (h0 : 0 ≤ offset) (hmax : offset ≤ maxInt)
    (hn : minInt ≤ n ∧ n ≤ maxInt) :
    ((n ≤ 0 → wrap32 (offset + n) = offset) ∧ 0 ≤ wrap32 (offset + n)) ↔
      0 ≤ n ∧ offset + n ≤ maxInt := by
  have hmin : minInt = -2147483648 := rfl
  have hint : maxInt = 2147483647 := rfl
  by_cases hover : offset + n ≤ maxInt
  · rw [wrap32_eq_self (by omega) hover]
    omega
  · rw [wrap32_of_gt (by omega) (by omega)]
    omega

/-- The values that the host returns are `int`s. -/
def FsAction.Ints : FsAction → Prop
  | .call (.read _ n) => minInt ≤ n ∧ n ≤ maxInt
  | .call (.write size _ _) => minInt ≤ size ∧ size ≤ maxInt
  | .call (.seek _ _ _ len₂) => len₂ ≤ maxInt
  | _ => True

namespace FileSystem

variable {s s' : FileSystem} {i : Fin maxFile} {f : OpenFile} {a : FsAction}

/-- The offsets are not negative. -/
def Offsets (s : FileSystem) : Prop :=
  ∀ i f, s.table i = some f → 0 ≤ f.currentOffset ∧ f.currentOffset ≤ maxInt

/-- The offset of the file in an entry. -/
def offsetAt (s : FileSystem) (i : Fin maxFile) : Option Int :=
  (s.table i).map OpenFile.currentOffset

/-- What a step owes to the offsets: a `Read`, `Write` or `Seek` that returns `-1` leaves the one of
its file, none becomes negative, and so the next `Lseek` succeeds. -/
structure KeepsOffsets (s : FileSystem) (a : FsAction) (s' : FileSystem) : Prop where
  failed : ∀ c, a = .call c → c.moves = true → s.call c = .ok (-1, s') →
    ∀ i : Fin maxFile, 2 ≤ (i : ℕ) → c.descriptor = some (i : Int) → s'.offsetAt i = s.offsetAt i
  nonneg : ∀ i f, s'.table i = some f → 0 ≤ f.currentOffset
  seekable : ∀ (i : Fin maxFile) f n, s'.table i = some f →
    s'.transfer (i : Int) f n ≠ .error .hostFailed

/-- The host transfers a number of bytes that is not negative, and the offset stays an `int`. -/
def InRange (s : FileSystem) : FsAction → Prop
  | .call (.read id n) => ∀ (i : Fin maxFile) f, (i : Int) = id → 2 ≤ (i : ℕ) →
      s.table i = some f → 0 ≤ n ∧ f.currentOffset + n ≤ maxInt
  | .call (.write size id _) => ∀ (i : Fin maxFile) f, (i : Int) = id → 2 ≤ (i : ℕ) →
      s.table i = some f → f.fileType ≠ 1 → 0 ≤ size ∧ f.currentOffset + size ≤ maxInt
  | _ => True

theorem transfer_ne_error (h : 0 ≤ f.currentOffset) (n : Int) :
    s.transfer (i : Int) f n ≠ .error .hostFailed := by
  rw [transfer, if_neg (by omega), setEntry_fin]
  intro h
  cases h

/-- What is left to show of a step that is not about an offset. -/
theorem keepsOffsets_of_nonneg (hc : ∀ c, a = .call c → c.moves = true → s.call c = .ok (-1, s') →
    s' = s) (h : ∀ i f, s'.table i = some f → 0 ≤ f.currentOffset) : s.KeepsOffsets a s' where
  failed c ha hm hr i _ _ := by rw [hc c ha hm hr]
  nonneg := h
  seekable i f n hi := transfer_ne_error (h i f hi) n

/-- A step that moves no offset. -/
theorem Offsets.reassigns (h : s.Offsets) (hs : s.Reassigns s') : s'.Offsets := by
  intro i f hi
  rcases hs.entry hi with hold | ⟨-, hzero⟩
  · exact h i f hold
  · rw [hzero]
    exact ⟨le_rfl, by decide⟩

theorem Offsets.moved (h : s.Offsets) {offset : Int} (h0 : 0 ≤ offset) (hmax : offset ≤ maxInt) :
    (s.moved i f offset).Offsets := by
  intro j g hj
  obtain ⟨-, hg⟩ | ⟨-, hg⟩ := update_eq_cases hj
  · cases hg
    exact ⟨h0, hmax⟩
  · exact h j g hg

theorem offsetAt_moved (offset : Int) : (s.moved i f offset).offsetAt i = some offset := by
  rw [offsetAt, table_moved, update_self]
  rfl

/-- A call that moves the offset of one file by what the host returns. -/
theorem Offsets.keeps_transfer_iff (h : s.Offsets) (hi : s.table i = some f) {c : FsCall} {n : Int}
    (hn : minInt ≤ n ∧ n ≤ maxInt) (hm : c.moves = true) (hd : c.descriptor = some (i : Int))
    (h2 : 2 ≤ (i : ℕ))
    (hc : s.call c = .ok (if n ≤ 0 then -1 else n, s.moved i f (wrap32 (f.currentOffset + n)))) :
    s.KeepsOffsets (.call c) (s.moved i f (wrap32 (f.currentOffset + n))) ↔
      0 ≤ n ∧ f.currentOffset + n ≤ maxInt := by
  obtain ⟨h0, hmax⟩ := h i f hi
  have hold : s.offsetAt i = some f.currentOffset := by
    rw [offsetAt, hi]
    rfl
  rw [← transfer_offset_iff h0 hmax hn]
  constructor
  · intro hk
    refine ⟨fun hneg => ?_, hk.nonneg i _ (update_self _ _ _)⟩
    have hsame := hk.failed c rfl hm (by rw [hc, if_pos hneg]) i h2 hd
    rwa [offsetAt_moved, hold, Option.some.injEq] at hsame
  · rintro ⟨hfailed, hnonneg⟩
    have hoff : (s.moved i f (wrap32 (f.currentOffset + n))).Offsets :=
      h.moved hnonneg (wrap32_mem _).2
    refine ⟨?_, fun j g hj => (hoff j g hj).1, fun j g k hj => transfer_ne_error (hoff j g hj).1 k⟩
    rintro c' hcc - hr j - hd'
    cases hcc
    obtain rfl : j = i := by
      rw [hd, Option.some.injEq, Int.natCast_inj] at hd'
      exact Fin.ext hd'.symm
    have hneg : n ≤ 0 := by
      by_contra hpos
      rw [hc, if_neg hpos, Except.ok.injEq, Prod.mk.injEq] at hr
      omega
    rw [offsetAt_moved, hold, hfailed hneg]

/-- The one step that may go wrong: a transfer of `n` bytes, in a call about the file in entry
`i`. -/
structure Transfers (s : FileSystem) (a : FsAction) (s' : FileSystem) (c : FsCall) (i : Fin maxFile)
    (f : OpenFile) (n : Int) : Prop where
  isCall : a = .call c
  moves : c.moves = true
  descriptor : c.descriptor = some (i : Int)
  behind : 2 ≤ (i : ℕ)
  entry : s.table i = some f
  int : minInt ≤ n ∧ n ≤ maxInt
  call : s.call c = .ok (if n ≤ 0 then -1 else n, s.moved i f (wrap32 (f.currentOffset + n)))
  state : s' = s.moved i f (wrap32 (f.currentOffset + n))
  inRange : s.InRange a ↔ 0 ≤ n ∧ f.currentOffset + n ≤ maxInt

/-- A step that leaves all offsets or sets one to where it should be. -/
structure Harmless (s : FileSystem) (a : FsAction) (s' : FileSystem) : Prop where
  offsets : s'.Offsets
  keeps : s.KeepsOffsets a s'
  inRange : s.InRange a

theorem harmless_self (h : s.Offsets) (hr : s.InRange a) : s.Harmless a s :=
  ⟨h, keepsOffsets_of_nonneg (fun _ _ _ _ => rfl) fun i f hi => (h i f hi).1, hr⟩

/-- A call that leaves the table. -/
theorem Offsets.harmless_call (h : s.Offsets) {c : FsCall} {r : Int} {id : Int}
    (hx : s.Leaves id (s.call c))
    (hc : s.call c = .ok (r, s')) (hr : s.InRange (.call c)) : s.Harmless (.call c) s' := by
  obtain ⟨r', hr', -⟩ := hx
  cases hr'.symm.trans hc
  exact harmless_self h hr

/-- A call that is a transfer on the file in entry `i`. -/
theorem Offsets.transfers (h : s.Offsets) {c : FsCall} {n r : Int} (hn : minInt ≤ n ∧ n ≤ maxInt)
    (hm : c.moves = true) (hd : c.descriptor = some (i : Int)) (h2 : 2 ≤ (i : ℕ))
    (hi : s.table i = some f)
    (hcall : s.call c = s.transfer (i : Int) f n >>= fun s₁ => .ok (if n ≤ 0 then -1 else n, s₁))
    (hc : s.call c = .ok (r, s')) (hr : s.InRange (.call c) ↔ 0 ≤ n ∧
      f.currentOffset + n ≤ maxInt) :
    s.Transfers (.call c) s' c i f n := by
  rw [transfer_eq (h i f hi).1, ok_bind] at hcall
  have heq := hcall.symm.trans hc
  rw [Except.ok.injEq, Prod.mk.injEq] at heq
  exact ⟨rfl, hm, hd, h2, hi, hn, hcall, heq.2.symm, hr⟩

theorem eq_of_entry {j : Fin maxFile} {g : OpenFile} (hi : s.table i = some f)
    (hj : (j : Int) = (i : Int)) (hg : s.table j = some g) : g = f := by
  rw [Fin.ext (Int.natCast_inj.mp hj), hi, Option.some.injEq] at hg
  exact hg.symm

theorem Offsets.step_read (h : s.Offsets) {id n r : Int} (hn : minInt ≤ n ∧ n ≤ maxInt)
    (hc : s.call (.read id n) = .ok (r, s')) :
    s.Harmless (.call (.read id n)) s' ∨
      ∃ c i f n', s.Transfers (.call (.read id n)) s' c i f n' := by
  by_cases hfile : ∃ (i : Fin maxFile) (f : OpenFile), (i : Int) = id ∧ 2 ≤ (i : ℕ) ∧
      s.table i = some f
  · obtain ⟨i, f, rfl, h2, hi⟩ := hfile
    refine .inr ⟨_, i, f, n, h.transfers hn rfl rfl h2 hi (sysRead_eq h2 hi n) hc ?_⟩
    refine ⟨fun hr => hr i f rfl h2 hi, fun hr j g hj _ hg => ?_⟩
    rwa [eq_of_entry hi hj hg]
  · have hread := ((s.file_or_untouched id).resolve_left hfile).read n
    exact .inl (h.harmless_call hread hc fun i f hid h2 hi => absurd ⟨i, f, hid, h2, hi⟩ hfile)

theorem Offsets.step_write (h : s.Offsets) {size id n r : Int} (hn : minInt ≤ size ∧ size ≤ maxInt)
    (hc : s.call (.write size id n) = .ok (r, s')) :
    s.Harmless (.call (.write size id n)) s' ∨
      ∃ c i f n', s.Transfers (.call (.write size id n)) s' c i f n' := by
  by_cases hfile : ∃ (i : Fin maxFile) (f : OpenFile), (i : Int) = id ∧ 2 ≤ (i : ℕ) ∧
      s.table i = some f
  · obtain ⟨i, f, rfl, h2, hi⟩ := hfile
    have hcall : s.call (.write size (i : Int) n) = _ := sysWrite_eq h2 hi size n
    by_cases htype : f.fileType = 1
    · -- A file that may not be written to.
      rw [hcall, if_pos htype] at hc
      cases hc
      exact .inl (harmless_self h fun j g hj _ hg hne => absurd (eq_of_entry hi hj hg ▸ htype) hne)
    · rw [if_neg htype, write_eq h2 hi] at hcall
      by_cases hall : n = size
      · subst hall
        rw [if_pos rfl] at hcall
        refine .inr ⟨_, i, f, n, h.transfers hn rfl rfl h2 hi hcall hc ?_⟩
        refine ⟨fun hr => hr i f rfl h2 hi htype, fun hr j g hj _ hg _ => ?_⟩
        rwa [eq_of_entry hi hj hg]
      · rw [hcall, if_neg hall] at hc
        cases hc
  · have hwrite := ((s.file_or_untouched id).resolve_left hfile).write size n
    exact .inl (h.harmless_call hwrite hc fun i f hid h2 hi => absurd ⟨i, f, hid, h2, hi⟩ hfile)

/-- `Seek` goes to where it is asked to, or nowhere. -/
theorem Offsets.step_seek (h : s.Offsets) {pos id len₁ len₂ r : Int} (hlen : len₂ ≤ maxInt)
    (hc : s.call (.seek pos id len₁ len₂) = .ok (r, s')) :
    s.Harmless (.call (.seek pos id len₁ len₂)) s' := by
  rcases s.file_or_untouched id with ⟨i, f, rfl, h2, hi⟩ | huntouched
  · have hcall := sysSeek_eq h2 hi pos len₁ len₂
    rw [FileSystem.call, hcall] at hc
    split at hc
    · cases hc
    · rename_i hlens
      obtain ⟨target, htarget⟩ : ∃ target, target = if pos = -1 then len₁ else pos := ⟨_, rfl⟩
      rw [if_neg hlens] at hcall
      simp only [← htarget] at hcall hc
      by_cases hout : target < -1 ∨ target > len₂
      · rw [if_pos hout] at hc
        cases hc
        exact harmless_self h trivial
      · rw [if_neg hout] at hcall
        rw [if_neg hout, Except.ok.injEq, Prod.mk.injEq] at hc
        obtain ⟨rfl, rfl⟩ := hc
        have h0 : 0 ≤ target := by
          split at htarget <;> omega
        have hoff : (s.moved i f target).Offsets := h.moved h0 (by omega)
        refine ⟨hoff, keepsOffsets_of_nonneg (fun c hcc _ hr => ?_) fun j g hj => (hoff j g hj).1,
          trivial⟩
        cases hcc
        rw [FileSystem.call, hcall, Except.ok.injEq, Prod.mk.injEq] at hr
        omega
  · exact h.harmless_call (huntouched.seek pos len₁ len₂) hc trivial

theorem Offsets.harmless_reassigns (h : s.Offsets) (hs : s.Reassigns s') (hr : s.InRange a)
    (hm : ∀ c, a = .call c → c.moves = false) : s.Harmless a s' := by
  have hoff := h.reassigns hs
  refine ⟨hoff, keepsOffsets_of_nonneg (fun c hc hmoves => ?_) fun i f hi => (hoff i f hi).1, hr⟩
  rw [hm c hc] at hmoves
  cases hmoves

theorem Offsets.step (h : s.Offsets) (ha : a.Ints) (hs : s.next a = .next s') :
    s.Harmless a s' ∨ ∃ c i f n, s.Transfers a s' c i f n := by
  rcases next_cases hs with ⟨c, r, rfl, hc⟩ | ⟨fd, rfl, -, rfl⟩ | ⟨fd, rfl, -, rfl⟩
  · cases c with
    | read id n => exact h.step_read ha hc
    | write size id n => exact h.step_write ha hc
    | seek pos id len₁ len₂ => exact .inl (h.step_seek ha hc)
    | _ =>
      refine .inl (h.harmless_reassigns (s.reassigns_call rfl _ hc) trivial ?_)
      rintro c' ⟨⟩
      rfl
  all_goals
    refine .inl (h.harmless_reassigns (.shrinks fun _ => .inl rfl) trivial ?_)
    rintro c ⟨⟩

theorem Offsets.keepsOffsets_iff (h : s.Offsets) (ha : a.Ints) (hs : s.next a = .next s') :
    s.KeepsOffsets a s' ↔ s.InRange a := by
  rcases h.step ha hs with hh | ⟨c, i, f, n, ht⟩
  · exact iff_of_true hh.keeps hh.inRange
  · rw [ht.inRange, ht.isCall, ht.state]
    exact h.keeps_transfer_iff ht.entry ht.int ht.moves ht.descriptor ht.behind ht.call

theorem Offsets.next (h : s.Offsets) (ha : a.Ints) (hs : s.next a = .next s')
    (hk : s.KeepsOffsets a s') : s'.Offsets := by
  rcases h.step ha hs with hh | ⟨c, i, f, n, ht⟩
  · exact hh.offsets
  · have hnonneg := hk.nonneg
    rw [ht.state] at hnonneg ⊢
    exact h.moved (hnonneg i _ (update_self _ _ _)) (wrap32_mem _).2

/-- What `Open` has returned goes into the table. -/
theorem Offsets.opened (h : s.Offsets) (i : Fin maxFile) {mode : Int}
    {r : Option OpenFile × FileSystem} (hr : s.HostOpened mode r) :
    ({ r.2 with table := update r.2.table i r.1 } : FileSystem).Offsets := by
  intro j g hj
  obtain ⟨-, hg⟩ | ⟨-, hg⟩ := update_eq_cases hj
  · rcases hr with rfl | ⟨fd, -, rfl⟩
    · cases hg
    · cases hg
      exact ⟨le_rfl, show (0 : Int) ≤ maxInt by decide⟩
  · rcases hr with rfl | ⟨fd, -, rfl⟩ <;> exact h j g hg

/-- The constructor opens the console at its beginning. -/
theorem offsets_new (hostOpen : Finset ℕ) (a b c d : Option ℕ) :
    Post Offsets (FileSystem.new hostOpen a b c d) := by
  apply post_new
  · exact nofun
  · exact fun h answer r hr => h.reassigns (.shrinks (clears_create _ answer r hr).shrinks)
  · exact fun h i _ _ _ hr => h.opened i hr

end FileSystem

/-- **Failed calls.** In every run from the start, a `Read`, `Write` or `Seek` behind the console
that returns `-1` leaves the offset of its file, and no offset becomes negative, exactly if the host
fails in no transfer and no offset passes the largest `int`. -/
theorem failed_calls_keep_offsets_iff (s₀ : FileSystem) (h₀ : stubSystem.init s₀)
    (ls : List FsAction) (hint : ∀ a ∈ ls, a.Ints) :
    stubSystem.AlwaysStep FileSystem.KeepsOffsets s₀ ls ↔
      stubSystem.AlwaysStep (fun s a _ => s.InRange a) s₀ ls := by
  obtain ⟨hostOpen, a, b, c, d, hnew⟩ := h₀
  refine LTS.alwaysStep_iff (I := FileSystem.Offsets) ?_ ?_
    (FileSystem.offsets_new hostOpen a b c d s₀ hnew) hint
  · exact fun s a s' h ha hs => h.keepsOffsets_iff ha hs
  · exact fun s a s' h ha hs hk => h.next ha hs hk

/-- A file is opened and read to its end. -/
theorem failed_calls_keep_offsets_read :
    stubSystem.AlwaysStep FileSystem.KeepsOffsets .started
      [.call (.openFile "f" false (fun _ => false) (some 7)), .call (.read 2 5),
      .call (.read 2 0)] := by
  refine (failed_calls_keep_offsets_iff .started FileSystem.init_started _ ?_).mpr ?_
  · simp [FsAction.Ints, minInt, maxInt]
  · intro s₁ h₁
    cases h₁
    refine ⟨trivial, fun s₂ h₂ => ?_⟩
    cases h₂
    refine ⟨fun i f hi _ hf => ?_, fun s₃ _ => ⟨fun i f hi _ hf => ?_, trivial⟩⟩
    · obtain rfl : i = ⟨2, by decide⟩ := Fin.ext (show (i : ℕ) = 2 by omega)
      obtain rfl : ⟨-1, 7, 0, 0⟩ = f := Option.some.inj hf
      decide
    · obtain rfl : i = ⟨2, by decide⟩ := Fin.ext (show (i : ℕ) = 2 by omega)
      obtain rfl : ⟨-1, 7, 5, 0⟩ = f := Option.some.inj hf
      decide

/-- A file is opened, and a `Read` for which the host returns `-1` moves its offset to `-1`. The
next `Read` fails the assertion in `Lseek`. -/
theorem failed_read_moves_offset : ∃ s s₁, stubSystem.Reachable s ∧
    s.call (.read 2 (-1)) = .ok (-1, s₁) ∧
    s.offsetAt ⟨2, by decide⟩ = some 0 ∧ s₁.offsetAt ⟨2, by decide⟩ = some (-1) ∧
    s₁.call (.read 2 1) = .error .hostFailed :=
  ⟨_, _, FileSystem.reachable_started.step
    (l := .call (.openFile "f" false (fun _ => false) (some 7))) rfl, rfl, rfl, rfl, rfl⟩

end Nachos.FileSys.Stub
