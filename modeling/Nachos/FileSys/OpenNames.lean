import Nachos.Base.CString
import Nachos.FileSys.CallEffect

namespace Nachos.FileSys.Stub

open Base Function

/-!
# FileSys — open files and their names

A file that is open is found by its name: `Open` returns the entry it has, and `Remove` refuses it.
The `OpenFile` keeps a copy of the name, and the constructor copies `strlen(fileName)` bytes into an
array of as many: the NUL is not copied, and `strcmp` goes on in the memory behind the copy.

* `NamedFiles` — the descriptor table with the copies; the memory behind them is an argument of each
  lookup;
* `Finds` — every lookup finds the open files and no other;
* `open_files_found_iff` — over a run they do exactly if there happens to be a NUL behind every
  copy.
-/

/-! ### The model -/

/-- The descriptor table, and the bytes of `fileName` in each entry. -/
structure NamedFiles where
  fileSystem : FileSystem
  fileName : ℕ → CStr

/-- The name as the system calls get it. -/
def asString (name : CStr) : String := String.ofList (name.1.map fun b => Char.ofNat b.toNat)

/-- The memory behind the copy of the name in each entry. -/
abbrev Heap := ℕ → Buffer

/-- The result of a call as an outcome; a host that is not POSIX is left out. -/
def outcome {S : Type*} : Except Fault (Int × S) → Outcome S
  | .ok (_, s) => .next s
  | .error .notPosix => .disabled
  | .error _ => .fault

theorem outcome_eq_next {S : Type*} {r : Except Fault (Int × S)} {s : S} (h : outcome r = .next s) :
    ∃ id, r = .ok (id, s) := by
  unfold outcome at h
  split at h
  · cases h
    exact ⟨_, rfl⟩
  · cases h
  · cases h

namespace NamedFiles

/-- Whether `strcmp` finds the name in entry `i` equal. -/
def same (s : NamedFiles) (heap : Heap) (name : CStr) (i : ℕ) : Bool :=
  strcmpAt name ((s.fileName i).followedBy (heap i)) = 0

/-- `FileSystem::GetFileDescriptorID`. -/
def getFileDescriptorID (s : NamedFiles) (heap : Heap) (name : CStr) : Except Fault Int :=
  s.fileSystem.getFileDescriptorID (s.same heap name)

/-- The names if `Open` has returned `id`: an entry that was empty gets a copy of the name. -/
def named (s : NamedFiles) (id : Int) (name : CStr) (fileSystem : FileSystem) : NamedFiles where
  fileSystem := fileSystem
  fileName := match s.fileSystem.entry id with
    | .ok none => update s.fileName id.toNat name
    | _ => s.fileName

/-- `SysOpen`. -/
def sysOpen (s : NamedFiles) (heap : Heap) (name : CStr) (readOnly : Bool) (answer : Option ℕ) :
    Except Fault (Int × NamedFiles) := do
  let (id, fileSystem) ←
    s.fileSystem.call (.openFile (asString name) readOnly (s.same heap name) answer)
  return (id, s.named id name fileSystem)

/-- `SysClose`. -/
def sysClose (s : NamedFiles) (id : Int) : Except Fault (Int × NamedFiles) := do
  let (result, fileSystem) ← s.fileSystem.call (.close id)
  return (result, { s with fileSystem := fileSystem })

/-- `SysRemove`. -/
def sysRemove (s : NamedFiles) (heap : Heap) (name : CStr) (unlinked : Bool) :
    Except Fault (Int × NamedFiles) := do
  let (result, fileSystem) ← s.fileSystem.call (.remove (asString name) (s.same heap name) unlinked)
  return (result, { s with fileSystem := fileSystem })

end NamedFiles

/-- What happens next; `look` is a lookup of some name. -/
inductive NameAction where
  | openFile (heap : Heap) (name : CStr) (readOnly : Bool) (answer : Option ℕ)
  | close (id : Int)
  | look (heap : Heap)

/-- The memory behind the names when the action looks for one. -/
def NameAction.heap : NameAction → Option Heap
  | .openFile heap _ _ _ => some heap
  | .close _ => none
  | .look heap => some heap

def NamedFiles.next (s : NamedFiles) : NameAction → Outcome NamedFiles
  | .openFile heap name readOnly answer => outcome (s.sysOpen heap name readOnly answer)
  | .close id => outcome (s.sysClose id)
  | .look _ => .next s

/-- `"ConsoleInput"`. -/
def consoleInput : CStr := ⟨[67, 111, 110, 115, 111, 108, 101, 73, 110, 112, 117, 116], by decide⟩

/-- `"ConsoleOutput"`. -/
def consoleOutput : CStr :=
  ⟨[67, 111, 110, 115, 111, 108, 101, 79, 117, 116, 112, 117, 116], by decide⟩

/-- The file system from its constructor on. -/
def namesSystem : LTS NamedFiles NameAction where
  init s := stubSystem.init s.fileSystem ∧ s.fileName 0 = consoleInput ∧
    s.fileName 1 = consoleOutput
  next := NamedFiles.next

/-! ### Lookups -/

theorem isEmpty_asString (name : CStr) : (asString name).isEmpty = true ↔ name.1 = [] := by
  rw [asString, String.isEmpty_iff, ← String.toList_inj, String.toList_ofList, String.toList_empty,
    List.map_eq_nil_iff]

namespace NamedFiles

variable {s s' : NamedFiles} {heap : Heap} {i j : Fin maxFile} {f g : OpenFile} {name : CStr}

theorem named_of_some (hi : s.fileSystem.table i = some f) (fileSystem : FileSystem) :
    s.named (i : Int) name fileSystem = { s with fileSystem := fileSystem } := by
  rw [named, FileSystem.entry_fin, hi]

theorem named_of_none (hi : s.fileSystem.table i = none) (fileSystem : FileSystem) :
    s.named (i : Int) name fileSystem = ⟨fileSystem, update s.fileName i name⟩ := by
  rw [named, FileSystem.entry_fin, hi]
  rfl

/-- Each open file is found under its name: `GetFileDescriptorID` returns its id, `Open` returns it
and does nothing else, `Remove` refuses it; and a name that is not open is not found. -/
structure Finds (s : NamedFiles) (heap : Heap) : Prop where
  found : ∀ (i : Fin maxFile) f, s.fileSystem.table i = some f →
    s.getFileDescriptorID heap (s.fileName i) = .ok (i : Int)
  reopened : ∀ (i : Fin maxFile) f, s.fileSystem.table i = some f → ∀ readOnly answer,
    s.sysOpen heap (s.fileName i) readOnly answer = .ok ((i : Int), s)
  kept : ∀ (i : Fin maxFile) f, s.fileSystem.table i = some f → ∀ unlinked,
    s.sysRemove heap (s.fileName i) unlinked = .ok (-1, s)
  absent : ∀ name, (∀ (i : Fin maxFile) f, s.fileSystem.table i = some f → s.fileName i ≠ name) →
    s.getFileDescriptorID heap name = .ok (-1)

/-- There is a NUL behind the name of every open file. -/
def Terminated (s : NamedFiles) (heap : Heap) : Prop :=
  ∀ (i : Fin maxFile) f, s.fileSystem.table i = some f → heap i 0 = 0

/-- The names of the open files are not empty and differ. -/
structure Inv (s : NamedFiles) : Prop where
  named : ∀ (i : Fin maxFile) f, s.fileSystem.table i = some f → (s.fileName i).1 ≠ []
  distinct : ∀ (i j : Fin maxFile) f g, s.fileSystem.table i = some f →
    s.fileSystem.table j = some g → s.fileName i = s.fileName j → i = j

/-- With a NUL behind the names, `strcmp` compares them. -/
theorem Terminated.same_iff (h : s.Terminated heap) (hi : s.fileSystem.table i = some f) :
    s.same heap name i = true ↔ s.fileName i = name := by
  rw [same, decide_eq_true_iff,
    strcmpAt_string (b := s.fileName i) fun k hk => (s.fileName i).followedBy_eq (h i f hi) hk]
  exact eq_comm

theorem Finds.terminated (h : s.Finds heap) : s.Terminated heap := by
  intro i f hi
  have hfound := h.found i f hi
  rw [getFileDescriptorID] at hfound
  rcases s.fileSystem.getFileDescriptorID_spec (s.same heap (s.fileName i)) with
    ⟨j, g, -, hsame, heq⟩ | ⟨-, heq⟩
  · rw [heq, Except.ok.injEq, Int.natCast_inj] at hfound
    obtain rfl := Fin.ext hfound
    rw [same, decide_eq_true_iff] at hsame
    exact (strcmpAt_followedBy_self _ _).mp hsame
  · rw [heq, Except.ok.injEq] at hfound
    omega

/-- The lookup of a name that is open. -/
theorem Inv.getFileDescriptorID_eq (h : s.Inv) (ht : s.Terminated heap)
    (hi : s.fileSystem.table i = some f) :
    s.getFileDescriptorID heap (s.fileName i) = .ok (i : Int) := by
  rcases s.fileSystem.getFileDescriptorID_spec (s.same heap (s.fileName i)) with
    ⟨j, g, hj, hsame, heq⟩ | ⟨hno, -⟩
  · obtain rfl := h.distinct j i g f hj hi ((ht.same_iff hj).mp hsame)
    exact heq
  · have hsame := hno i f hi
    rw [(ht.same_iff hi).mpr rfl] at hsame
    cases hsame

/-- `Remove` refuses a name that is open. -/
theorem Terminated.sysRemove_eq (ht : s.Terminated heap) (hname : name.1 ≠ [])
    (hi : s.fileSystem.table i = some f) (hopen : s.fileName i = name) (unlinked : Bool) :
    s.sysRemove heap name unlinked = .ok (-1, s) := by
  rw [sysRemove, FileSystem.call, FileSystem.sysRemove,
    if_neg ((isEmpty_asString name).not.mpr hname)]
  rcases s.fileSystem.getFileDescriptorID_spec (s.same heap name) with ⟨j, g, -, -, heq⟩ | ⟨hno, -⟩
  · rw [heq, ok_bind, if_pos (by omega)]
    rfl
  · have hsame := hno i f hi
    rw [(ht.same_iff hi).mpr hopen] at hsame
    cases hsame

theorem Inv.finds (h : s.Inv) (ht : s.Terminated heap) : s.Finds heap where
  found i f hi := h.getFileDescriptorID_eq ht hi
  reopened i f hi readOnly answer := by
    have hid := h.getFileDescriptorID_eq ht hi
    have hne := (isEmpty_asString (s.fileName i)).not.mpr (h.named i f hi)
    rw [getFileDescriptorID] at hid
    rw [sysOpen, FileSystem.call, FileSystem.sysOpen, if_neg hne, hid, ok_bind, if_pos (by omega),
      pure_eq_ok, ok_bind]
    simp only [named_of_some hi]
    rfl
  kept i f hi unlinked := ht.sysRemove_eq (h.named i f hi) hi rfl unlinked
  absent name hno := by
    rcases s.fileSystem.getFileDescriptorID_spec (s.same heap name) with ⟨j, g, hj, hsame, -⟩ |
      ⟨-, heq⟩
    · exact absurd ((ht.same_iff hj).mp hsame) (hno j g hj)
    · exact heq

/-! ### One step -/

/-- A step of the system is sound: if it looks for a name, every name is found or not as it should
be; the file that `Open` returns is open under the name, and a file that stays open keeps its
name. -/
structure Sound (s : NamedFiles) (a : NameAction) (s' : NamedFiles) : Prop where
  finds : ∀ heap, a.heap = some heap → s.Finds heap
  opened : ∀ heap name readOnly answer id, a = .openFile heap name readOnly answer →
    s.sysOpen heap name readOnly answer = .ok (id, s') → id ≠ -1 →
      ∃ (i : Fin maxFile) (f : OpenFile), (i : Int) = id ∧ s'.fileSystem.table i = some f ∧
        s'.fileName i = name
  keeps : ∀ (i : Fin maxFile) f g, s.fileSystem.table i = some f → s'.fileSystem.table i = some g →
    s'.fileName i = s.fileName i

/-- What `Open` does to the table and the names: nothing, or it fills one entry. -/
inductive OpenedName (s : NamedFiles) (heap : Heap) (name : CStr) : Int × NamedFiles → Prop where
  | refused {fileSystem : FileSystem} : fileSystem.table = s.fileSystem.table →
      OpenedName s heap name (-1, { s with fileSystem := fileSystem })
  | found {i : Fin maxFile} {f : OpenFile} : s.fileSystem.table i = some f →
    s.same heap name i = true →
      OpenedName s heap name ((i : Int), s)
  | added {i : Fin maxFile} {f : OpenFile} {hostOpen : Finset ℕ} :
      (∀ j g, s.fileSystem.table j = some g → s.same heap name j = false) →
      s.fileSystem.table i = none → name.1 ≠ [] →
      OpenedName s heap name ((i : Int),
        ⟨⟨update s.fileSystem.table i (some f), hostOpen⟩, update s.fileName i name⟩)

theorem openedName_sysOpen (s : NamedFiles) (heap : Heap) (name : CStr) (readOnly : Bool)
    (answer : Option ℕ) : Post (s.OpenedName heap name) (s.sysOpen heap name readOnly answer) := by
  by_cases hnil : name.1 = []
  · rw [sysOpen, FileSystem.call, FileSystem.sysOpen, if_pos ((isEmpty_asString name).mpr hnil),
      ok_bind]
    exact post_ok.mpr (.refused rfl)
  refine (s.fileSystem.opened_sysOpen (asString name) (by cases readOnly <;> simp) _ answer).bind
    fun r hr => ?_
  cases hr with
  | refused htable => exact post_ok.mpr (.refused htable)
  | found hi hsame =>
    simp only [named_of_some hi, pure_eq_ok, post_ok]
    exact .found hi hsame
  | added hno _ hi =>
    simp only [named_of_none hi, pure_eq_ok, post_ok]
    exact .added hno hi hnil

/-- The file that `Open` returns is open under the name. -/
theorem OpenedName.named {id : Int} (h : s.OpenedName heap name (id, s')) (ht : s.Terminated heap)
    (hid : id ≠ -1) : ∃ (i : Fin maxFile) (f : OpenFile), (i : Int) = id ∧
      s'.fileSystem.table i = some f ∧ s'.fileName i = name := by
  generalize hr : (id, s') = r at h
  cases h with
  | refused =>
    cases hr
    exact absurd rfl hid
  | found hi hsame =>
    cases hr
    exact ⟨_, _, rfl, hi, (ht.same_iff hi).mp hsame⟩
  | added =>
    cases hr
    exact ⟨_, _, rfl, update_self .., update_self ..⟩

theorem shrinks_sysClose (s : NamedFiles) (id : Int) :
    Post (fun r => s.fileSystem.Shrinks r.2.fileSystem ∧ r.2.fileName = s.fileName)
      (s.sysClose id) :=
  (s.fileSystem.clears_sysClose id).bind fun _ hr => post_ok.mpr ⟨hr.shrinks, rfl⟩

theorem Inv.shrinks (h : s.Inv) (hs : s.fileSystem.Shrinks s'.fileSystem)
    (hname : s'.fileName = s.fileName) : s'.Inv := by
  have hold : ∀ i f, s'.fileSystem.table i = some f → s.fileSystem.table i = some f := by
    intro i f hi
    rcases hs i with heq | hnone
    · rw [← heq, hi]
    · rw [hi] at hnone
      cases hnone
  constructor
  · intro i f hi
    rw [hname]
    exact h.named i f (hold i f hi)
  · intro i j f g hi hj heq
    rw [hname] at heq
    exact h.distinct i j f g (hold i f hi) (hold j g hj) heq

/-- A new name is none of the old ones, if the lookup has compared the names. -/
theorem Inv.added (h : s.Inv) (ht : s.Terminated heap)
    (hno : ∀ j g, s.fileSystem.table j = some g → s.same heap name j = false) (hnil : name.1 ≠ [])
    (htable : s'.fileSystem.table = update s.fileSystem.table i (some f))
    (hname : s'.fileName = update s.fileName i name) : s'.Inv := by
  have hnew : s'.fileName i = name := by
    rw [hname, update_self]
  have hold : ∀ k, k ≠ i → s'.fileName k = s.fileName k := by
    intro k hk
    rw [hname]
    exact update_of_ne (fun heq => hk (Fin.ext heq)) ..
  -- An entry that was open has another name than the new one.
  have hother : ∀ k g, s.fileSystem.table k = some g → s.fileName k ≠ name := by
    intro k g hk heq
    have hsame := hno k g hk
    rw [(ht.same_iff hk).mpr heq] at hsame
    cases hsame
  constructor
  · intro k g hk
    rw [htable] at hk
    rcases update_eq_cases hk with ⟨rfl, -⟩ | ⟨hne, hk⟩
    · rwa [hnew]
    · rw [hold k hne]
      exact h.named k g hk
  · intro k l g₁ g₂ hk hl heq
    rw [htable] at hk hl
    rcases update_eq_cases hk with ⟨rfl, -⟩ | ⟨hkne, hkold⟩ <;>
      rcases update_eq_cases hl with ⟨rfl, -⟩ | ⟨hlne, hlold⟩
    · rfl
    · rw [hnew, hold l hlne] at heq
      exact absurd heq.symm (hother l g₂ hlold)
    · rw [hnew, hold k hkne] at heq
      exact absurd heq (hother k g₁ hkold)
    · rw [hold k hkne, hold l hlne] at heq
      exact h.distinct k l g₁ g₂ hkold hlold heq

/-- A file that is open keeps its name, and the names stay different. -/
theorem Inv.openedName (h : s.Inv) (ht : s.Terminated heap) {r : Int × NamedFiles}
    (hr : s.OpenedName heap name r) :
    (∀ (i : Fin maxFile) f, s.fileSystem.table i = some f → r.2.fileName i = s.fileName i) ∧
    r.2.Inv := by
  cases hr with
  | refused htable => exact ⟨fun _ _ _ => rfl, h.shrinks (fun i => .inl (congrFun htable i)) rfl⟩
  | found => exact ⟨fun _ _ _ => rfl, h⟩
  | @added i f hostOpen hno hi hnil =>
    refine ⟨fun k g hk => ?_, h.added ht hno hnil rfl rfl⟩
    refine update_of_ne (fun heq => ?_) ..
    rw [Fin.ext heq, hi] at hk
    cases hk

theorem Inv.sound_openFile (h : s.Inv) (ht : s.Terminated heap) {readOnly : Bool}
    {answer : Option ℕ} {id : Int} (hopen : s.sysOpen heap name readOnly answer = .ok (id, s')) :
    s.Sound (.openFile heap name readOnly answer) s' ∧ s'.Inv := by
  have hopened : s.OpenedName heap name (id, s') :=
    s.openedName_sysOpen heap name readOnly answer _ hopen
  obtain ⟨hkeeps, hinv⟩ := h.openedName ht hopened
  refine ⟨⟨?_, ?_, fun i f _ hi _ => hkeeps i f hi⟩, hinv⟩
  · intro heap' hheap
    cases hheap
    exact h.finds ht
  · intro heap' name' readOnly' answer' id' ha hopen' hne
    cases ha
    rw [hopen, Except.ok.injEq, Prod.mk.injEq] at hopen'
    obtain ⟨rfl, -⟩ := hopen'
    exact hopened.named ht hne

/-- A step is sound exactly if there is a NUL behind the names, should it look for one; and then the
names stay different. -/
theorem Inv.step (h : s.Inv) {a : NameAction} (hs : s.next a = .next s') :
    (s.Sound a s' ↔ ∀ heap, a.heap = some heap → s.Terminated heap) ∧ (s.Sound a s' → s'.Inv) := by
  have hlooks : s.Sound a s' → ∀ heap, a.heap = some heap → s.Terminated heap :=
    fun hsound heap hheap =>
    (hsound.finds heap hheap).terminated
  -- The other direction, together with the invariant.
  have hstep : (∀ heap, a.heap = some heap → s.Terminated heap) → s.Sound a s' ∧ s'.Inv := by
    intro ht
    cases a with
    | openFile heap name readOnly answer =>
      obtain ⟨id, hopen⟩ := outcome_eq_next hs
      exact h.sound_openFile (ht heap rfl) hopen
    | close id =>
      obtain ⟨r, hclose⟩ := outcome_eq_next hs
      obtain ⟨hshrinks, hname⟩ := s.shrinks_sysClose id _ hclose
      exact ⟨⟨nofun, nofun, fun i _ _ _ _ => congrFun hname i⟩, h.shrinks hshrinks hname⟩
    | look heap =>
      cases hs
      refine ⟨⟨fun heap' hheap => ?_, nofun, fun _ _ _ _ _ => rfl⟩, h⟩
      exact h.finds (ht heap' hheap)
  exact ⟨⟨hlooks, fun ht => (hstep ht).1⟩, fun hsound => (hstep (hlooks hsound)).2⟩

end NamedFiles

/-! ### Runs -/

/-- The constructor opens nothing but the console. -/
theorem FileSystem.lt_two_of_init {s : FileSystem} (h : stubSystem.init s) {i : Fin maxFile}
    {f : OpenFile} (hi : s.table i = some f) : (i : ℕ) < 2 := by
  obtain ⟨hostOpen, input, output, inputFile, outputFile, hnew⟩ := h
  have hpost : Post (fun s : FileSystem => ∀ i : Fin maxFile, 2 ≤ (i : ℕ) → s.table i = none)
      (FileSystem.new hostOpen input output inputFile outputFile) := by
    apply post_new
    · exact fun _ _ => rfl
    · intro s h answer r hr i h2
      rcases (clears_create s answer r hr).shrinks i with heq | hnone
      · rw [heq]
        exact h i h2
      · exact hnone
    · intro s h i hi mode r hr j h2
      have htable : r.2.table = s.table := by
        rcases hr with rfl | ⟨fd, -, rfl⟩ <;> rfl
      have hne : j ≠ i := by
        rintro rfl
        omega
      show update r.2.table i r.1 j = none
      rw [update_of_ne hne, htable]
      exact h j h2
  by_contra hge
  have hnone := hpost s hnew i (by omega)
  rw [hi] at hnone
  cases hnone

theorem NamedFiles.inv_of_init {s : NamedFiles} (h : namesSystem.init s) : s.Inv := by
  obtain ⟨hinit, hin, hout⟩ := h
  have hname : ∀ i f, s.fileSystem.table i = some f → (i : ℕ) = 0 ∧ s.fileName i = consoleInput ∨
      (i : ℕ) = 1 ∧ s.fileName i = consoleOutput := by
    intro i f hi
    have hlt := FileSystem.lt_two_of_init hinit hi
    obtain hi | hi : (i : ℕ) = 0 ∨ (i : ℕ) = 1 := by omega
    · exact .inl ⟨hi, by rw [hi, hin]⟩
    · exact .inr ⟨hi, by rw [hi, hout]⟩
  have hne : consoleInput ≠ consoleOutput := by decide
  constructor
  · intro i f hi
    rcases hname i f hi with ⟨-, heq⟩ | ⟨-, heq⟩ <;>
      rw [heq] <;> decide
  · intro i j f g hi hj heq
    rcases hname i f hi with ⟨hi0, hi⟩ | ⟨hi1, hi⟩ <;>
      rcases hname j g hj with ⟨hj0, hj⟩ | ⟨hj1, hj⟩
    · exact Fin.ext (hi0.trans hj0.symm)
    · exact absurd (hi.symm.trans (heq.trans hj)) hne
    · exact absurd (hj.symm.trans (heq.symm.trans hi)) hne
    · exact Fin.ext (hi1.trans hj1.symm)

/-- **Open files are found by name while a NUL is behind the names.** In every run of `Open` and
`Close` each lookup finds the open files under their names, and nothing else, exactly if at each
lookup the byte behind every stored name is a NUL. -/
theorem open_files_found_iff (s : NamedFiles) (h : namesSystem.init s) (ls : List NameAction) :
    namesSystem.AlwaysStep NamedFiles.Sound s ls ↔
      namesSystem.AlwaysStep (fun s a _ => ∀ heap, a.heap = some heap → s.Terminated heap) s ls :=
  LTS.alwaysStep_iff (I := NamedFiles.Inv) (fun _ _ _ h _ hs => (h.step hs).1)
    (fun _ _ _ h _ hs => (h.step hs).2) (NamedFiles.inv_of_init h) fun a (_ : a ∈ ls) => True.intro

/-- The table after the start. -/
def NamedFiles.started : NamedFiles :=
  ⟨FileSystem.started, fun i => if i = 0 then consoleInput else consoleOutput⟩

/-- `"f"`. -/
def nameF : CStr := ⟨[102], by decide⟩

/-- A file is opened, looked for and closed in memory that is zero behind the names. -/
theorem open_files_found_zero :
    (namesSystem.exec .started [.openFile (fun _ _ => 0) nameF false (some 7),
      .look fun _ _ => 0, .close 2]).isSome = true ∧
    namesSystem.AlwaysStep NamedFiles.Sound .started
      [.openFile (fun _ _ => 0) nameF false (some 7), .look fun _ _ => 0, .close 2] := by
  refine ⟨rfl, (open_files_found_iff _ ⟨FileSystem.init_started, rfl, rfl⟩ _).mpr ?_⟩
  refine fun s₁ _ => ⟨?_, fun s₂ _ => ⟨?_, fun s₃ _ => ⟨nofun, trivial⟩⟩⟩
  · intro heap hheap
    cases hheap
    exact fun _ _ _ => rfl
  · intro heap hheap
    cases hheap
    exact fun _ _ _ => rfl

/-- An `A` is behind the name `"f"` of the file in entry 2. The file is not found: a second `Open`
takes another entry, and `Remove` removes it. And it is found under the name `"fA"`, which is not
open. -/
theorem open_file_not_found : ∃ s₁ s₂ heap,
    NamedFiles.started.sysOpen (fun _ _ => 0) nameF false (some 7) = .ok (2, s₁) ∧
    s₁.getFileDescriptorID heap nameF = .ok (-1) ∧
    s₁.sysOpen heap nameF false (some 8) = .ok (3, s₂) ∧
    s₁.sysRemove heap nameF true = .ok (1, s₁) ∧
    s₁.getFileDescriptorID heap ⟨[102, 65], by decide⟩ = .ok 2 :=
  ⟨_, _, fun i j => if i = 2 ∧ j = 0 then 65 else 0, rfl, rfl, rfl, rfl, rfl⟩

end Nachos.FileSys.Stub
