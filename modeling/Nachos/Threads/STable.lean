import Nachos.Base.CString
import Nachos.Lib.Bitmap
import Nachos.Threads.Semaphore
import Mathlib.Data.Set.Card

namespace Nachos.Threads

open Base Lib Function

/-!
# Threads — the table of the semaphores of user programs

`Sem` of `threads/sem.cc` and `STable` of `threads/STable.cc`, the kernel's side of the system calls
`CreateSemaphore`, `Wait` and `Signal`. A slot of the table is in use if its bit in `bm` is set;
each call looks through the slots for the name.

Nothing in `Create` lets another thread run, so it is one action, like `Signal`. `Wait` is cut at
the test in `P`, as in `Semaphore.lean`: a thread that sleeps there is on the queue of the semaphore
it has found, and returns from `Wait` when its `P` returns.

* `semTabSystem` — any number of threads making the three calls, with a log of their results;
* `SemMapState` — what the table is for: a finite map from names to semaphores;
* `SemTabState.abs` — the map a table stands for, under which the two move in step.
-/

/-! ### The table -/

/-- `MAX_SEMAPHORE`. -/
def maxSemaphore : ℕ := 10

/-- The size of `Sem::name`. -/
def semNameSize : ℕ := 50

/-- `Sem`: a name that fits its field, and a semaphore. -/
structure Sem (T : Type*) where
  name : CStr
  fits : name.1.length < semNameSize
  sem : Semaphore T

/-- `STable`. -/
structure STable (T : Type*) where
  bm : Bitmap maxSemaphore
  table : Fin maxSemaphore → Option (Sem T)

/-- `Sem::Sem`. A longer name makes `strcpy` write past the end of the field. -/
def Sem.new {T : Type*} (na : CStr) (i : Int) : Option (Sem T) :=
  if h : na.1.length < semNameSize then some ⟨na, h, .new i⟩ else none

namespace STable

variable {T : Type*}

/-- `STable::STable`. -/
def new : STable T := ⟨.new maxSemaphore, fun _ => none⟩

/-- The loop of `Create`, `Wait` and `Signal`: the first slot in use with the name. `none` is an
access through a `NULL` entry, or the `ASSERT` of `Bitmap::Test`. -/
def search (s : STable T) (name : CStr) :
    List (Fin maxSemaphore) → Option (Option (Fin maxSemaphore))
  | [] => some none
  | i :: rest =>
    (s.bm.test (i : Int)).bind fun inUse =>
      if inUse then
        (s.table i).bind fun sem =>
          if strcmp name.1 sem.name.1 = 0 then some (some i) else search s name rest
      else search s name rest

/-- Write `table[id]`. -/
def setEntry (s : STable T) (id : Int) (sem : Sem T) : Option (STable T) :=
  if h : 0 ≤ id ∧ id.toNat < maxSemaphore then
    some { s with table := update s.table ⟨id.toNat, h.2⟩ (some sem) }
  else none

/-- `STable::Create`. -/
def create (s : STable T) (name : CStr) (value : Int) : Option (Int × STable T) :=
  (s.search name (List.finRange maxSemaphore)).bind fun found =>
    -- A semaphore of the name exists.
    if found.isSome then some (-1, s)
    else
      -- `FindFreeSlot` claims the slot before there is a semaphore in it.
      let (id, bm) := s.bm.findAndSet
      let s := { s with bm }
      -- The table is full.
      if id < 0 then some (-1, s)
      else (Sem.new name value).bind fun sem => (s.setEntry id sem).map fun s => (0, s)

/-- Change the semaphore in a slot. -/
def setSem (s : STable T) (i : Fin maxSemaphore) (e : Sem T) (sem : Semaphore T) : STable T :=
  { s with table := update s.table i (some { e with sem }) }

end STable

/-! ### The calls of any number of threads -/

/-- Where a thread is with respect to `Wait`; `R` says which semaphore it waits for. -/
inductive WaitPc (R : Type*) where
  /-- Not inside `P`. -/
  | outside
  /-- Asleep on the queue. -/
  | asleep (r : R)
  /-- Taken off the queue by a `V`, and not yet back at the test of the loop. -/
  | woken (r : R)
  deriving DecidableEq

/-- Rename the semaphores. -/
def WaitPc.map {R S : Type*} (f : R → S) : WaitPc R → WaitPc S
  | .outside => .outside
  | .asleep r => .asleep (f r)
  | .woken r => .woken (f r)

@[simp] theorem WaitPc.map_outside {R S : Type*} (f : R → S) : map f .outside = .outside := rfl
@[simp] theorem WaitPc.map_asleep {R S : Type*} (f : R → S) (r : R) :
    map f (.asleep r) = .asleep (f r) := rfl
@[simp] theorem WaitPc.map_woken {R S : Type*} (f : R → S) (r : R) :
    map f (.woken r) = .woken (f r) := rfl

/-- What has happened so far. -/
structure SemLog (T : Type*) where
  /-- The result of the thread's last call that has returned. -/
  result : T → Option Int
  /-- The value a semaphore was created with. -/
  created : CStr → Option Int
  /-- The number of `Wait`s that have returned from the semaphore of the name. -/
  waits : CStr → ℕ
  /-- The number of `Signal`s to it. -/
  signals : CStr → ℕ

namespace SemLog

variable {T : Type*} [DecidableEq T]

/-- A call of thread `t` returns. -/
def returned (l : SemLog T) (t : T) (r : Int) : SemLog T :=
  { l with result := update l.result t (some r) }

/-- A `Create` succeeds. -/
def create (l : SemLog T) (name : CStr) (value : Int) : SemLog T :=
  { l with created := update l.created name (some value) }

/-- A `P` returns. -/
def wait (l : SemLog T) (name : CStr) : SemLog T :=
  { l with waits := update l.waits name (l.waits name + 1) }

/-- A `V` is made. -/
def signal (l : SemLog T) (name : CStr) : SemLog T :=
  { l with signals := update l.signals name (l.signals name + 1) }

end SemLog

/-- What can happen next. -/
inductive SemTabAction (T : Type*) where
  | create (t : T) (name : CStr) (value : Int)
  /-- A thread calls `Wait` and, if the name is found, reaches the test of `P`. -/
  | wait (t : T) (name : CStr)
  /-- A woken thread is scheduled and tests again. -/
  | resume (t : T)
  | signal (t : T) (name : CStr)

/-- The table and the threads using it. -/
structure SemTabState (T : Type*) where
  tab : STable T
  pc : T → WaitPc (Fin maxSemaphore)
  log : SemLog T

namespace SemTabState

variable {T : Type*} [DecidableEq T]

/-- Thread `t` passes the test of `P` on the semaphore in slot `i`; if `P` returns, so does
`Wait`. -/
def pass (s : SemTabState T) (t : T) (i : Fin maxSemaphore) : Outcome (SemTabState T) :=
  match s.tab.table i with
  | none => .fault
  | some e =>
    match e.sem.pTest t with
    | none => .fault
    | some (sem, true) =>
      .next ⟨s.tab.setSem i e sem, update s.pc t .outside, (s.log.wait e.name).returned t 0⟩
    | some (sem, false) =>
      .next { s with tab := s.tab.setSem i e sem, pc := update s.pc t (.asleep i) }

/-- `V` on the semaphore in slot `i`, by thread `t`. -/
def signalAt (s : SemTabState T) (t : T) (i : Fin maxSemaphore) : Outcome (SemTabState T) :=
  match s.tab.table i with
  | none => .fault
  | some e =>
    match e.sem.v with
    | (sem, none) => .next { s with
        tab := s.tab.setSem i e sem, log := (s.log.signal e.name).returned t 0 }
    | (sem, some u) =>
      .next ⟨s.tab.setSem i e sem, update s.pc u (.woken i), (s.log.signal e.name).returned t 0⟩

/-- `STable::Create`, by thread `t`. -/
def create (s : SemTabState T) (t : T) (name : CStr) (value : Int) : Outcome (SemTabState T) :=
  match s.tab.create name value with
  | none => .fault
  | some (r, tab) =>
    .next { s with
      tab, log := (if r = 0 then s.log.create name value else s.log).returned t r }

/-- `STable::Wait` and `STable::Signal` look for the name, and go on with the slot if there is
one. -/
def find (s : SemTabState T) (t : T) (name : CStr)
    (go : Fin maxSemaphore → Outcome (SemTabState T)) : Outcome (SemTabState T) :=
  match s.tab.search name (List.finRange maxSemaphore) with
  | none => .fault
  | some none => .next { s with log := s.log.returned t (-1) }
  | some (some i) => go i

/-- One action. A thread inside `P` makes no other call. -/
def next (s : SemTabState T) : SemTabAction T → Outcome (SemTabState T)
  | .create t name value => if s.pc t = .outside then s.create t name value else .disabled
  | .wait t name => if s.pc t = .outside then s.find t name (s.pass t) else .disabled
  | .resume t =>
    match s.pc t with
    | .woken i => s.pass t i
    | _ => .disabled
  | .signal t name => if s.pc t = .outside then s.find t name (s.signalAt t) else .disabled

end SemTabState

/-- No call has been made. -/
def SemTabState.new {T : Type*} : SemTabState T :=
  ⟨.new, fun _ => .outside, fun _ => none, fun _ => none, fun _ => 0, fun _ => 0⟩

/-- Any number of threads using the table. -/
def semTabSystem (T : Type*) [DecidableEq T] : LTS (SemTabState T) (SemTabAction T) where
  init := fun s => s = .new
  next := SemTabState.next

/-! ### What the table is for -/

/-- A finite map from names to semaphores, and the threads using them. -/
structure SemMapState (T : Type*) where
  sems : CStr → Option (Semaphore T)
  pc : T → WaitPc CStr
  log : SemLog T

namespace SemMapState

variable {T : Type*} [DecidableEq T]

/-- The number of semaphores. -/
noncomputable def size (m : SemMapState T) : ℕ := {name | m.sems name ≠ none}.ncard

/-- `P` on the semaphore of a name, and on no other. -/
def pass (m : SemMapState T) (t : T) (name : CStr) (sem : Semaphore T) : Outcome (SemMapState T) :=
  match sem.pTest t with
  | none => .fault
  | some (sem, true) =>
    .next ⟨update m.sems name (some sem), update m.pc t .outside,
      (m.log.wait name).returned t 0⟩
  | some (sem, false) =>
    .next { m with
      sems := update m.sems name (some sem), pc := update m.pc t (.asleep name) }

/-- `V` on the semaphore of a name, and on no other. -/
def signal (m : SemMapState T) (t : T) (name : CStr) (sem : Semaphore T) :
    Outcome (SemMapState T) :=
  match sem.v with
  | (sem, none) =>
    .next { m with
      sems := update m.sems name (some sem), log := (m.log.signal name).returned t 0 }
  | (sem, some u) =>
    .next ⟨update m.sems name (some sem), update m.pc u (.woken name),
      (m.log.signal name).returned t 0⟩

open Classical in
/-- One action. -/
noncomputable def next (m : SemMapState T) : SemTabAction T → Outcome (SemMapState T)
  | .create t name value =>
    if m.pc t ≠ .outside then .disabled
    -- The name is absent and there is room: it is added with the value, and the result is `0`.
    else if m.sems name = none ∧ m.size < maxSemaphore then
      .next { m with
        sems := update m.sems name (some (.new value))
        log := (m.log.create name value).returned t 0 }
    -- Otherwise the result is `-1` and nothing changes.
    else .next { m with log := m.log.returned t (-1) }
  | .wait t name =>
    if m.pc t ≠ .outside then .disabled
    else
      match m.sems name with
      | none => .next { m with log := m.log.returned t (-1) }
      | some sem => m.pass t name sem
  | .resume t =>
    match m.pc t with
    | .woken name =>
      match m.sems name with
      | none => .fault
      | some sem => m.pass t name sem
    | _ => .disabled
  | .signal t name =>
    if m.pc t ≠ .outside then .disabled
    else
      match m.sems name with
      | none => .next { m with log := m.log.returned t (-1) }
      | some sem => m.signal t name sem

end SemMapState

/-! ### The map of a table -/

namespace STable

variable {T : Type*} {s : STable T} {i : Fin maxSemaphore} {e : Sem T} {name : CStr}

/-- What every call keeps: a bit is set exactly if there is a semaphore in the slot, and no two
semaphores have the same name. -/
structure Wf (s : STable T) : Prop where
  mem_marked : ∀ i : Fin maxSemaphore, (i : ℕ) ∈ s.bm.marked ↔ s.table i ≠ none
  inj : ∀ i j a b, s.table i = some a → s.table j = some b → a.name = b.name → i = j

/-- There is a semaphore of the name in the slot. -/
def named (s : STable T) (name : CStr) (i : Fin maxSemaphore) : Bool :=
  (s.table i).any (·.name = name)

/-- The slot of a name. -/
def slotOf (s : STable T) (name : CStr) : Option (Fin maxSemaphore) :=
  (List.finRange maxSemaphore).find? (s.named name)

/-- The map of a table. -/
def sems (s : STable T) (name : CStr) : Option (Semaphore T) :=
  (s.slotOf name).bind fun i => (s.table i).map Sem.sem

/-- The name in a slot. -/
def nameAt (s : STable T) (i : Fin maxSemaphore) : CStr :=
  ((s.table i).map Sem.name).getD ⟨[], List.not_mem_nil⟩

theorem named_iff : s.named name i = true ↔ ∃ e, s.table i = some e ∧ e.name = name := by
  cases hi : s.table i <;> simp [named, hi]

theorem nameAt_eq (hi : s.table i = some e) : s.nameAt i = e.name := by
  rw [nameAt, hi]
  rfl

/-- The loop finds the slot, and follows no `NULL` pointer. -/
theorem Wf.search_eq (h : s.Wf) (name : CStr) (l : List (Fin maxSemaphore)) :
    s.search name l = some (l.find? (s.named name)) := by
  induction l with
  | nil => rfl
  | cons i rest ih =>
    have htest := s.bm.test_natCast i.isLt
    simp only [search, htest, Option.bind_some, decide_eq_true_eq, h.mem_marked, List.find?_cons]
    cases hi : s.table i with
    | none =>
      have hn : s.named name i = false := by simp [named, hi]
      simp [hn, ih]
    | some e =>
      by_cases hname : name = e.name
      · subst hname
        have hn : s.named e.name i = true := by simp [named, hi]
        simp [hn, strcmp_eq_zero_iff]
      · have hn : s.named name i = false := by simp [named, hi, Ne.symm hname]
        simp [hn, strcmp_eq_zero_iff, hname, ih]

theorem Wf.slotOf_eq_some_iff (h : s.Wf) :
    s.slotOf name = some i ↔ ∃ e, s.table i = some e ∧ e.name = name := by
  constructor
  · intro hs
    exact named_iff.mp (List.find?_some hs)
  · rintro ⟨e, hi, rfl⟩
    cases hs : s.slotOf e.name with
    | none =>
      have := List.find?_eq_none.mp hs i (List.mem_finRange i)
      exact absurd (named_iff.mpr ⟨e, hi, rfl⟩) this
    | some j =>
      obtain ⟨e', hj, hname⟩ := named_iff.mp (List.find?_some hs)
      rw [h.inj j i e' e hj hi hname]

theorem slotOf_eq_none_iff : s.slotOf name = none ↔ ∀ i e, s.table i = some e → e.name ≠ name := by
  simp only [slotOf, List.find?_eq_none, List.mem_finRange, forall_const, named_iff, not_exists,
    not_and]

theorem Wf.sems_eq (h : s.Wf) (hi : s.table i = some e) : s.sems e.name = some e.sem := by
  rw [sems, h.slotOf_eq_some_iff.mpr ⟨e, hi, rfl⟩, Option.bind_some, hi, Option.map_some]

theorem sems_eq_none_iff : s.sems name = none ↔ ∀ i e, s.table i = some e → e.name ≠ name := by
  rw [← slotOf_eq_none_iff, sems]
  cases hs : s.slotOf name with
  | none => simp
  | some i =>
    obtain ⟨e, hi, -⟩ := named_iff.mp (List.find?_some hs)
    simp [hi]

/-- The map at a name that is not the one of the slot. -/
theorem sems_congr {s' : STable T} (h : s.Wf) (h' : s'.Wf)
    (heq : ∀ j e, e.name = name → (s.table j = some e ↔ s'.table j = some e)) :
    s'.sems name = s.sems name := by
  cases hs : s.sems name with
  | none =>
    rw [sems_eq_none_iff] at hs ⊢
    intro j e hj hname
    exact hs j e ((heq j e hname).mpr hj) hname
  | some sem =>
    have hne : s.sems name ≠ none := by simp [hs]
    rw [Ne, sems_eq_none_iff] at hne
    push Not at hne
    obtain ⟨j, e, hj, rfl⟩ := hne
    rw [h'.sems_eq ((heq j e rfl).mp hj), ← hs, h.sems_eq hj]

/-- What is put into a slot, in place of a semaphore of the same name or into a slot that is free,
is what the map has at its name afterwards. -/
theorem Wf.put (h : s.Wf) {bm : Bitmap maxSemaphore} (hbm : bm.marked = insert (i : ℕ) s.bm.marked)
    (hi : ∀ j a, s.table j = some a → a.name = e.name → j = i)
    (hold : ∀ a, s.table i = some a → a.name = e.name) :
    (⟨bm, update s.table i (some e)⟩ : STable T).Wf ∧
      sems ⟨bm, update s.table i (some e)⟩ = update s.sems e.name (some e.sem) := by
  have hwf : (⟨bm, update s.table i (some e)⟩ : STable T).Wf := by
    refine ⟨fun j => ?_, fun j k a b hj hk hname => ?_⟩
    · rw [hbm, Finset.mem_insert, h.mem_marked]
      by_cases hji : j = i
      · subst hji
        simp
      · simp [hji, Fin.val_inj]
    · obtain ⟨rfl, ha⟩ | ⟨-, hj'⟩ := update_eq_cases hj
      · cases ha
        obtain ⟨rfl, -⟩ | ⟨-, hk'⟩ := update_eq_cases hk
        · rfl
        · exact (hi k b hk' hname.symm).symm
      · obtain ⟨rfl, hb⟩ | ⟨-, hk'⟩ := update_eq_cases hk
        · cases hb
          exact hi j a hj' hname
        · exact h.inj j k a b hj' hk' hname
  refine ⟨hwf, funext fun name => ?_⟩
  by_cases hname : name = e.name
  · subst hname
    rw [update_self]
    exact hwf.sems_eq (update_self i (some e) s.table)
  · -- No semaphore of another name has come or gone.
    rw [update_of_ne hname]
    refine sems_congr h hwf fun j a ha => ?_
    by_cases hji : j = i
    · subst hji
      refine iff_of_false (fun hj => hname ?_) fun hj => hname ?_
      · rw [← ha, hold a hj]
      · obtain rfl : e = a := by simpa using hj
        exact ha.symm
    · simp [hji]

/-- An operation on the semaphore in a slot is one on the semaphore of its name. -/
theorem Wf.setSem (h : s.Wf) (hi : s.table i = some e) (sem : Semaphore T) :
    (s.setSem i e sem).Wf ∧ (s.setSem i e sem).sems = update s.sems e.name (some sem) ∧
      (s.setSem i e sem).nameAt = s.nameAt := by
  have hmem : (i : ℕ) ∈ s.bm.marked := (h.mem_marked i).mpr (by simp [hi])
  obtain ⟨hwf, hsems⟩ := h.put (e := { e with sem }) (Finset.insert_eq_of_mem hmem).symm
    (fun j a hj hname => h.inj j i a e hj hi hname)
    (fun a ha => by rw [hi] at ha; cases ha; rfl)
  refine ⟨hwf, hsems, funext fun j => ?_⟩
  by_cases hji : j = i
  · subst hji
    simp [nameAt, STable.setSem, hi]
  · simp [nameAt, STable.setSem, hji]

/-- The number of names in the map is the number of slots in use. -/
theorem Wf.ncard_sems (h : s.Wf) :
    {name | s.sems name ≠ none}.ncard = {i | s.table i ≠ none}.ncard := by
  have himage : {name | s.sems name ≠ none} = s.nameAt '' {i | s.table i ≠ none} := by
    ext name
    simp only [Set.mem_ofPred_eq, Ne, sems_eq_none_iff, Set.mem_image]
    push Not
    constructor
    · rintro ⟨i, e, hi, rfl⟩
      exact ⟨i, by simp [hi], nameAt_eq hi⟩
    · rintro ⟨i, hi, rfl⟩
      obtain ⟨e, he⟩ := Option.ne_none_iff_exists'.mp hi
      exact ⟨i, e, he, (nameAt_eq he).symm⟩
  rw [himage]
  refine Set.InjOn.ncard_image fun i hi j hj hname => ?_
  obtain ⟨a, ha⟩ := Option.ne_none_iff_exists'.mp hi
  obtain ⟨b, hb⟩ := Option.ne_none_iff_exists'.mp hj
  rw [nameAt_eq ha, nameAt_eq hb] at hname
  exact h.inj i j a b ha hb hname

/-- There is room in the map exactly if a slot is free. -/
theorem Wf.ncard_lt_iff (h : s.Wf) :
    {name | s.sems name ≠ none}.ncard < maxSemaphore ↔ ∃ i, s.table i = none := by
  rw [h.ncard_sems]
  constructor
  · intro hlt
    by_contra hfull
    push Not at hfull
    have huniv : {i | s.table i ≠ none} = Set.univ := Set.eq_univ_of_forall hfull
    rw [huniv, Set.ncard_univ, Nat.card_fin] at hlt
    exact absurd hlt (lt_irrefl _)
  · rintro ⟨i, hi⟩
    have hne : {i | s.table i ≠ none} ≠ Set.univ := by
      intro huniv
      have : i ∈ {i | s.table i ≠ none} := huniv ▸ Set.mem_univ i
      exact this hi
    have := Set.ncard_lt_card hne
    rwa [Nat.card_fin] at this

/-- What `Create` does: it adds exactly the name with the value, or it returns `-1` and changes
nothing, or it adds a name that does not fit the field. -/
inductive Created (s : STable T) (name : CStr) (value : Int) : Option (Int × STable T) → Prop where
  | added {i s'} : s.sems name = none → s.table i = none → s'.Wf →
      s'.sems = update s.sems name (some (.new value)) →
      (∀ j, j ≠ i → s'.table j = s.table j) → (∃ e, s'.table i = some e ∧ e.sem.queue = []) →
      Created s name value (some (0, s'))
  | refused : ¬ (s.sems name = none ∧ ∃ i, s.table i = none) → Created s name value (some (-1, s))
  | overflow : ¬ name.1.length < semNameSize → Created s name value none

theorem Wf.create (h : s.Wf) (name : CStr) (value : Int) :
    s.Created name value (s.create name value) := by
  have hsearch := h.search_eq name (List.finRange maxSemaphore)
  change _ = some (s.slotOf name) at hsearch
  cases hslot : s.slotOf name with
  | some i =>
    have hcreate : s.create name value = some (-1, s) := by simp [STable.create, hsearch, hslot]
    rw [hcreate]
    refine .refused fun hnone => ?_
    rw [← slotOf_eq_none_iff.trans sems_eq_none_iff.symm] at hnone
    simp [hslot] at hnone
  | none =>
    have habsent : s.sems name = none := sems_eq_none_iff.mpr (slotOf_eq_none_iff.mp hslot)
    rcases s.bm.findAndSet_cases with ⟨i, hi, hclear, -, hfind⟩ | ⟨hfull, hfind⟩
    · -- A slot is free.
      by_cases hname : name.1.length < semNameSize
      · have hfree : s.table ⟨i, hi⟩ = none := by
          by_contra hne
          exact hclear ((h.mem_marked ⟨i, hi⟩).mpr hne)
        obtain ⟨hwf, hsems⟩ := h.put (i := ⟨i, hi⟩) (e := ⟨name, hname, .new value⟩)
          (s.bm.marked_setBit hi)
          (fun j a hj ha => absurd ha (sems_eq_none_iff.mp habsent j a hj))
          (fun a ha => by rw [hfree] at ha; cases ha)
        have hcreate : s.create name value = some (0, ⟨s.bm.setBit i,
            update s.table ⟨i, hi⟩ (some ⟨name, hname, .new value⟩)⟩) := by
          simp [STable.create, hsearch, hslot, hfind, Sem.new, hname, setEntry, hi]
        rw [hcreate]
        exact .added habsent hfree hwf hsems (fun j hj => update_of_ne hj _ _)
          ⟨_, update_self _ _ _, rfl⟩
      · have hcreate : s.create name value = none := by
          simp [STable.create, hsearch, hslot, hfind, Sem.new, hname]
        rw [hcreate]
        exact .overflow hname
    · -- The table is full.
      have hcreate : s.create name value = some (-1, s) := by
        simp [STable.create, hsearch, hslot, hfind]
      rw [hcreate]
      refine .refused ?_
      rintro ⟨-, i, hi⟩
      exact (h.mem_marked i).mp (hfull i i.isLt) hi

end STable

/-! ### The two systems move in step -/

namespace SemTabState

variable {T : Type*} {s s' : SemTabState T} {t : T} {i : Fin maxSemaphore} {e : Sem T} {name : CStr}

/-- The map that a table stands for, with the threads waiting for names. -/
def abs (s : SemTabState T) : SemMapState T :=
  ⟨s.tab.sems, fun t => (s.pc t).map s.tab.nameAt, s.log⟩

/-- The invariant: the table is well formed, threads wait for semaphores that exist, and a queue
holds threads that are asleep there. -/
structure Inv (s : SemTabState T) : Prop where
  wf : s.tab.Wf
  inUse : ∀ t i, s.pc t = .asleep i ∨ s.pc t = .woken i → s.tab.table i ≠ none
  nodup : ∀ i e, s.tab.table i = some e → e.sem.queue.Nodup
  asleep : ∀ i e, s.tab.table i = some e → ∀ t ∈ e.sem.queue, s.pc t = .asleep i

theorem Inv.notMem_queue (h : s.Inv) (ht : ∀ j, s.pc t ≠ .asleep j) (hi : s.tab.table i = some e) :
    t ∉ e.sem.queue := fun hm => ht i (h.asleep i e hi t hm)

variable [DecidableEq T]

/-- One thread moves, and the map sees it. -/
theorem map_update {R S : Type*} (f : R → S) (pc : T → WaitPc R) (t : T) (c : WaitPc R) :
    (fun u => (update pc t c u).map f)
      = update (fun u => (pc u).map f) t (c.map f) := by
  funext u
  by_cases hu : u = t
  · subst hu
    simp
  · simp [hu]

/-- The semaphore in a slot changes, and one thread moves. -/
theorem Inv.setSem (h : s.Inv) (hi : s.tab.table i = some e) {sem : Semaphore T} {u : T}
    {c : WaitPc (Fin maxSemaphore)} (log : SemLog T)
    (hc : ∀ j, c = .asleep j ∨ c = .woken j → j = i) (hnd : sem.queue.Nodup)
    (hqueue : ∀ w ∈ sem.queue, (w = u ∧ c = .asleep i) ∨ (w ≠ u ∧ w ∈ e.sem.queue))
    (hother : ∀ j, j ≠ i → s.pc u ≠ .asleep j) :
    (⟨s.tab.setSem i e sem, update s.pc u c, log⟩ : SemTabState T).Inv := by
  refine ⟨(h.wf.setSem hi sem).1, fun w j hw => ?_, fun j a ha => ?_, fun j a ha w hw => ?_⟩
  · show update s.tab.table i _ j ≠ none
    by_cases hj : j = i
    · subst hj
      simp
    · rw [update_of_ne hj]
      by_cases hwu : w = u
      · subst hwu
        exact absurd (hc j (by simpa using hw)) hj
      · exact h.inUse w j (by simpa [hwu] using hw)
  · obtain ⟨rfl, hea⟩ | ⟨-, ha'⟩ := update_eq_cases ha
    · cases hea
      exact hnd
    · exact h.nodup j a ha'
  · show update s.pc u c w = _
    obtain ⟨rfl, hea⟩ | ⟨hj, ha'⟩ := update_eq_cases ha
    · cases hea
      rcases hqueue w hw with ⟨rfl, hc⟩ | ⟨hwu, hwq⟩
      · rw [update_self, hc]
      · rw [update_of_ne hwu]
        exact h.asleep j e hi w hwq
    · have hwj := h.asleep j a ha' w hw
      rw [update_of_ne, hwj]
      rintro rfl
      exact hother j hj hwj

/-- `P` on a slot is `P` on the name in it; its assertion holds and the invariant is kept. -/
theorem Inv.pass (h : s.Inv) (ht : ∀ j, s.pc t ≠ .asleep j) (hi : s.tab.table i = some e) :
    (s.pass t i).map abs = s.abs.pass t e.name e.sem ∧ (s.pass t i).Meets Inv := by
  have htq := h.notMem_queue ht hi
  rcases Semaphore.pTest_cases htq with ⟨-, hp⟩ | ⟨-, hp⟩
  · simp only [SemTabState.pass, hi, SemMapState.pass, hp, Outcome.map_next, Outcome.meets_next]
    obtain ⟨-, hsems, hname⟩ := h.wf.setSem hi { e.sem with queue := e.sem.queue ++ [t] }
    refine ⟨?_, h.setSem hi s.log ?_ ?_ ?_ fun j _ => ht j⟩
    · simp only [abs, hsems, hname, map_update, WaitPc.map_asleep, STable.nameAt_eq hi]
    · simp
    · exact nodup_append_singleton (h.nodup i e hi) htq
    · intro w hw
      rcases List.mem_append.mp hw with hw | hw
      · exact .inr ⟨fun hwt => htq (hwt ▸ hw), hw⟩
      · exact .inl ⟨List.mem_singleton.mp hw, rfl⟩
  · simp only [SemTabState.pass, hi, SemMapState.pass, hp, Outcome.map_next, Outcome.meets_next]
    obtain ⟨-, hsems, hname⟩ := h.wf.setSem hi { e.sem with value := wrap32 (e.sem.value - 1) }
    refine ⟨?_, h.setSem hi _ ?_ (h.nodup i e hi) (fun w hw => ?_) fun j _ => ht j⟩
    · simp only [abs, hsems, hname, map_update, WaitPc.map_outside]
    · simp
    · exact .inr ⟨fun hwt => htq (hwt ▸ hw), hw⟩

/-- `V` on a slot is `V` on the name in it. -/
theorem Inv.signalAt (h : s.Inv) (ht : s.pc t = .outside) (hi : s.tab.table i = some e) :
    (s.signalAt t i).map abs = s.abs.signal t e.name e.sem ∧ (s.signalAt t i).Meets Inv := by
  cases hq : e.sem.queue with
  | nil =>
    have hv := Semaphore.v_nil hq
    obtain ⟨-, hsems, hname⟩ := h.wf.setSem hi { e.sem with value := wrap32 (e.sem.value + 1) }
    simp only [SemTabState.signalAt, hi, SemMapState.signal, hv, Outcome.map_next,
      Outcome.meets_next]
    refine ⟨by simp only [abs, hsems, hname], ?_⟩
    -- Nobody moves: the caller stays where it is.
    have hstay : update s.pc t .outside = s.pc := by rw [← ht, update_eq_self]
    rw [← hstay]
    refine h.setSem hi _ (by simp) (h.nodup i e hi) (fun w hw => ?_) fun j _ => by simp [ht]
    rw [hq] at hw
    cases hw
  | cons u rest =>
    have hv := Semaphore.v_cons hq
    obtain ⟨-, hsems, hname⟩ := h.wf.setSem hi ⟨wrap32 (e.sem.value + 1), rest⟩
    have hu : s.pc u = .asleep i := h.asleep i e hi u (by simp [hq])
    have hnd : (u :: rest).Nodup := hq ▸ h.nodup i e hi
    simp only [SemTabState.signalAt, hi, SemMapState.signal, hv, Outcome.map_next,
      Outcome.meets_next]
    refine ⟨?_, h.setSem hi _ ?_ (List.nodup_cons.mp hnd).2 (fun w hw => ?_) ?_⟩
    · simp only [abs, hsems, hname, map_update, WaitPc.map_woken, STable.nameAt_eq hi]
    · simp
    · exact .inr ⟨fun hwu => (List.nodup_cons.mp hnd).1 (hwu ▸ hw), by simp [hq, hw]⟩
    · intro j hj hpc
      rw [hu] at hpc
      cases hpc
      exact hj rfl

/-- `Wait` and `Signal` find the semaphore of the name in the map. -/
theorem Inv.find (h : s.Inv) (t : T) (name : CStr)
    (go : Fin maxSemaphore → Outcome (SemTabState T)) :
    (s.tab.sems name = none ∧ s.find t name go = .next { s with log := s.log.returned t (-1) }) ∨
    ∃ i e, s.tab.table i = some e ∧ e.name = name ∧ s.tab.sems name = some e.sem ∧
      s.find t name go = go i := by
  have hsearch := h.wf.search_eq name (List.finRange maxSemaphore)
  change _ = some (s.tab.slotOf name) at hsearch
  cases hslot : s.tab.slotOf name with
  | none =>
    refine .inl ⟨STable.sems_eq_none_iff.mpr (STable.slotOf_eq_none_iff.mp hslot), ?_⟩
    simp only [SemTabState.find, hsearch, hslot]
  | some i =>
    obtain ⟨e, hi, hname⟩ := h.wf.slotOf_eq_some_iff.mp hslot
    refine .inr ⟨i, e, hi, hname, hname ▸ h.wf.sems_eq hi, ?_⟩
    simp only [SemTabState.find, hsearch, hslot]

omit [DecidableEq T] in
/-- A result changes nothing but the log. -/
theorem Inv.setLog (h : s.Inv) (log : SemLog T) : ({ s with log } : SemTabState T).Inv :=
  ⟨h.wf, h.inUse, h.nodup, h.asleep⟩

omit [DecidableEq T] in
/-- Where the threads are, when a slot comes into use that nobody waits for. -/
theorem Inv.map_nameAt (h : s.Inv) {tab : STable T} (hi : s.tab.table i = none)
    (hother : ∀ j, j ≠ i → tab.table j = s.tab.table j) (t : T) :
    (s.pc t).map tab.nameAt = (s.pc t).map s.tab.nameAt := by
  have hname : ∀ j, s.tab.table j ≠ none → tab.nameAt j = s.tab.nameAt j := by
    intro j hj
    rw [STable.nameAt, STable.nameAt, hother j (by rintro rfl; exact hj hi)]
  cases hpc : s.pc t with
  | outside => rfl
  | asleep j => rw [WaitPc.map_asleep, WaitPc.map_asleep, hname j (h.inUse t j (.inl hpc))]
  | woken j => rw [WaitPc.map_woken, WaitPc.map_woken, hname j (h.inUse t j (.inr hpc))]

omit [DecidableEq T] in
/-- A semaphore is added. -/
theorem Inv.added (h : s.Inv) {tab : STable T} (log : SemLog T) (hwf : tab.Wf)
    (hi : s.tab.table i = none) (hother : ∀ j, j ≠ i → tab.table j = s.tab.table j)
    (hnew : ∃ e, tab.table i = some e ∧ e.sem.queue = []) :
    ({ s with tab, log } : SemTabState T).Inv := by
  obtain ⟨e, he, hq⟩ := hnew
  refine ⟨hwf, fun t j hj => ?_, fun j a ha => ?_, fun j a ha t ht => ?_⟩
  · show tab.table j ≠ none
    rw [hother j (by rintro rfl; exact h.inUse t j hj hi)]
    exact h.inUse t j hj
  · change tab.table j = some a at ha
    by_cases hj : j = i
    · subst hj
      rw [he] at ha
      cases ha
      simp [hq]
    · rw [hother j hj] at ha
      exact h.nodup j a ha
  · change tab.table j = some a at ha
    by_cases hj : j = i
    · subst hj
      rw [he] at ha
      cases ha
      simp [hq] at ht
    · rw [hother j hj] at ha
      exact h.asleep j a ha t ht

end SemTabState

/-- The name of a new semaphore fits its field. -/
def SemTabAction.Fits {T : Type*} : SemTabAction T → Prop
  | .create _ name _ => name.1.length < semNameSize
  | _ => True

namespace SemTabState

variable {T : Type*} [DecidableEq T] {s s' : SemTabState T} {t : T}

omit [DecidableEq T] in
theorem abs_pc_eq_outside_iff : s.abs.pc t = .outside ↔ s.pc t = .outside := by
  simp only [abs]
  cases s.pc t <;> simp

omit [DecidableEq T] in
/-- The map of a table has room exactly if the table has a free slot. -/
theorem Inv.size_lt_iff (h : s.Inv) : s.abs.size < maxSemaphore ↔ ∃ i, s.tab.table i = none :=
  h.wf.ncard_lt_iff

/-- An action of the table moves in step with the one of the map, keeps the invariant and trips no
check. -/
def InStep (s : SemTabState T) (a : SemTabAction T) : Prop :=
  (s.next a).map abs = s.abs.next a ∧ (s.next a).Meets Inv

/-- A call of a thread that sleeps in `P` is not enabled in either system. -/
theorem inStep_of_not_outside (ht : ¬ s.pc t = .outside) {a : SemTabAction T}
    (ha : s.next a = .disabled) (hm : s.abs.pc t ≠ .outside → s.abs.next a = .disabled) :
    s.InStep a := by
  rw [InStep, ha, hm fun h => ht (abs_pc_eq_outside_iff.mp h)]
  exact ⟨rfl, trivial⟩

theorem Inv.inStep_create (h : s.Inv) (t : T) (name : CStr) (value : Int) :
    s.InStep (.create t name value) ∨
      s.next (.create t name value) = .fault ∧ ¬ (SemTabAction.create t name value).Fits := by
  by_cases ht : s.pc t = .outside
  · have hcreated := h.wf.create name value
    have hnext : s.next (.create t name value) = s.create t name value := if_pos ht
    rw [InStep, hnext, SemTabState.create]
    have habs : s.abs.next (.create t name value) =
        if s.tab.sems name = none ∧ ∃ i, s.tab.table i = none then
          .next { s.abs with
            sems := update s.tab.sems name (some (.new value))
            log := (s.log.create name value).returned t 0 }
        else .next { s.abs with log := s.log.returned t (-1) } := by
      simp only [SemMapState.next, ne_eq, abs_pc_eq_outside_iff, ht, not_true_eq_false, if_false,
        h.size_lt_iff]
      rfl
    rw [habs]
    generalize s.tab.create name value = r at hcreated
    cases hcreated with
    | added habsent hi hwf hsems hother hnew =>
      refine .inl ⟨?_, h.added _ hwf hi hother hnew⟩
      rw [if_pos ⟨habsent, _, hi⟩]
      simp only [Outcome.map_next, abs, hsems, h.map_nameAt hi hother, if_true]
    | refused hno =>
      refine .inl ⟨?_, h.setLog _⟩
      rw [if_neg hno]
      rfl
    | overflow hlong => exact .inr ⟨rfl, hlong⟩
  · exact .inl (inStep_of_not_outside ht (if_neg ht) fun habs => if_pos habs)

/-- `Wait` and `Signal`: what is done with the slot of the name is done with its semaphore in the
map, and a name that is absent gives `-1`. -/
theorem Inv.inStep_find (h : s.Inv) {a : SemTabAction T} {name : CStr}
    {go : Fin maxSemaphore → Outcome (SemTabState T)}
    {absGo : CStr → Semaphore T → Outcome (SemMapState T)}
    (hnext : s.next a = if s.pc t = .outside then s.find t name go else .disabled)
    (habs : s.abs.next a = if s.abs.pc t ≠ .outside then .disabled
      else match s.abs.sems name with
        | none => .next { s.abs with log := s.log.returned t (-1) }
        | some sem => absGo name sem)
    (hgo : s.pc t = .outside → ∀ i e, s.tab.table i = some e →
      (go i).map abs = absGo e.name e.sem ∧ (go i).Meets Inv) : s.InStep a := by
  by_cases ht : s.pc t = .outside
  · rw [if_neg (not_not.mpr (abs_pc_eq_outside_iff.mpr ht))] at habs
    rw [InStep, hnext, if_pos ht, habs]
    rcases h.find t name go with ⟨hnone, hfind⟩ | ⟨i, e, hi, rfl, hsome, hfind⟩
    · rw [hfind, show s.abs.sems name = none from hnone]
      exact ⟨rfl, h.setLog _⟩
    · rw [hfind, show s.abs.sems e.name = some e.sem from hsome]
      exact hgo ht i e hi
  · exact inStep_of_not_outside ht (hnext.trans (if_neg ht)) fun h => habs.trans (if_pos h)

theorem Inv.inStep_resume (h : s.Inv) (t : T) : s.InStep (.resume t) := by
  cases hpc : s.pc t with
  | outside => simp [InStep, SemTabState.next, SemMapState.next, abs, hpc]
  | asleep i => simp [InStep, SemTabState.next, SemMapState.next, abs, hpc]
  | woken i =>
    obtain ⟨e, hi⟩ := Option.ne_none_iff_exists'.mp (h.inUse t i (.inr hpc))
    have habs : s.abs.pc t = .woken e.name := by
      show (s.pc t).map s.tab.nameAt = _
      rw [hpc, WaitPc.map_woken, STable.nameAt_eq hi]
    have hsome : s.abs.sems e.name = some e.sem := h.wf.sems_eq hi
    simp only [InStep, SemTabState.next, hpc, SemMapState.next, habs, hsome]
    exact h.pass (by simp [hpc]) hi

/-- Every action moves in step, except a `Create` that overruns the name field. -/
theorem Inv.inStep (h : s.Inv) (a : SemTabAction T) :
    s.InStep a ∨ s.next a = .fault ∧ ¬ a.Fits := by
  cases a with
  | create t name value => exact h.inStep_create t name value
  | wait t name => exact .inl (h.inStep_find rfl rfl fun ht i e hi => h.pass (by simp [ht]) hi)
  | resume t => exact .inl (h.inStep_resume t)
  | signal t name => exact .inl (h.inStep_find rfl rfl fun ht i e hi => h.signalAt ht hi)

omit [DecidableEq T] in
theorem inv_new : (new : SemTabState T).Inv := by
  refine ⟨⟨fun i => ?_, ?_⟩, ?_, ?_, ?_⟩
  · simp only [new, STable.new, Bitmap.marked_new]
    simp
  · simp [new, STable.new]
  · simp [new]
  · simp [new, STable.new]
  · simp [new, STable.new]

/-- What the map can do, the table can do. -/
theorem Inv.exists_next (h : s.Inv) {a : SemTabAction T} (ha : a.Fits) {m : SemMapState T}
    (hm : s.abs.next a = .next m) : ∃ s', s.next a = .next s' ∧ s'.abs = m := by
  rcases h.inStep a with ⟨hmap, -⟩ | ⟨-, hlong⟩
  · rw [hm] at hmap
    exact Outcome.map_eq_next_iff.mp hmap
  · exact absurd ha hlong

theorem inv_of_reachable (h : (semTabSystem T).Reachable s) : s.Inv := by
  refine h.invariant (fun s hs => by subst hs; exact inv_new) fun s a s' hinv hs => ?_
  rcases hinv.inStep a with ⟨-, hmeets⟩ | ⟨hfault, -⟩
  · exact hmeets.next hs
  · rw [show s.next a = .next s' from hs] at hfault
    cases hfault

/-- `Wait` and `Signal` on a name that is absent change nothing and return `-1`. -/
theorem Inv.find_absent (h : s.Inv) (t : T) {name : CStr} (hnone : s.tab.sems name = none)
    (go : Fin maxSemaphore → Outcome (SemTabState T)) :
    s.find t name go = .next { s with log := s.log.returned t (-1) } := by
  rcases h.find t name go with ⟨-, hfind⟩ | ⟨i, e, -, -, hsome, -⟩
  · exact hfind
  · rw [hnone] at hsome
    cases hsome

/-- The table does what a finite map of semaphores would do. -/
structure Refines (s : SemTabState T) : Prop where
  /-- A bit is set exactly if there is a semaphore in the slot. -/
  bit_iff : ∀ i : Fin maxSemaphore, (i : ℕ) ∈ s.tab.bm.marked ↔ ∃ e, s.tab.table i = some e
  /-- No two semaphores have the same name. -/
  names_inj : ∀ i j a b, s.tab.table i = some a → s.tab.table j = some b → a.name = b.name → i = j
  /-- Every call does to the map what it should, and returns what it should. -/
  step : ∀ a, a.Fits → (s.next a).map abs = s.abs.next a ∧ s.next a ≠ .fault
  /-- A `Create` that is refused changes nothing in the table either. -/
  create_refused : ∀ t name value, name.1.length < semNameSize → s.pc t = .outside →
    ¬ (s.abs.sems name = none ∧ s.abs.size < maxSemaphore) →
    s.next (.create t name value) = .next { s with log := s.log.returned t (-1) }
  /-- And so do `Wait` and `Signal` for a name that is absent. -/
  absent : ∀ t name, s.pc t = .outside → s.abs.sems name = none →
    s.next (.wait t name) = .next { s with log := s.log.returned t (-1) } ∧
    s.next (.signal t name) = .next { s with log := s.log.returned t (-1) }

theorem Inv.refines (h : s.Inv) : s.Refines where
  bit_iff i := by rw [h.wf.mem_marked, Option.ne_none_iff_exists']
  names_inj := h.wf.inj
  step a ha := by
    rcases h.inStep a with ⟨hmap, hmeets⟩ | ⟨-, hlong⟩
    · exact ⟨hmap, hmeets.ne_fault⟩
    · exact absurd ha hlong
  create_refused t name value hname ht hno := by
    rw [h.size_lt_iff] at hno
    have hcreated := h.wf.create name value
    rw [SemTabState.next, if_pos ht, SemTabState.create]
    generalize s.tab.create name value = r at hcreated
    cases hcreated with
    | added habsent hi => exact absurd ⟨habsent, _, hi⟩ hno
    | refused => rfl
    | overflow hlong => exact absurd hname hlong
  absent t name ht hnone := by
    rw [SemTabState.next, if_pos ht, SemTabState.next, if_pos ht]
    exact ⟨h.find_absent t hnone (s.pass t), h.find_absent t hnone (s.signalAt t)⟩

end SemTabState

/-- **The semaphore table refines a finite map.** However many threads make the three calls, and
wherever they sleep in between, the table is a finite map from names to semaphores: each call with
a name that fits the field does to the map, and returns, what the call on the map does. -/
theorem sem_table_refines_map {T : Type*} [DecidableEq T] (s : SemTabState T)
    (h : (semTabSystem T).Reachable s) : s.Refines :=
  (SemTabState.inv_of_reachable h).refines

/-- A semaphore is created, one thread takes its unit and another one sleeps, and a third thread
creates a second semaphore in the meantime. -/
theorem sem_table_refines_map_two : ∃ s : SemTabState (Fin 3),
    (∃ i, s.pc 1 = .asleep i) ∧ s.log.result 0 = some 0 ∧ s.log.result 2 = some 0 ∧ s.Refines := by
  obtain ⟨s, hs, hpc, hzero, htwo⟩ := (semTabSystem (Fin 3)).reaches rfl
    [.create 0 ⟨[97], by decide⟩ 1, .wait 0 ⟨[97], by decide⟩, .wait 1 ⟨[97], by decide⟩,
      .create 2 ⟨[98], by decide⟩ 5]
    (fun s => s.pc 1 = .asleep ⟨0, by decide⟩ ∧ s.log.result 0 = some 0 ∧ s.log.result 2 = some 0)
    (by decide +kernel)
  exact ⟨s, ⟨_, hpc⟩, hzero, htwo, sem_table_refines_map s hs⟩

/-! ### The number of waits -/

namespace SemMapState

variable {T : Type*} {m m' : SemMapState T} {name : CStr} {v : Int}

/-- The semaphore of the name was created with the value `v` and counts its uses modulo the size of
an `int`; if `v` is not negative, no unit has been taken that was not there. -/
structure Counts (m : SemMapState T) (v : Int) (name : CStr) : Prop where
  value_eq : ∃ sem, m.sems name = some sem ∧
    sem.value = wrap32 (v + m.log.signals name - m.log.waits name)
  waits_le : 0 ≤ v → (m.log.waits name : Int) ≤ v + m.log.signals name

/-- What the log says about a name. -/
structure Counted (m : SemMapState T) (name : CStr) : Prop where
  absent : m.sems name = none → m.log.created name = none ∧ m.log.waits name = 0 ∧
    m.log.signals name = 0
  counts : ∀ v, minInt ≤ v → v ≤ maxInt → m.log.created name = some v → m.Counts v name

/-- What an action does to the semaphores and their counts. -/
inductive Use (m m' : SemMapState T) : Prop where
  | unused : m'.sems = m.sems → m'.log.created = m.log.created → m'.log.waits = m.log.waits →
      m'.log.signals = m.log.signals → Use m m'
  | added {name value} : m.sems name = none →
      m'.sems = update m.sems name (some (.new value)) →
      m'.log.created = update m.log.created name (some value) →
      m'.log.waits = m.log.waits → m'.log.signals = m.log.signals → Use m m'
  | slept {name sem sem'} : m.sems name = some sem → sem'.value = sem.value →
      m'.sems = update m.sems name (some sem') → m'.log = m.log → Use m m'
  | taken {name sem sem'} : m.sems name = some sem → sem.value ≠ 0 →
      sem'.value = wrap32 (sem.value - 1) → m'.sems = update m.sems name (some sem') →
      m'.log.created = m.log.created →
      m'.log.waits = update m.log.waits name (m.log.waits name + 1) →
      m'.log.signals = m.log.signals → Use m m'
  | given {name sem sem'} : m.sems name = some sem → sem'.value = wrap32 (sem.value + 1) →
      m'.sems = update m.sems name (some sem') → m'.log.created = m.log.created →
      m'.log.waits = m.log.waits →
      m'.log.signals = update m.log.signals name (m.log.signals name + 1) → Use m m'

/-- The counts of a name that an action does not concern stay the same. -/
theorem Counted.congr (h : m.Counted name) (hsems : m'.sems name = m.sems name)
    (hcreated : m'.log.created name = m.log.created name)
    (hwaits : m'.log.waits name = m.log.waits name)
    (hsignals : m'.log.signals name = m.log.signals name) : m'.Counted name := by
  refine ⟨?_, fun v hlo hhi hv => ?_⟩
  · rw [hsems, hcreated, hwaits, hsignals]
    exact h.absent
  · obtain ⟨hval, hle⟩ := h.counts v hlo hhi (hcreated ▸ hv)
    refine ⟨?_, ?_⟩ <;> rw [hwaits, hsignals]
    · rwa [hsems]
    · exact hle

/-- The counts of the name that an action is about, if it has a semaphore before and after. -/
theorem Counted.of_use (h : m.Counted name) {sem sem' : Semaphore T} (hsem : m.sems name = some sem)
    (hsem' : m'.sems name = some sem') (hcreated : m'.log.created name = m.log.created name)
    (hvalue : ∀ x, sem.value = wrap32 (x + m.log.signals name - m.log.waits name) →
      sem'.value = wrap32 (x + m'.log.signals name - m'.log.waits name) ∧
      ((m.log.waits name : Int) ≤ x + m.log.signals name →
        (m'.log.waits name : Int) ≤ x + m'.log.signals name)) : m'.Counted name := by
  refine ⟨fun hnone => by simp [hsem'] at hnone, fun v hlo hhi hv => ?_⟩
  obtain ⟨⟨_, hs, hval⟩, hle⟩ := h.counts v hlo hhi (hcreated ▸ hv)
  rw [hsem] at hs
  cases hs
  obtain ⟨hval', hle'⟩ := hvalue v hval
  exact ⟨⟨sem', hsem', hval'⟩, fun h0 => hle' (hle h0)⟩

/-- Every action keeps the counts right. -/
theorem Counted.use (h : ∀ name, m.Counted name) (hu : m.Use m') (name : CStr) :
    m'.Counted name := by
  cases hu with
  | unused hs hc hw hg => exact (h name).congr (by rw [hs]) (by rw [hc]) (by rw [hw]) (by rw [hg])
  | @added n value hnone hs hc hw hg =>
    by_cases hn : name = n
    · subst hn
      obtain ⟨-, hw0, hg0⟩ := (h name).absent hnone
      refine ⟨fun hnone => by simp [hs] at hnone, fun v hlo hhi hv => ?_⟩
      obtain rfl : value = v := by simpa [hc] using hv
      refine ⟨⟨.new value, by simp [hs], ?_⟩, fun h0 => ?_⟩ <;> rw [hw, hg, hw0, hg0]
      · simp [Semaphore.new, wrap32_eq_self hlo hhi]
      · simpa using h0
    · exact (h name).congr (by simp [hs, hn]) (by simp [hc, hn]) (by rw [hw]) (by rw [hg])
  | @slept n sem sem' hsem hval hs hl =>
    by_cases hn : name = n
    · subst hn
      refine (h name).of_use hsem (by rw [hs, update_self]) (by rw [hl]) fun x hx => ?_
      rw [hl, hval]
      exact ⟨hx, id⟩
    · exact (h name).congr (by simp [hs, hn]) (by rw [hl]) (by rw [hl]) (by rw [hl])
  | @taken n sem sem' hsem hne hval hs hc hw hg =>
    by_cases hn : name = n
    · subst hn
      refine (h name).of_use hsem (by rw [hs, update_self]) (by rw [hc]) fun x hx => ?_
      rw [hval, hx, hw, hg, update_self]
      refine ⟨?_, fun hle => ?_⟩
      · rw [wrap32_sub_one]
        congr 1
        push_cast
        ring
      · -- A unit was there: the count is not zero.
        have hpos : x + m.log.signals name - m.log.waits name ≠ 0 := by
          intro h0
          rw [h0] at hx
          exact hne hx
        push_cast
        omega
    · exact (h name).congr (by simp [hs, hn]) (by rw [hc]) (by simp [hw, hn]) (by rw [hg])
  | @given n sem sem' hsem hval hs hc hw hg =>
    by_cases hn : name = n
    · subst hn
      refine (h name).of_use hsem (by rw [hs, update_self]) (by rw [hc]) fun x hx => ?_
      rw [hval, hx, hw, hg, update_self]
      refine ⟨?_, fun hle => ?_⟩
      · rw [wrap32_add_one]
        congr 1
        push_cast
        ring
      · push_cast
        omega
    · exact (h name).congr (by simp [hs, hn]) (by rw [hc]) (by rw [hw]) (by simp [hg, hn])

variable [DecidableEq T] {t : T} {sem : Semaphore T}

theorem use_of_pass (hsem : m.sems name = some sem) (hs : m.pass t name sem = .next m') :
    m.Use m' := by
  unfold SemMapState.pass at hs
  split at hs
  · cases hs
  · rename_i sem' hp
    cases hs
    obtain ⟨hne, rfl⟩ := Semaphore.pTest_eq_true hp
    exact .taken hsem hne rfl rfl rfl rfl rfl
  · rename_i sem' hp
    cases hs
    exact .slept hsem (Semaphore.pTest_eq_false hp) rfl rfl

theorem use_of_signal (hsem : m.sems name = some sem) (hs : m.signal t name sem = .next m') :
    m.Use m' := by
  have hval := sem.v_value
  unfold SemMapState.signal at hs
  split at hs <;> rename_i hv <;> rw [hv] at hval <;> cases hs <;>
    exact .given hsem hval rfl rfl rfl rfl

theorem use_of_next {a : SemTabAction T} (hs : m.next a = .next m') : m.Use m' := by
  cases a with
  | create t name value =>
    simp only [SemMapState.next] at hs
    split at hs
    · cases hs
    · split at hs <;> cases hs
      · rename_i hroom
        exact .added hroom.1 rfl rfl rfl rfl
      · exact .unused rfl rfl rfl rfl
  | wait t name =>
    simp only [SemMapState.next] at hs
    split at hs
    · cases hs
    · split at hs
      · cases hs
        exact .unused rfl rfl rfl rfl
      · rename_i sem hsem
        exact use_of_pass hsem hs
  | resume t =>
    simp only [SemMapState.next] at hs
    split at hs
    · split at hs
      · cases hs
      · rename_i sem hsem
        exact use_of_pass hsem hs
    · cases hs
  | signal t name =>
    simp only [SemMapState.next] at hs
    split at hs
    · cases hs
    · split at hs
      · cases hs
        exact .unused rfl rfl rfl rfl
      · rename_i sem hsem
        exact use_of_signal hsem hs

end SemMapState

namespace SemTabState

variable {T : Type*} [DecidableEq T] {s : SemTabState T}

/-- In every run the semaphores count their uses. -/
theorem counted_of_reachable (h : (semTabSystem T).Reachable s) (name : CStr) :
    s.abs.Counted name := by
  revert name
  refine h.invariant_of (I := fun s => ∀ name, s.abs.Counted name) ?_ fun s a s' hr hinv hs => ?_
  · rintro s rfl name
    refine ⟨fun _ => ⟨rfl, rfl, rfl⟩, fun v _ _ hv => ?_⟩
    cases hv
  · have hs : s.next a = .next s' := hs
    rcases (inv_of_reachable hr).inStep a with ⟨hmap, -⟩ | ⟨hfault, -⟩
    · rw [hs] at hmap
      exact SemMapState.Counted.use hinv (SemMapState.use_of_next hmap.symm)
    · rw [hs] at hfault
      cases hfault

end SemTabState

/-- No more `Wait`s have returned than there were units: those the semaphore was created with, and
one for each `Signal`. -/
def SemLog.Bounded {T : Type*} (l : SemLog T) (v : Int) (name : CStr) : Prop :=
  (l.waits name : Int) ≤ max v 0 + l.signals name

/-- `P` on a semaphore with a value that is not zero returns. -/
theorem SemMapState.next_wait {T : Type*} [DecidableEq T] {m : SemMapState T} {t : T} {name : CStr}
    {sem : Semaphore T} (ht : m.pc t = .outside) (hsem : m.sems name = some sem)
    (hne : sem.value ≠ 0) :
    ∃ m', m.next (.wait t name) = .next m' ∧ m'.log = (m.log.wait name).returned t 0 := by
  simp only [SemMapState.next, ht, hsem, ne_eq, not_true_eq_false, if_false, SemMapState.pass,
    Semaphore.pTest_ne_zero hne]
  exact ⟨_, rfl, rfl⟩

/-- A semaphore can be created with any value but zero, and one `Wait` on it returns at once. -/
theorem SemTabState.reachable_first_wait {T : Type*} [DecidableEq T] (t : T) {v : Int} (hv : v ≠ 0)
    (name : CStr) (hname : name.1.length < semNameSize) : ∃ s, (semTabSystem T).Reachable s ∧
      s.log.created name = some v ∧ s.log.waits name = 1 ∧ s.log.signals name = 0 := by
  have h₀ : (semTabSystem T).Reachable .new := .init rfl
  have hinv₀ := inv_of_reachable h₀
  have hempty : (STable.new : STable T).sems = fun _ => none := by
    funext n
    exact STable.sems_eq_none_iff.mpr fun i e he => by cases he
  -- The table is empty, so the name is absent and there is room.
  have hroom := hinv₀.size_lt_iff.mpr ⟨⟨0, by decide⟩, rfl⟩
  generalize hs₀ : (new : SemTabState T) = s₀ at h₀ hinv₀ hroom
  have hcreate : s₀.abs.next (.create t name v) = .next { s₀.abs with
      sems := update s₀.abs.sems name (some (.new v))
      log := (s₀.abs.log.create name v).returned t 0 } := by
    have ht : s₀.abs.pc t = .outside := by rw [← hs₀]; rfl
    have hnone : s₀.abs.sems name = none := by rw [← hs₀]; exact congrFun hempty name
    simp only [SemMapState.next, ht, ne_eq, not_true_eq_false, if_false]
    rw [if_pos ⟨hnone, hroom⟩]
  obtain ⟨s₁, hs₁, habs₁⟩ := hinv₀.exists_next (a := .create t name v) hname hcreate
  have h₁ := h₀.step (show (semTabSystem T).next s₀ (.create t name v) = _ from hs₁)
  have ht₁ : s₁.abs.pc t = .outside := by rw [habs₁, ← hs₀]; rfl
  have hsem₁ : s₁.abs.sems name = some (.new v) := by
    rw [habs₁]
    exact update_self _ _ _
  obtain ⟨m₂, hm₂, hlog⟩ := SemMapState.next_wait ht₁ hsem₁ hv
  obtain ⟨s₂, hs₂, habs₂⟩ := (inv_of_reachable h₁).exists_next (a := .wait t name) trivial hm₂
  have hlog₂ : s₂.log = (s₁.abs.log.wait name).returned t 0 := by
    rw [← hlog, ← habs₂]
    rfl
  refine ⟨s₂, h₁.step (show (semTabSystem T).next s₁ (.wait t name) = _ from hs₂), ?_, ?_, ?_⟩ <;>
    rw [hlog₂, habs₁, ← hs₀] <;> simp [SemLog.wait, SemLog.returned, SemLog.create,
      SemTabState.abs, new]

/-- **The number of waits.** A user semaphore is created with the value `v`. In every run the number
of `Wait`s on it that have returned is at most `max v 0` and the number of `Signal`s, exactly if
`v` is not negative: `P` only waits while the value is zero, and nobody refuses a negative one. -/
theorem waits_bounded_iff {T : Type*} [DecidableEq T] [Inhabited T] (v : Int) (hlo : minInt ≤ v)
    (hhi : v ≤ maxInt) :
    (∀ s name, (semTabSystem T).Reachable s → s.log.created name = some v → s.log.Bounded v name) ↔
      0 ≤ v := by
  constructor
  · intro hall
    by_contra hneg
    obtain ⟨s, hs, hcreated, hw, hg⟩ :=
      SemTabState.reachable_first_wait (default : T) (show v ≠ 0 by omega) ⟨[], by simp⟩ (by decide)
    have hle := hall s _ hs hcreated
    unfold SemLog.Bounded at hle
    rw [hw, hg] at hle
    omega
  · intro h0 s name hs hcreated
    have hle := ((SemTabState.counted_of_reachable hs name).counts v hlo hhi hcreated).waits_le h0
    change (s.log.waits name : Int) ≤ v + s.log.signals name at hle
    unfold SemLog.Bounded
    omega

/-- A semaphore created with two units, after the first `Wait` on it has returned. -/
theorem waits_bounded_iff_two : ∃ s : SemTabState (Fin 2), (semTabSystem (Fin 2)).Reachable s ∧
    s.log.created ⟨[97], by decide⟩ = some 2 ∧ s.log.waits ⟨[97], by decide⟩ = 1 ∧
    s.log.Bounded 2 ⟨[97], by decide⟩ := by
  obtain ⟨s, hs, hcreated, hw, -⟩ :=
    SemTabState.reachable_first_wait (0 : Fin 2) (show (2 : Int) ≠ 0 by decide) ⟨[97], by decide⟩
      (by decide)
  refine ⟨s, hs, hcreated, hw, ?_⟩
  exact (waits_bounded_iff 2 (by decide) (by decide)).mpr (by decide) s _ hs hcreated

/-- A semaphore created with the value `-1` lets a `Wait` return although nobody has signalled. -/
theorem waits_not_bounded : ∃ s : SemTabState (Fin 1), (semTabSystem (Fin 1)).Reachable s ∧
    s.log.created ⟨[97], by decide⟩ = some (-1) ∧ s.log.signals ⟨[97], by decide⟩ = 0 ∧
    ¬ s.log.Bounded (-1) ⟨[97], by decide⟩ := by
  obtain ⟨s, hs, hcreated, hw, hg⟩ :=
    SemTabState.reachable_first_wait (0 : Fin 1) (show (-1 : Int) ≠ 0 by decide) ⟨[97], by decide⟩
      (by decide)
  refine ⟨s, hs, hcreated, hg, ?_⟩
  unfold SemLog.Bounded
  rw [hw, hg]
  decide

end Nachos.Threads
