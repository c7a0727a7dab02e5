import Nachos.Base.Transition
import Nachos.Machine.Registers

namespace Nachos.Threads

open Base Machine Function

/-!
# Threads — context switches between user programs

There is one machine, and every thread with an address space runs its program on it.
`Scheduler::Run` saves the registers of the thread it leaves if that thread has an address
space, and the thread that comes back from its own call of `Run` restores its registers and its
page table if it has one. A thread that runs for the first time comes out of `SWITCH` in
`ThreadRoot` and restores nothing.

Between switches the current thread does what it likes to the registers, and `Execute` turns it
into a user program. `SwitchState.Inv` says what the machine owes each user program: the
current one finds its page table installed, and the others have their registers saved.
-/

/-! ### The model -/

/-- The part of an `AddrSpace` that the machine points into: the page table, by its address, and
its size. `Load` sets both before `Execute`, and nothing changes them afterwards. -/
structure SpaceTable (P : Type*) where
  pageTable : Option P
  numPages : ℕ
  deriving DecidableEq

/-- The state of the machine a user program sees. -/
structure UserView (P : Type*) where
  registers : Registers
  pageTable : Option P
  pageTableSize : ℕ
  deriving DecidableEq

/-- The machine and the threads. -/
structure SwitchState (T P : Type*) where
  machine : UserView P
  currentThread : T
  /-- `Thread::space`, `none` for `NULL`. -/
  space : T → Option (SpaceTable P)
  userRegisters : T → Registers
  /-- What the machine held when the thread last called `Run`; `none` before the first call. -/
  called : T → Option (UserView P)

/-- What the current thread can do. -/
inductive SwitchAction (T P : Type*) where
  /-- It, or the program it runs, changes the registers. -/
  | setRegisters (r : Registers)
  /-- `AddrSpace::Execute`, up to the jump into the program. -/
  | execute (a : SpaceTable P)
  /-- `AddrSpace::RestoreState` on its address space, or on any one if it has none. -/
  | restoreState (a : SpaceTable P)
  /-- `Scheduler::Run`. -/
  | run (nextThread : T)

namespace UserView

variable {P : Type*}

/-- `AddrSpace::RestoreState`. -/
def restoreState (m : UserView P) (a : SpaceTable P) : UserView P :=
  { m with pageTable := a.pageTable, pageTableSize := a.numPages }

/-- The page table of `a` is installed. -/
def Installed (m : UserView P) (a : SpaceTable P) : Prop :=
  m.pageTable = a.pageTable ∧ m.pageTableSize = a.numPages

end UserView

namespace SwitchState

variable {T P : Type*} [DecidableEq T] [DecidableEq P]

/-- The processor goes to `nextThread`; what the machine holds is recorded for the thread left. -/
def setCurrent (s : SwitchState T P) (nextThread : T) : SwitchState T P :=
  { s with
    called := update s.called s.currentThread (some s.machine)
    currentThread := nextThread }

/-- The part of `Run` before `SWITCH`: a user program has its registers saved.
`AddrSpace::SaveState` does nothing. -/
def switchOut (s : SwitchState T P) (nextThread : T) : Option (SwitchState T P) :=
  match s.space s.currentThread with
  | none => some (s.setCurrent nextThread)
  | some _ =>
    -- `Thread::SaveUserState`
    (s.machine.registers.copyTo (s.userRegisters s.currentThread)).map fun r =>
      { s.setCurrent nextThread with
        userRegisters := update s.userRegisters s.currentThread r }

/-- The part of `Run` after `SWITCH`, in the thread that comes back to it. -/
def switchIn (s : SwitchState T P) : Option (SwitchState T P) :=
  match s.space s.currentThread with
  | none => some s
  | some a =>
    -- `Thread::RestoreUserState`
    ((s.userRegisters s.currentThread).copyTo s.machine.registers).map fun r =>
      { s with machine := { s.machine with registers := r }.restoreState a }

/-- `Scheduler::Run`, up to where the next thread goes on. -/
def run (s : SwitchState T P) (nextThread : T) : Option (SwitchState T P) :=
  (s.switchOut nextThread).bind fun s₁ =>
    match s₁.called nextThread with
    -- `SWITCH` enters `ThreadRoot`.
    | none => some s₁
    | some _ => s₁.switchIn

/-- `AddrSpace::Execute`. -/
def execute (s : SwitchState T P) (a : SpaceTable P) : Option (SwitchState T P) :=
  (s.machine.registers.initRegisters a.numPages).map fun r =>
    { s with
      space := update s.space s.currentThread (some a)
      machine := { s.machine with registers := r }.restoreState a }

/-- One step. -/
def next (s : SwitchState T P) : SwitchAction T P → Outcome (SwitchState T P)
  | .setRegisters r => .next { s with machine := { s.machine with registers := r } }
  | .execute a =>
    match s.execute a with
    | none => .fault
    | some s' => .next s'
  | .restoreState a =>
    if s.space s.currentThread = none ∨ s.space s.currentThread = some a then
      .next { s with machine := s.machine.restoreState a }
    else .disabled
  | .run n =>
    match s.run n with
    | none => .fault
    | some s' => .next s'

end SwitchState

/-- Any number of threads on one machine; at the start no thread has an address space or has
given up the processor. -/
def switchSystem (T P : Type*) [DecidableEq T] [DecidableEq P] :
    LTS (SwitchState T P) (SwitchAction T P) where
  init := fun s => (∀ t, s.space t = none) ∧ ∀ t, s.called t = none
  next := SwitchState.next

/-! ### The invariant -/

namespace SwitchState

variable {T P : Type*}

/-- What a user program that does not have the processor has stored away. -/
def Saved (s : SwitchState T P) (t : T) (a : SpaceTable P) : Prop :=
  ∃ m, s.called t = some m ∧ s.userRegisters t = m.registers ∧ m.Installed a

/-- The current program has its page table installed, the others have all they need saved. -/
structure Inv (s : SwitchState T P) : Prop where
  current : ∀ a, s.space s.currentThread = some a → s.machine.Installed a
  saved : ∀ t a, t ≠ s.currentThread → s.space t = some a → s.Saved t a

variable [DecidableEq T] [DecidableEq P] {s s' : SwitchState T P}

omit [DecidableEq P] in
/-- Leaving a thread saves what the machine holds, and every user program has now been saved. -/
theorem Inv.switchOut (h : s.Inv) (n : T) :
    ∃ s₁, s.switchOut n = some s₁ ∧ s₁.currentThread = n ∧ s₁.space = s.space ∧
      s₁.called = update s.called s.currentThread (some s.machine) ∧
      ∀ t a, s.space t = some a → s₁.Saved t a := by
  cases hsp : s.space s.currentThread with
  | none =>
    refine ⟨s.setCurrent n, by simp only [SwitchState.switchOut, hsp], rfl, rfl, rfl,
      fun t a ha => ?_⟩
    have ht : t ≠ s.currentThread := by rintro rfl; rw [hsp] at ha; cases ha
    obtain ⟨m, hm, hr, hi⟩ := h.saved t a ht ha
    exact ⟨m, by simp [setCurrent, ht, hm], hr, hi⟩
  | some b =>
    refine ⟨{ s.setCurrent n with
        userRegisters := update s.userRegisters s.currentThread s.machine.registers },
      by simp only [SwitchState.switchOut, hsp, Registers.copyTo_eq, Option.map_some],
      rfl, rfl, rfl, fun t a ha => ?_⟩
    by_cases ht : t = s.currentThread
    · subst ht
      exact ⟨s.machine, by simp [setCurrent], by simp, h.current a ha⟩
    · obtain ⟨m, hm, hr, hi⟩ := h.saved t a ht ha
      exact ⟨m, by simp [setCurrent, ht, hm], by simp [ht, hr], hi⟩

omit [DecidableEq T] [DecidableEq P] in
/-- Coming back restores what was saved. -/
theorem switchIn_of_saved {a : SpaceTable P} (ha : s.space s.currentThread = some a)
    (hsaved : s.Saved s.currentThread a) :
    ∃ m, s.called s.currentThread = some m ∧ s.switchIn = some { s with machine := m } := by
  obtain ⟨m, hm, hr, hp, hn⟩ := hsaved
  refine ⟨m, hm, ?_⟩
  rw [switchIn, ha]
  show Option.map _ (Registers.copyTo _ _) = _
  rw [Registers.copyTo_eq, hr, Option.map_some]
  simp only [UserView.restoreState, ← hp, ← hn]

omit [DecidableEq P] in
/-- **One call of `Run`.** It returns in the next thread; a user program finds the machine as it
was when it called `Run` itself. -/
theorem Inv.run (h : s.Inv) (n : T) :
    ∃ s', s.run n = some s' ∧ s'.Inv ∧ s'.currentThread = n ∧
      s'.called = update s.called s.currentThread (some s.machine) ∧
      (s.space n ≠ none → s'.called n = some s'.machine) := by
  obtain ⟨s₁, hs₁, hcur, hspace, hcalled, hsaved⟩ := h.switchOut n
  cases hn : s.space n with
  | none =>
    -- A thread without an address space, new or not, leaves the machine alone.
    have hrun : s.run n = some s₁ := by
      rw [SwitchState.run, hs₁, Option.bind_some]
      cases hc : s₁.called n with
      | none => rfl
      | some m => simp only [switchIn, hcur, hspace, hn]
    refine ⟨s₁, hrun, ⟨fun a ha => ?_, fun t a ht ha => ?_⟩, hcur, hcalled, fun hne =>
      absurd rfl hne⟩
    · rw [hcur, hspace, hn] at ha
      cases ha
    · exact hsaved t a (hspace ▸ ha)
  | some a =>
    obtain ⟨m, hm, hin⟩ := switchIn_of_saved (s := s₁) (by rw [hcur, hspace, hn])
      (hcur ▸ hsaved n a hn)
    have hrun : s.run n = some { s₁ with machine := m } := by
      rw [SwitchState.run, hs₁, Option.bind_some]
      rw [hcur] at hm
      simp only [hm, hin]
    rw [hcur] at hm
    refine ⟨_, hrun, ⟨fun b hb => ?_, fun t b ht hb => ?_⟩, hcur, hcalled, fun _ => hm⟩
    · obtain ⟨m', hm', -, hi⟩ := hsaved n b (by rw [← hspace, ← hcur]; exact hb)
      rw [hm] at hm'
      cases hm'
      exact hi
    · exact hsaved t b (hspace ▸ hb)

/-- Every action keeps the invariant and trips no check. -/
theorem Inv.next (h : s.Inv) (l : SwitchAction T P) : (s.next l).Meets Inv := by
  cases l with
  | setRegisters r => exact ⟨h.current, h.saved⟩
  | execute a =>
    simp only [SwitchState.next, SwitchState.execute, Registers.initRegisters_eq, Option.map_some,
      Outcome.meets_next]
    refine ⟨fun b hb => ?_, fun t b ht hb => ?_⟩
    · have hab : a = b := by simpa using hb
      exact hab ▸ ⟨rfl, rfl⟩
    · exact h.saved t b ht (by simpa [show t ≠ s.currentThread from ht] using hb)
  | restoreState a =>
    apply Outcome.Meets.ite
    intro hsp
    refine ⟨fun b hb => ?_, h.saved⟩
    rcases hsp with hsp | hsp
    · exact absurd (hb.symm.trans hsp) (Option.some_ne_none b)
    · have hab : a = b := by simpa using hsp.symm.trans hb
      exact hab ▸ ⟨rfl, rfl⟩
  | run n =>
    obtain ⟨s', hs', hinv, -⟩ := h.run n
    simpa only [SwitchState.next, hs', Outcome.meets_next] using hinv

end SwitchState

/-- **Context switches are transparent.** In every state of every run a call of `Run` returns in
the next thread; it records what the machine held for the thread that called it; and if the
next thread is a user program, the machine holds what it held when that thread called `Run`,
be that this call or an earlier one. -/
theorem run_restores_user_program {T P : Type*} [DecidableEq T] [DecidableEq P]
    (s : SwitchState T P) (h : (switchSystem T P).Reachable s) (n : T) :
    ∃ s', s.next (.run n) = .next s' ∧ s'.currentThread = n ∧
      (∀ t, s'.called t = if t = s.currentThread then some s.machine else s.called t) ∧
      (s.space n ≠ none → s'.called n = some s'.machine) := by
  have hinv : s.Inv := by
    refine (h.safe (I := SwitchState.Inv) ?_ (fun _ l hi => hi.next l)).1
    rintro s ⟨hspace, -⟩
    exact ⟨fun a ha => absurd ((hspace _).symm.trans ha) nofun,
      fun t a _ ha => absurd ((hspace t).symm.trans ha) nofun⟩
  obtain ⟨s', hs', -, hcur, hcalled, hback⟩ := hinv.run n
  refine ⟨s', by simp only [SwitchState.next, hs'], hcur, fun t => ?_, hback⟩
  rw [hcalled, update_apply]

/-- Two programs alternate: the first one finds its registers and its page table again. -/
theorem run_restores_user_program_alternating :
    ∃ s s' : SwitchState Bool ℕ,
      s.machine = ⟨Vector.replicate _ 2, some 1, 5⟩ ∧ s.next (.run false) = .next s' ∧
        s'.machine = ⟨Vector.replicate _ 1, some 0, 3⟩ := by
  obtain ⟨s, hs, hmach, hcur, hspace, hcalled⟩ := (switchSystem Bool ℕ).reaches
    (s := { machine := ⟨Vector.replicate _ 0, none, 0⟩, currentThread := false
            space := fun _ => none
            userRegisters := fun _ => Vector.replicate _ 0, called := fun _ => none })
    ⟨fun _ => rfl, fun _ => rfl⟩
    [.execute ⟨some 0, 3⟩, .setRegisters (Vector.replicate _ 1), .run true,
      .execute ⟨some 1, 5⟩, .setRegisters (Vector.replicate _ 2)]
    (fun s => s.machine = ⟨Vector.replicate _ 2, some 1, 5⟩ ∧ s.currentThread = true ∧
      s.space false = some ⟨some 0, 3⟩ ∧ s.called false = some ⟨Vector.replicate _ 1, some 0, 3⟩)
    (by decide)
  obtain ⟨s', hs', -, hlog, hback⟩ := run_restores_user_program s hs false
  refine ⟨s, s', hmach, hs', ?_⟩
  have hb := hback (by rw [hspace]; nofun)
  rw [hlog, hcur, if_neg (by decide), hcalled, Option.some.injEq] at hb
  exact hb.symm

end Nachos.Threads
