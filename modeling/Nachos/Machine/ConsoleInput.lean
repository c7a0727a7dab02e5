import Nachos.Threads.Lock
import Mathlib.Data.List.Basic

namespace Nachos.Machine

open Base Lib Threads Function

/-!
# Machine — console input

`ConsoleInput` holds one character, `incoming`, and polls the keyboard by an interrupt that its
handler schedules again as long as nothing has arrived. When a character arrives the handler
stores it and calls `V`; the next interrupt is scheduled by `ConsoleInput::GetChar`, when the
character has been taken. `SynchConsoleInput::GetChar` lets one thread at a time wait for the
`V` and take the character.

There is no flag beside `incoming`: an empty buffer is the character `EOF`. `InState.Inv` follows
one character from the file to its reader through the three phases `Empty`, `Full` and `Taken`,
and it is an invariant as long as no byte of the file is the one `EOF` stands for. With such a
byte the handler and `GetChar` take a full buffer for an empty one, and polling stops for good.
-/

/-! ### The model -/

/-- `EOF`, as a `char` compares with it. -/
def eof : Int8 := -1

/-- The one byte that reads as `EOF`. -/
theorem toInt8_eq_eof {b : UInt8} : b.toInt8 = eof ↔ b = 255 := by
  constructor
  · intro h
    calc b = b.toInt8.toUInt8 := (UInt8.toUInt8_toInt8 b).symm
      _ = eof.toUInt8 := by rw [h]
      _ = 255 := rfl
  · rintro rfl
    rfl

/-- Where a thread is in `SynchConsoleInput::GetChar`. -/
inductive InPc where
  /-- Not in a call. -/
  | idle
  /-- Before the test of `waitFor->P()`, in or behind `lock->Acquire()`. -/
  | calling
  /-- Asleep in `P`. -/
  | asleep
  /-- Woken in `P`, before the next test. -/
  | woken
  /-- Behind `P`, before `consoleInput->GetChar()`. -/
  | ready
  /-- Behind `consoleInput->GetChar()`, in or before `lock->Release()`. -/
  | served
  deriving DecidableEq

/-- What part of the call this is with respect to the lock. -/
def InPc.stage : InPc → Stage
  | .idle => .idle
  | .calling => .before
  | .asleep | .woken | .ready => .inside
  | .served => .behind

/-- The console input, the file behind it and the threads reading from it. -/
structure InState (T : Type*) where
  lock : LockState T
  waitFor : Semaphore T
  pc : T → InPc
  incoming : Int8
  /-- How many `ConsoleReadInt` interrupts are scheduled. -/
  pending : ℕ
  /-- What is left to read of the UNIX file. -/
  input : List UInt8
  /-- A read of the file has returned 0. -/
  ended : Bool
  /-- What `ConsoleInput::GetChar` has returned, in order. -/
  returned : List Int8

/-- What can happen next. -/
inductive InAction (T : Type*) where
  /-- A thread calls `SynchConsoleInput::GetChar`. -/
  | call (t : T)
  /-- A piece of `lock->Acquire()` or `lock->Release()`. -/
  | lock (a : LockAction T)
  /-- A pass through the test of `waitFor->P()`. -/
  | test (t : T)
  /-- `consoleInput->GetChar()`. -/
  | getChar (t : T)
  /-- The call returns. -/
  | leave (t : T)
  /-- A `ConsoleReadInt` interrupt; `available` is what `PollFile` says. -/
  | interrupt (available : Bool)

namespace InState

variable {T : Type*}

/-- The constructors, on a file with the given contents. -/
def new (stream : List UInt8) : InState T where
  lock := .new
  waitFor := .new 0
  pc := fun _ => .idle
  incoming := eof
  pending := 1
  input := stream
  ended := false
  returned := []

variable [DecidableEq T]

/-- Thread `t` passes the test of `waitFor->P()`. -/
def passTest (s : InState T) (t : T) : Outcome (InState T) :=
  match s.waitFor.pTest t with
  | none => .fault
  | some (sem, true) => .next { s with waitFor := sem, pc := update s.pc t .ready }
  | some (sem, false) => .next { s with waitFor := sem, pc := update s.pc t .asleep }

/-- `ConsoleInput::GetChar`, called by thread `t`. -/
def getChar (s : InState T) (t : T) : InState T :=
  { s with
    pc := update s.pc t .served
    returned := s.returned ++ [s.incoming]
    -- Schedule when the next character will arrive.
    pending := if s.incoming ≠ eof then s.pending + 1 else s.pending
    incoming := eof }

/-- `SynchConsoleInput::CallBack`. -/
def callBack (s : InState T) : InState T :=
  match s.waitFor.v with
  | (sem, none) => { s with waitFor := sem }
  | (sem, some u) => { s with waitFor := sem, pc := update s.pc u .woken }

/-- `ConsoleInput::CallBack`, called for one of the scheduled interrupts. -/
def interrupt (s : InState T) (available : Bool) : Outcome (InState T) :=
  if s.pending = 0 then .disabled
  -- `ASSERT(incoming == EOF)`
  else if s.incoming ≠ eof then .fault
  -- Nothing to be read: the interrupt is scheduled again.
  else if available = false then .next s
  else
    match s.input with
    | [] => .next (callBack { s with pending := s.pending - 1, ended := true })
    | c :: rest =>
      .next (callBack { s with pending := s.pending - 1, input := rest, incoming := c.toInt8 })

/-- One action. -/
def next (s : InState T) : InAction T → Outcome (InState T)
  | .call t =>
    if s.pc t = .idle then .next { s with pc := update s.pc t .calling } else .disabled
  | .lock a =>
    if (s.pc a.thread).stage.allows a then (s.lock.next a).map fun l => { s with lock := l }
    else .disabled
  | .test t =>
    if s.pc t = .calling ∧ s.lock.pc t = .holding ∨ s.pc t = .woken then s.passTest t
    else .disabled
  | .getChar t => if s.pc t = .ready then .next (s.getChar t) else .disabled
  | .leave t =>
    if s.pc t = .served ∧ s.lock.pc t = .outside then
      .next { s with pc := update s.pc t .idle }
    else .disabled
  | .interrupt available => s.interrupt available

end InState

/-- Any number of threads reading from the console. -/
def consoleInputSystem (T : Type*) [DecidableEq T] (stream : List UInt8) :
    LTS (InState T) (InAction T) where
  init := fun s => s = .new stream
  next := InState.next

/-! ### The property -/

/-- The bytes of a file as `GetChar` returns them. -/
def chars (stream : List UInt8) : List Int8 := stream.map UInt8.toInt8

namespace InState

variable {T : Type*}

/-- The character in the buffer that has not been taken, if any. -/
def unread (s : InState T) : List Int8 := if s.incoming = eof then [] else [s.incoming]

/-- Nothing is lost, duplicated or reordered: what has been returned, what is buffered and what
has not been read is the file. Behind the end of the file one `EOF` is returned. -/
def Delivered (stream : List UInt8) (s : InState T) : Prop :=
  if s.ended then
    s.input = [] ∧ s.unread = [] ∧
      (s.returned = chars stream ∨ s.returned = chars stream ++ [eof])
  else s.returned ++ s.unread ++ chars s.input = chars stream

/-- Exactly one interrupt is scheduled, and the buffer is empty. -/
structure Polling (s : InState T) : Prop where
  pending : s.pending = 1
  incoming : s.incoming = eof
  value : s.waitFor.value = 0

/-- Exactly one character is in the buffer, and its unit is in the semaphore. -/
structure Buffered (s : InState T) : Prop where
  pending : s.pending = 0
  incoming : s.incoming ≠ eof
  value : s.waitFor.value = 1

/-- What console input owes its callers. -/
structure Correct [DecidableEq T] (stream : List UInt8) (s : InState T) : Prop where
  no_fault : ∀ a, s.next a ≠ .fault
  delivered : s.Delivered stream
  at_rest : s.ended = false → (∀ t, s.pc t = .idle) → s.Polling ∨ s.Buffered

/-! ### The invariant -/

/-- The buffer is empty: the next interrupt is scheduled, or the end has been reported. -/
structure Empty (stream : List UInt8) (s : InState T) : Prop where
  incoming : s.incoming = eof
  value : s.waitFor.value = 0
  source : s.ended = false ∧ s.pending = 1 ∧ s.returned ++ chars s.input = chars stream ∨
    s.ended = true ∧ s.pending = 0 ∧ s.input = [] ∧ s.returned = chars stream ++ [eof]
  readers : s.waitFor.queue = [] ∧ (∀ t, (s.pc t).stage ≠ .inside) ∨
    ∃ t, s.waitFor.queue = [t] ∧ s.pc t = .asleep

/-- There is a character to take, or the end of the file to report. -/
structure Loaded (stream : List UInt8) (s : InState T) : Prop where
  pending : s.pending = 0
  queue : s.waitFor.queue = []
  source : s.ended = false ∧ s.incoming ≠ eof ∧
      s.returned ++ [s.incoming] ++ chars s.input = chars stream ∨
    s.ended = true ∧ s.incoming = eof ∧ s.input = [] ∧ s.returned = chars stream

/-- `V` has been called for it. -/
structure Full (stream : List UInt8) (s : InState T) : Prop where
  loaded : s.Loaded stream
  value : s.waitFor.value = 1
  readers : ∀ t, (s.pc t).stage = .inside → s.pc t = .woken

/-- A thread has the unit of that `V`. -/
structure Taken (stream : List UInt8) (s : InState T) : Prop where
  loaded : s.Loaded stream
  value : s.waitFor.value = 0
  reader : ∃ t, s.pc t = .ready

/-- The invariant. -/
structure Inv (stream : List UInt8) (s : InState T) : Prop where
  lock : s.lock.Inv
  agrees : ∀ t, (s.pc t).stage.Agrees (s.lock.pc t)
  phase : s.Empty stream ∨ s.Full stream ∨ s.Taken stream

variable {stream : List UInt8} {s s' : InState T} {t u : T}

/-- One thread at a time is inside. -/
theorem Inv.unique (h : s.Inv stream) (ht : s.lock.pc t = .holding)
    (hu : (s.pc u).stage = .inside) : u = t := by
  have hag := h.agrees u
  rw [hu] at hag
  exact h.lock.unique_holding hag ht

theorem Inv.holding (h : s.Inv stream) (ht : (s.pc t).stage = .inside) :
    s.lock.pc t = .holding := by
  have hag := h.agrees t
  rwa [ht] at hag

theorem Inv.pc_eq (h : s.Inv stream) (hhold : s.lock.pc t = .holding) {p : InPc}
    (hp : p.stage = .inside) (hu : s.pc u = p) : s.pc t = p := by
  rw [← h.unique hhold (u := u) (by rw [hu]; exact hp)]
  exact hu

/-- What the place of the thread that holds the lock says about the buffer. -/
theorem Inv.phase_of_holding (h : s.Inv stream) (hhold : s.lock.pc t = .holding) :
    s.Empty stream ∧
        (s.waitFor.queue = [] ∧ (s.pc t).stage ≠ .inside ∨ s.pc t = .asleep) ∨
      s.Full stream ∧ ((s.pc t).stage = .inside → s.pc t = .woken) ∨
      s.Taken stream ∧ s.pc t = .ready := by
  rcases h.phase with he | hf | htk
  · rcases he.readers with ⟨hq, hnone⟩ | ⟨u, -, hu⟩
    · exact .inl ⟨he, .inl ⟨hq, hnone t⟩⟩
    · exact .inl ⟨he, .inr (h.pc_eq hhold rfl hu)⟩
  · exact .inr (.inl ⟨hf, hf.readers t⟩)
  · obtain ⟨u, hu⟩ := htk.reader
    exact .inr (.inr ⟨htk, h.pc_eq hhold rfl hu⟩)

/-- A thread that holds the lock and is before the test finds the buffer empty or full. -/
theorem Inv.phase_of_calling (h : s.Inv stream) (hpc : s.pc t = .calling)
    (hhold : s.lock.pc t = .holding) :
    s.Empty stream ∧ s.waitFor.queue = [] ∨ s.Full stream := by
  simpa [hpc, InPc.stage] using h.phase_of_holding hhold

/-- A woken thread finds the buffer full. -/
theorem Inv.full_of_woken (h : s.Inv stream) (hpc : s.pc t = .woken) : s.Full stream := by
  simpa [hpc, InPc.stage] using h.phase_of_holding (t := t) (h.holding (by rw [hpc]; rfl))

/-- A thread behind `P` has taken the unit. -/
theorem Inv.taken_of_ready (h : s.Inv stream) (hpc : s.pc t = .ready) : s.Taken stream := by
  simpa [hpc, InPc.stage] using h.phase_of_holding (t := t) (h.holding (by rw [hpc]; rfl))

/-! ### What each action keeps -/

variable [DecidableEq T]

theorem Inv.agrees_update (h : s.Inv stream) {c : InPc} (hc : c.stage.Agrees (s.lock.pc t))
    (u : T) : (update s.pc t c u).stage.Agrees (s.lock.pc u) :=
  (Function.forall_update_iff s.pc fun u c => c.stage.Agrees (s.lock.pc u)).mpr
    ⟨hc, fun u _ => h.agrees u⟩ u

/-- A thread moves outside the part of the call that concerns the device. -/
theorem Inv.move (h : s.Inv stream) {c : InPc} (ht : (s.pc t).stage ≠ .inside)
    (hc : c.stage ≠ .inside) (hag : c.stage.Agrees (s.lock.pc t)) :
    ({ s with pc := update s.pc t c } : InState T).Inv stream := by
  -- The threads inside are the same ones, at the same places.
  have hkeep {u : T} {p : InPc} (hp : p.stage = .inside) (hu : s.pc u = p) :
      update s.pc t c u = p := by
    have hut : u ≠ t := by
      rintro rfl
      exact ht (hu ▸ hp)
    rwa [update_of_ne hut]
  have hback {u : T} (hu : (update s.pc t c u).stage = .inside) :
      (s.pc u).stage = .inside := by
    by_cases hut : u = t
    · subst hut
      rw [update_self] at hu
      exact absurd hu hc
    · rwa [update_of_ne hut] at hu
  refine ⟨h.lock, h.agrees_update hag, ?_⟩
  rcases h.phase with ⟨hi, hv, hs, hr⟩ | ⟨⟨hp, hq, hs⟩, hv, hr⟩ | ⟨⟨hp, hq, hs⟩, hv, u, hu⟩
  · refine .inl ⟨hi, hv, hs, ?_⟩
    rcases hr with ⟨hq, hnone⟩ | ⟨u, hq, hu⟩
    · exact .inl ⟨hq, fun u hu => hnone u (hback hu)⟩
    · exact .inr ⟨u, hq, hkeep rfl hu⟩
  · exact .inr (.inl ⟨⟨hp, hq, hs⟩, hv, fun u hu => hkeep rfl (hr u (hback hu))⟩)
  · exact .inr (.inr ⟨⟨hp, hq, hs⟩, hv, u, hkeep rfl hu⟩)

theorem Inv.lockStep (h : s.Inv stream) {a : LockAction T}
    (ha : (s.pc a.thread).stage.allows a = true) {l : LockState T} (hl : s.lock.next a = .next l) :
    ({ s with lock := l } : InState T).Inv stream := by
  refine ⟨h.lock.next hl, h.lock.agrees_next h.agrees ha hl, ?_⟩
  rcases h.phase with ⟨hi, hv, hs, hr⟩ | ⟨⟨hp, hq, hs⟩, hv, hr⟩ | ⟨⟨hp, hq, hs⟩, hv, hr⟩
  · exact .inl ⟨hi, hv, hs, hr⟩
  · exact .inr (.inl ⟨⟨hp, hq, hs⟩, hv, hr⟩)
  · exact .inr (.inr ⟨⟨hp, hq, hs⟩, hv, hr⟩)

/-- With an empty buffer the thread goes to sleep. -/
theorem Inv.sleep (h : s.Inv stream) (he : s.Empty stream) (hq : s.waitFor.queue = [])
    (hhold : s.lock.pc t = .holding) : (s.passTest t).Meets (Inv stream) := by
  unfold passTest
  rw [Semaphore.pTest_zero he.value (by simp [hq])]
  refine ⟨h.lock, h.agrees_update hhold, .inl ⟨he.incoming, he.value, he.source, .inr ⟨t, ?_, ?_⟩⟩⟩
  · simp [hq]
  · simp

/-- With a full one it gets the unit. -/
theorem Inv.take (h : s.Inv stream) (hf : s.Full stream) (hhold : s.lock.pc t = .holding) :
    (s.passTest t).Meets (Inv stream) := by
  unfold passTest
  rw [Semaphore.pTest_ne_zero (by rw [hf.value]; decide)]
  refine ⟨h.lock, h.agrees_update hhold, .inr (.inr ⟨⟨?_, ?_, hf.loaded.source⟩, ?_, t, ?_⟩)⟩
  · exact hf.loaded.pending
  · exact hf.loaded.queue
  · show wrap32 (s.waitFor.value - 1) = 0
    rw [hf.value]; rfl
  · simp

/-- The thread takes what is in the buffer, and polling goes on unless the end was reported. -/
theorem Inv.getChar (h : s.Inv stream) (hpc : s.pc t = .ready) : (s.getChar t).Inv stream := by
  have htk := h.taken_of_ready hpc
  have hhold : s.lock.pc t = .holding := h.holding (by rw [hpc]; rfl)
  refine ⟨h.lock, h.agrees_update (.inl hhold),
    .inl ⟨rfl, htk.value, ?_, .inl ⟨htk.loaded.queue, ?_⟩⟩⟩
  · rcases htk.loaded.source with ⟨hend, hne, hsrc⟩ | ⟨hend, heq, hin, hret⟩
    · refine .inl ⟨hend, ?_, hsrc⟩
      simp [InState.getChar, hne, htk.loaded.pending]
    · refine .inr ⟨hend, ?_, hin, ?_⟩
      · simp [InState.getChar, heq, htk.loaded.pending]
      · simp [InState.getChar, heq, hret]
  · intro u hu
    by_cases hut : u = t
    · subst hut
      simp [InState.getChar, InPc.stage] at hu
    · have hu' : (update s.pc t .served u).stage = .inside := hu
      rw [update_of_ne hut] at hu'
      exact hut (h.unique hhold hu')

/-- The buffer has been filled, and `V` is called for it. -/
theorem Inv.fill (h : s.Inv stream) (he : s.Empty stream) {c : Int8} {pending : ℕ}
    {input : List UInt8} {ended : Bool} (hpending : pending = 0)
    (hsource : ended = false ∧ c ≠ eof ∧ s.returned ++ [c] ++ chars input = chars stream ∨
      ended = true ∧ c = eof ∧ input = [] ∧ s.returned = chars stream) :
    (callBack { s with
      pending := pending, input := input, ended := ended, incoming := c }).Inv stream := by
  have hv : wrap32 (s.waitFor.value + 1) = 1 := by rw [he.value]; rfl
  unfold callBack
  rcases he.readers with ⟨hq, hnone⟩ | ⟨t, hq, ht⟩
  · rw [Semaphore.v_nil hq]
    exact ⟨h.lock, h.agrees, .inr (.inl ⟨⟨hpending, hq, hsource⟩, hv,
      fun u hu => absurd hu (hnone u)⟩)⟩
  · -- The thread made ready is the one inside.
    have hhold : s.lock.pc t = .holding := h.holding (by rw [ht]; rfl)
    rw [Semaphore.v_cons hq]
    refine ⟨h.lock, h.agrees_update hhold,
      .inr (.inl ⟨⟨hpending, rfl, hsource⟩, hv, fun u hu => ?_⟩)⟩
    show update s.pc t .woken u = .woken
    by_cases hut : u = t
    · rw [hut, update_self]
    · have hu' : (update s.pc t .woken u).stage = .inside := hu
      rw [update_of_ne hut] at hu'
      exact absurd (h.unique hhold hu') hut

/-- An interrupt finds the buffer empty, so its assertion holds, and it stores a character that
differs from `EOF`. -/
theorem Inv.interrupt (h : s.Inv stream) (hstream : 255 ∉ stream) (available : Bool) :
    (s.interrupt available).Meets (Inv stream) := by
  unfold InState.interrupt
  split
  · trivial
  rename_i hpending
  -- With an interrupt scheduled the buffer is empty and the file not at its end.
  obtain ⟨he, hend, hone, hsrc⟩ : s.Empty stream ∧ s.ended = false ∧ s.pending = 1 ∧
      s.returned ++ chars s.input = chars stream := by
    rcases h.phase with he | hf | htk
    · rcases he.source with ⟨hend, hone, hsrc⟩ | ⟨-, hzero, -⟩
      · exact ⟨he, hend, hone, hsrc⟩
      · exact absurd hzero hpending
    · exact absurd hf.loaded.pending hpending
    · exact absurd htk.loaded.pending hpending
  have hzero : s.pending - 1 = 0 := by omega
  rw [if_neg (not_not_intro he.incoming)]
  split
  · exact h
  split
  · rename_i hin
    rw [hin] at hsrc
    refine h.fill he hzero (.inr ⟨rfl, he.incoming, hin, ?_⟩)
    simpa [chars] using hsrc
  · rename_i c rest hin
    rw [hin] at hsrc
    refine h.fill he hzero (.inl ⟨hend, ?_, ?_⟩)
    · -- `c` is a byte of the file.
      have hmem : c.toInt8 ∈ chars stream := by
        rw [← hsrc]; simp [chars]
      obtain ⟨b, hb, hbc⟩ := List.mem_map.mp hmem
      rw [← hbc]
      intro heof
      exact hstream (toInt8_eq_eof.mp heof ▸ hb)
    · simpa [chars] using hsrc

/-- Every action keeps the invariant and trips no check. -/
theorem Inv.next (h : s.Inv stream) (hstream : 255 ∉ stream) (a : InAction T) :
    (s.next a).Meets (Inv stream) := by
  cases a with
  | call t =>
    refine Outcome.Meets.ite fun hpc => h.move (by rw [hpc]; decide) (by decide) ?_
    have hag := h.agrees t
    rw [hpc] at hag
    show s.lock.pc t ≠ .releasing
    rw [show s.lock.pc t = .outside from hag]
    decide
  | lock a =>
    refine Outcome.Meets.ite fun ha => ?_
    cases hl : s.lock.next a with
    | disabled => trivial
    | fault => exact absurd hl (h.lock.no_fault a)
    | next l => exact h.lockStep ha hl
  | test t =>
    refine Outcome.Meets.ite fun ht => ?_
    rcases ht with ⟨hpc, hhold⟩ | hpc
    · rcases h.phase_of_calling hpc hhold with ⟨he, hq⟩ | hf
      · exact h.sleep he hq hhold
      · exact h.take hf hhold
    · exact h.take (h.full_of_woken hpc) (h.holding (by rw [hpc]; rfl))
  | getChar t => exact Outcome.Meets.ite fun hpc => h.getChar hpc
  | leave t =>
    refine Outcome.Meets.ite fun ⟨hpc, hout⟩ => ?_
    exact h.move (by rw [hpc]; decide) (by decide) hout
  | interrupt available => exact h.interrupt hstream available

omit [DecidableEq T] in
theorem Inv.new (stream : List UInt8) : (InState.new stream : InState T).Inv stream where
  lock := .new
  agrees := fun _ => rfl
  phase :=
    .inl ⟨rfl, rfl, .inl ⟨rfl, rfl, rfl⟩, .inl ⟨rfl, fun _ => (by decide : Stage.idle ≠ .inside)⟩⟩

/-! ### What the invariant says -/

omit [DecidableEq T] in
theorem Loaded.delivered (h : s.Loaded stream) : s.Delivered stream := by
  unfold Delivered unread
  rcases h.source with ⟨hend, hne, hsrc⟩ | ⟨hend, heq, hin, hret⟩
  · simpa [hend, hne] using hsrc
  · simp [hend, heq, hin, hret]

omit [DecidableEq T] in
theorem Inv.delivered (h : s.Inv stream) : s.Delivered stream := by
  rcases h.phase with he | hf | htk
  · unfold Delivered unread
    rcases he.source with ⟨hend, -, hsrc⟩ | ⟨hend, -, hin, hret⟩
    · simpa [hend, he.incoming] using hsrc
    · simp [hend, he.incoming, hin, hret]
  · exact hf.loaded.delivered
  · exact htk.loaded.delivered

omit [DecidableEq T] in
theorem Inv.at_rest (h : s.Inv stream) (hend : s.ended = false) (hidle : ∀ t, s.pc t = .idle) :
    s.Polling ∨ s.Buffered := by
  rcases h.phase with he | hf | htk
  · rcases he.source with ⟨-, hone, -⟩ | ⟨hend', -⟩
    · exact .inl ⟨hone, he.incoming, he.value⟩
    · rw [hend] at hend'
      cases hend'
  · rcases hf.loaded.source with ⟨-, hne, -⟩ | ⟨hend', -⟩
    · exact .inr ⟨hf.loaded.pending, hne, hf.value⟩
    · rw [hend] at hend'
      cases hend'
  · obtain ⟨t, ht⟩ := htk.reader
    rw [hidle t] at ht
    cases ht

theorem Inv.correct (h : s.Inv stream) (hstream : 255 ∉ stream) : s.Correct stream where
  no_fault := fun a => (h.next hstream a).ne_fault
  delivered := h.delivered
  at_rest := h.at_rest

end InState

theorem console_input_inv {T : Type*} [DecidableEq T] {stream : List UInt8}
    (hstream : 255 ∉ stream) {s : InState T} (h : (consoleInputSystem T stream).Reachable s) :
    s.Inv stream :=
  (h.safe (I := InState.Inv stream) (by rintro s rfl; exact .new stream)
    (fun _ a hi => hi.next hstream a)).1

/-! ### The byte that reads as `EOF` -/

namespace InState

variable {T : Type*}

/-- Nobody is in a call and the next interrupt is scheduled. -/
def atRest (returned : List Int8) (input : List UInt8) : InState T :=
  { new input with returned := returned }

variable [DecidableEq T]

/-- A byte arrives and thread `t` takes it. -/
def round (t : T) : List (InAction T) :=
  [.interrupt true, .call t, .lock (.acquire t), .lock (.setHolder t), .test t, .getChar t,
    .lock (.release t), .lock (.releaseV t), .leave t]

/-- A round leads back to the same state, except that no interrupt is scheduled if the byte reads
as `EOF`. -/
theorem exec_round {stream : List UInt8} (t : T) (returned : List Int8) (c : UInt8)
    (rest : List UInt8) :
    (consoleInputSystem T stream).exec (atRest returned (c :: rest)) (round t) =
      some { atRest (returned ++ [c.toInt8]) rest with
        pending := if c.toInt8 ≠ eof then 1 else 0 } := by
  have h0 : wrap32 0 = 0 := rfl
  have h1 : wrap32 1 = 1 := rfl
  simp [LTS.exec, round, consoleInputSystem, InState.next, atRest, InState.new, InState.interrupt,
    callBack, Semaphore.v, Semaphore.new, LockState.new, removeFront, LockState.next, Stage.allows,
    InPc.stage, LockAction.thread, LockState.enter, Semaphore.pTest, passTest, InState.getChar, h0,
    h1, LockState.isHeldBy]

/-- The bytes before the first one that reads as `EOF` can be taken one after the other. -/
theorem reachable_atRest {stream input rest : List UInt8} {returned : List Int8} (t : T)
    (h : (consoleInputSystem T stream).Reachable (atRest returned (input ++ rest)))
    (hinput : 255 ∉ input) :
    (consoleInputSystem T stream).Reachable (atRest (returned ++ chars input) rest) := by
  induction input generalizing returned with
  | nil => simpa [chars] using h
  | cons c input ih =>
    obtain ⟨hc, hinput⟩ := not_or.mp (mt List.mem_cons.mpr hinput)
    have hround := h.exec (exec_round t returned c (input ++ rest))
    rw [if_pos fun heof => hc (toInt8_eq_eof.mp heof).symm] at hround
    have hrest := ih (show (consoleInputSystem T stream).Reachable
      (atRest (returned ++ [c.toInt8]) (input ++ rest)) from hround) hinput
    rwa [List.append_assoc] at hrest

/-- The state behind that byte: it has been returned, and nobody will ever poll again. -/
def stopped (returned : List Int8) (input : List UInt8) : InState T :=
  { atRest (returned ++ [eof]) input with pending := 0 }

theorem reachable_stopped {returned : List Int8} {stream rest : List UInt8} (t : T)
    (h : (consoleInputSystem T stream).Reachable (atRest returned (255 :: rest))) :
    (consoleInputSystem T stream).Reachable (stopped returned rest) := by
  have hround := h.exec (exec_round t returned 255 rest)
  rwa [if_neg (not_not_intro (toInt8_eq_eof.mpr rfl)), toInt8_eq_eof.mpr rfl] at hround

/-- No interrupt is scheduled, and no character is buffered. -/
theorem not_correct_stopped (stream : List UInt8) (returned : List Int8) (rest : List UInt8) :
    ¬ (stopped returned rest : InState T).Correct stream := by
  intro h
  rcases h.at_rest rfl fun _ => rfl with hp | hb
  · exact absurd hp.pending Nat.zero_ne_one
  · exact absurd hb.value Int.zero_ne_one

end InState

/-- **Console input loses nothing, unless it contains the byte 255.** Whatever the threads and the
interrupts do, the threads get the bytes of the file in order and each once, the assertion of
the handler holds, and between the calls there is exactly one interrupt scheduled or exactly
one character buffered, if and only if no byte of the file reads as `EOF`. -/
theorem console_input_lossless_iff (T : Type*) [DecidableEq T] [Inhabited T] (stream : List UInt8) :
    (∀ s, (consoleInputSystem T stream).Reachable s → s.Correct stream) ↔ 255 ∉ stream := by
  constructor
  · intro hall hmem
    obtain ⟨input, rest, rfl, hinput⟩ := List.eq_append_cons_of_mem hmem
    have hstart : (consoleInputSystem T (input ++ 255 :: rest)).Reachable
        (.atRest [] (input ++ 255 :: rest)) := .init rfl
    have hrest := InState.reachable_atRest default hstart hinput
    exact InState.not_correct_stopped _ _ _ (hall _ (InState.reachable_stopped default hrest))
  · intro hstream s hs
    exact (console_input_inv hstream hs).correct hstream

/-- The byte 255 is returned, the one behind it will never be read, and the end of the file will
never be reported. -/
theorem console_input_stopped :
    ∃ s : InState (Fin 1), (consoleInputSystem (Fin 1) [255, 65]).Reachable s ∧
      s.returned = [-1] ∧ s.input = [65] ∧ s.ended = false ∧ s.pending = 0 ∧
      s.waitFor.value = 0 ∧ (∀ t, s.pc t = .idle) ∧ ¬ s.Correct [255, 65] :=
  ⟨.stopped [] [65], InState.reachable_stopped 0 (.init rfl), rfl, rfl, rfl, rfl, rfl, fun _ => rfl,
    InState.not_correct_stopped _ _ _⟩

end Nachos.Machine
