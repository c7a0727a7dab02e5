import Nachos.Threads.Steps

namespace Nachos.Threads

open Base Lib

/-!
# Threads — the locks of the kernel

Two semaphores of the kernel are used as locks: `PTable::sem` around `ExecUpdate` and
`kernel->addrLock` around `AddrSpace::Load`. `Token` says that the one unit of such a semaphore
is in its value, or with the one thread that is inside. It is kept because a `P` on a lock
leads into it (`Acquires.enters`), a `V` on it leads out of it (`Releases.leaves`), and no other
step enters or leaves (`LockInv.step`); `kernelLock_inv` states it for every reachable state.
-/

variable {T N : Type*} {q : ProcPc N} {k : Point N}

/-- The two semaphores that are used as locks: `PTable::sem` and `kernel->addrLock`. -/
inductive KernelLock where
  | table
  | addrLock
  deriving DecidableEq

/-- How the code names the semaphore. -/
def KernelLock.ref : KernelLock → SemRef
  | .table => .table
  | .addrLock => .addrLock

/-- The code that comes right after the `P` of the lock. -/
def Point.entry : KernelLock → Point N → Bool
  | .table, .execBody _ => true
  | .addrLock, .load _ => true
  | _, _ => false

/-- The code that comes next is between the `P` and the `V` of the lock. -/
def Point.holds : KernelLock → Point N → Bool
  | .table, .execBody _ => true
  | .table, .fork _ _ _ => true
  | .table, .forked _ _ => true
  | .table, .execDone _ => true
  | .addrLock, .load _ => true
  | _, _ => false

/-- The thread is inside the lock: past its `P`, and perhaps inside that of another semaphore. -/
def ProcPc.holds (l : KernelLock) : ProcPc N → Bool
  | .unborn => false
  | .at k => k.holds l
  | .inP r k _ => decide (r ≠ l.ref) && k.holds l

namespace ProcState

variable {s s' : ProcState T N} {t : T}

/-- The semaphore behind the lock. -/
def lock (s : ProcState T N) : KernelLock → Semaphore T
  | .table => s.sem
  | .addrLock => s.addrLock

/-- The one unit of the lock is in its semaphore, or one thread has it. -/
def Token (s : ProcState T N) (l : KernelLock) : Prop :=
  ((s.lock l).value = 1 ∧ ∀ t, (s.pc t).holds l = false) ∨
  ((s.lock l).value = 0 ∧ ∃ t, (s.pc t).holds l = true ∧ ∀ u, (s.pc u).holds l = true → u = t)

/-- The invariant of a lock: its unit is in one place, and the threads inside its `P` are those
on the way into the lock. -/
structure LockInv (s : ProcState T N) (l : KernelLock) : Prop where
  token : s.Token l
  waits : ∀ t r k b, s.pc t = .inP r k b → (r = l.ref ↔ k.entry l = true)

variable {l : KernelLock}

theorem getSem_ref (s : ProcState T N) (l : KernelLock) : s.getSem l.ref = some (s.lock l) := by
  cases l <;> rfl

theorem lock_setSem (s : ProcState T N) (r : SemRef) (x : Semaphore T) (l : KernelLock) :
    (s.setSem r x).lock l = if r = l.ref then x else s.lock l := by
  cases l <;> cases r <;> rfl

@[simp] theorem lock_setPc [DecidableEq T] (s : ProcState T N) (t : T) (q : ProcPc N)
    (l : KernelLock) : (s.setPc t q).lock l = s.lock l := by
  cases l <;> rfl

end ProcState

@[simp] theorem ProcPc.holds_at (l : KernelLock) (k : Point N) :
    (ProcPc.at k).holds l = k.holds l := rfl

/-- Being made ready is neither entering a lock nor leaving it. -/
theorem ProcPc.Moved.holds {q' : ProcPc N} (h : q.Moved q') (l : KernelLock) :
    q'.holds l = q.holds l := by
  rcases h with rfl | ⟨r, k, b, rfl, rfl⟩
  · rfl
  · rfl

namespace ProcState

variable {s s' : ProcState T N} {t : T} {l : KernelLock}

/-- Nobody enters or leaves the lock. -/
theorem Token.congr (h : s.Token l) (hvalue : (s'.lock l).value = (s.lock l).value)
    (hpc : ∀ u, (s'.pc u).holds l = (s.pc u).holds l) : s'.Token l := by
  unfold Token at h ⊢
  rw [hvalue]
  simpa only [hpc] using h

/-- One of the threads moves; what the others hold stays. -/
theorem holds_of_ne (hother : ∀ u, u ≠ t → (s.pc u).Moved (s'.pc u))
    (ht : (s'.pc t).holds l = (s.pc t).holds l) (u : T) :
    (s'.pc u).holds l = (s.pc u).holds l := by
  by_cases hu : u = t
  · rw [hu]; exact ht
  · exact (hother u hu).holds l

/-- Who takes the unit out of the semaphore has it. -/
theorem Token.enter (h : s.Token l) (hne : (s.lock l).value ≠ 0)
    (hvalue : (s'.lock l).value = wrap32 ((s.lock l).value - 1))
    (hother : ∀ u, u ≠ t → (s.pc u).Moved (s'.pc u)) (ht : (s'.pc t).holds l = true) :
    s'.Token l := by
  rcases h with ⟨hone, hnone⟩ | ⟨hzero, -⟩
  · rw [hone] at hvalue
    refine .inr ⟨hvalue, t, ht, fun u hu => ?_⟩
    by_contra hut
    rw [(hother u hut).holds l, hnone u] at hu
    cases hu
  · exact absurd hzero hne

/-- Who has the unit puts it back. -/
theorem Token.leave (h : s.Token l) (hown : (s.pc t).holds l = true)
    (hvalue : (s'.lock l).value = wrap32 ((s.lock l).value + 1))
    (hother : ∀ u, u ≠ t → (s.pc u).Moved (s'.pc u)) (ht : (s'.pc t).holds l = false) :
    s'.Token l := by
  rcases h with ⟨-, hnone⟩ | ⟨hzero, w, -, hunique⟩
  · rw [hnone t] at hown
    cases hown
  · rw [hzero] at hvalue
    refine .inl ⟨hvalue, fun u => ?_⟩
    by_cases hut : u = t
    · rw [hut]; exact ht
    · by_contra hu
      rw [(hother u hut).holds l, Bool.not_eq_false] at hu
      exact hut ((hunique u hu).trans (hunique t hown).symm)

variable [DecidableEq T]

/-- A `P` by a thread that is on the way into the lock if the semaphore is that of the lock. -/
theorem Token.p (h : s.Token l) {r : SemRef} {k : Point N} (hs : s.p t r k = .next s')
    (hin : r = l.ref → k.holds l = true)
    (hq : (ProcPc.inP r k false).holds l = (s.pc t).holds l) : s'.Token l := by
  have hother : ∀ u, u ≠ t → (s.pc u).Moved (s'.pc u) := fun u hu => .inl ((p_pc hs).2 u hu)
  obtain ⟨x, x', hx, ⟨hne, hvalue, rfl⟩ | ⟨h0, hvalue, rfl⟩⟩ := p_cases hs
  · by_cases hr : r = l.ref
    · subst hr
      obtain rfl : s.lock l = x := Option.some.inj ((getSem_ref s l).symm.trans hx)
      refine h.enter hne ?_ hother ?_
      · rw [lock_setPc, lock_setSem, if_pos rfl, hvalue]
      · simpa [setPc] using hin rfl
    · refine h.congr ?_ (holds_of_ne hother ?_)
      · rw [lock_setPc, lock_setSem, if_neg hr]
      · rw [← hq]
        simp [setPc, ProcPc.holds, hr]
  · refine h.congr ?_ (holds_of_ne hother ?_)
    · rw [lock_setPc, lock_setSem]
      split
      · rename_i hr
        subst hr
        obtain rfl : s.lock l = x := Option.some.inj ((getSem_ref s l).symm.trans hx)
        rw [hvalue, h0]
      · rfl
    · rw [← hq]
      simp [setPc]

/-- What a `V` does to the value of a lock. -/
theorem v_lock {r : SemRef} {k : Point N} (hs : s.v t r k = .next s') (l : KernelLock) :
    (s'.lock l).value
      = if r = l.ref then wrap32 ((s.lock l).value + 1) else (s.lock l).value := by
  obtain ⟨x, x', hx, hvalue, hs'⟩ := v_cases hs
  have hlock : s'.lock l = (s.setSem r x').lock l := by
    rcases hs' with rfl | ⟨w, rfl⟩
    · rw [lock_setPc]
    · obtain ⟨q, hq, -⟩ := wake_cases (s.setSem r x') w
      rw [hq, lock_setPc, lock_setPc]
  rw [hlock, lock_setSem]
  split
  · rename_i hr
    subst hr
    obtain rfl : s.lock l = x := Option.some.inj ((getSem_ref s l).symm.trans hx)
    exact hvalue
  · rfl

/-- A `V` by a thread that is inside the lock if the semaphore is that of the lock. -/
theorem Token.v (h : s.Token l) {r : SemRef} {k : Point N} (hs : s.v t r k = .next s')
    (hown : r = l.ref → (s.pc t).holds l = true ∧ k.holds l = false)
    (hq : r ≠ l.ref → k.holds l = (s.pc t).holds l) : s'.Token l := by
  obtain ⟨hat, hother⟩ := v_pc hs
  have hvalue := v_lock hs l
  by_cases hr : r = l.ref
  · rw [if_pos hr] at hvalue
    refine h.leave (hown hr).1 hvalue hother ?_
    rw [hat]
    exact (hown hr).2
  · rw [if_neg hr] at hvalue
    refine h.congr hvalue (holds_of_ne hother ?_)
    rw [hat]
    exact hq hr

end ProcState

theorem Point.holds_of_entry {l : KernelLock} (h : k.entry l = true) :
    k.holds l = true := by
  cases l <;> cases k <;> first | rfl | cases h

/-- Before a `P` a thread is not inside the lock it takes, and the lock it has it keeps. -/
theorem Acquires.holds {r : SemRef} (h : Acquires q r k)
    (l : KernelLock) : (ProcPc.inP r k false).holds l = q.holds l := by
  cases h <;> cases l <;> rfl

/-- The `P` of a lock, and no other, leads to its entry. -/
theorem Acquires.enters {r : SemRef} (h : Acquires q r k)
    (l : KernelLock) : (r = l.ref ↔ k.entry l = true) ∨ q = .inP r k true := by
  cases h <;> cases l <;> simp [Point.entry, KernelLock.ref]

/-- A lock is released by who is inside it, who then is outside. -/
theorem Releases.leaves {r : SemRef} (h : Releases q r k)
    {l : KernelLock} (hr : r = l.ref) : q.holds l = true ∧ k.holds l = false := by
  cases h <;> cases l <;> cases hr <;> exact ⟨rfl, rfl⟩

/-- The release of another semaphore does not matter for a lock. -/
theorem Releases.holds {r : SemRef} (h : Releases q r k)
    {l : KernelLock} (hr : r ≠ l.ref) : k.holds l = q.holds l := by
  cases h <;> cases l <;> first | rfl | exact absurd rfl hr

namespace ProcState

variable {s s' : ProcState T N} {t : T} {l : KernelLock}

/-- The other threads stay inside the `P` of a lock, or out of it. -/
theorem LockInv.waits_of_ne (h : s.LockInv l)
    (hother : ∀ u, u ≠ t → (s.pc u).Moved (s'.pc u))
    (ht : ∀ r k b, s'.pc t = .inP r k b → (r = l.ref ↔ k.entry l = true)) :
    ∀ u r k b, s'.pc u = .inP r k b → (r = l.ref ↔ k.entry l = true) := by
  intro u r k b hu
  by_cases hut : u = t
  · subst hut
    exact ht r k b hu
  · rcases hother u hut with heq | ⟨r', k', b', hold, hnew⟩
    · exact h.waits u r k b (heq ▸ hu)
    · rw [hnew] at hu
      cases hu
      exact h.waits u r k b' hold

/-- The invariant only reads the places of the threads and the semaphores of the locks. -/
theorem LockInv.congr (h : s.LockInv l) (hsem : s'.sem = s.sem) (haddr : s'.addrLock = s.addrLock)
    (hpc : s'.pc = s.pc) : s'.LockInv l where
  token := by
    have hlock : s'.lock l = s.lock l := by
      cases l with
      | table => exact hsem
      | addrLock => exact haddr
    exact h.token.congr (congrArg Semaphore.value hlock) fun u => by rw [hpc]
  waits := by rw [hpc]; exact h.waits

theorem LockInv.prep (h : s.LockInv l) (hp : Prep s s') : s'.LockInv l :=
  h.congr hp.sem hp.addrLock hp.pc

variable [DecidableEq T]

theorem LockInv.p (h : s.LockInv l) {r : SemRef} {k : Point N} (hs : s.p t r k = .next s')
    (hin : r = l.ref ↔ k.entry l = true)
    (hq : (ProcPc.inP r k false).holds l = (s.pc t).holds l) : s'.LockInv l where
  token := h.token.p hs (fun hr => Point.holds_of_entry (hin.mp hr)) hq
  waits := by
    obtain ⟨hat, hother⟩ := p_pc hs
    refine h.waits_of_ne (fun u hu => .inl (hother u hu)) fun r' k' b hk' => ?_
    rcases hat with hat | hat
    · rw [hat] at hk'
      cases hk'
    · rw [hat] at hk'
      cases hk'
      exact hin

theorem LockInv.v (h : s.LockInv l) {r : SemRef} {k : Point N} (hs : s.v t r k = .next s')
    (hown : r = l.ref → (s.pc t).holds l = true ∧ k.holds l = false)
    (hq : r ≠ l.ref → k.holds l = (s.pc t).holds l) : s'.LockInv l where
  token := h.token.v hs hown hq
  waits := by
    obtain ⟨hat, hother⟩ := v_pc hs
    refine h.waits_of_ne hother fun r' k' b hk' => ?_
    rw [hat] at hk'
    cases hk'

/-- A thread moves that is not inside the lock before or after. -/
theorem LockInv.setPc (h : s.LockInv l) {q : ProcPc N} (hold : (s.pc t).holds l = q.holds l)
    (hq : ∀ r k b, q ≠ .inP r k b) : (s.setPc t q).LockInv l := by
  have hother : ∀ u, u ≠ t → (s.pc u).Moved ((s.setPc t q).pc u) :=
    fun u hu => .inl (by simp [ProcState.setPc, hu])
  refine ⟨h.token.congr (by rw [lock_setPc]) (holds_of_ne hother ?_), h.waits_of_ne hother ?_⟩
  · simpa [ProcState.setPc] using hold.symm
  · intro r k b hk
    exact absurd (by simpa [ProcState.setPc] using hk) (hq r k b)

/-- The invariant of a lock survives every step. -/
theorem LockInv.step [DecidableEq N] (h : s.LockInv l) {a : ProcAction T N} (hs : Step s a s') :
    s'.LockInv l := by
  cases hs with
  | quiet hp => exact h.prep hp
  | @acquire t r k hq hp =>
    refine h.p hp ?_ (hq.holds l)
    rcases hq.enters l with hk | hres
    · exact hk
    · exact h.waits t r k true hres
  | release hprep hq hv =>
    rw [← hprep.pc] at hq
    exact (h.prep hprep).v hv hq.leaves hq.holds
  | returned hprep hpc hs =>
    subst hs
    refine (h.prep hprep).setPc ?_ (by simp)
    rw [hprep.pc, hpc]
    cases l <;> rfl
  | create ha hpc hme hdel hlt hclear hp =>
    refine (h.congr ?_ ?_ ?_).p hp ?_ ?_
    · rfl
    · rfl
    · rfl
    · cases l <;> simp [KernelLock.ref, Point.entry]
    · show _ = (s.pc _).holds l
      rw [hpc]
      cases l <;> rfl
  | @fork t u c slot name ha hpc hf =>
    obtain ⟨hu, rfl⟩ := fork_cases hf
    have hut : t ≠ u := by
      rintro rfl
      rw [hpc] at hu
      cases hu
    have hpcb : (s.setPcb c
        { s.pcb c with pid := slot, file := some name, thread := some u }).LockInv l :=
      h.congr rfl rfl rfl
    refine (hpcb.setPc ?_ (by simp)).setPc ?_ (by simp)
    · show (s.pc u).holds l = _
      rw [hu]
      cases l <;> rfl
    · simp only [ProcState.setPc, ProcState.setPcb, Function.update_of_ne hut]
      rw [hpc]
      cases l <;> rfl
  | execDone ha hpc hv =>
    refine (h.congr ?_ ?_ ?_).v hv ?_ ?_
    · rfl
    · rfl
    · rfl
    · intro hr
      show (s.pc _).holds l = true ∧ _
      rw [hpc]
      cases l <;> cases hr
      exact ⟨rfl, rfl⟩
    · intro hr
      show _ = (s.pc _).holds l
      rw [hpc]
      cases l
      · exact absurd rfl hr
      · rfl
  | remove ha hpc hr =>
    obtain ⟨c, bm, -, -, -, -, rfl⟩ := remove_cases hr
    refine (h.congr ?_ ?_ ?_).setPc ?_ (by simp)
    · rfl
    · rfl
    · rfl
    · show (s.pc _).holds l = _
      rw [hpc]
      cases l <;> rfl

/-- The locks are free when the first process starts. -/
theorem LockInv.init (name : N) (main : T) (l : KernelLock) :
    (booted name main).LockInv l := by
  refine ⟨.inl ⟨?_, fun t => ?_⟩, fun t r k b hk => ?_⟩
  · cases l <;> rfl
  · rw [booted_pc]
    split
    · cases l <;> rfl
    · rfl
  · rw [booted_pc] at hk
    split at hk <;> cases hk

end ProcState

/-- **The unit of a lock is in one place**, in every reachable state. -/
theorem kernelLock_inv [DecidableEq T] [DecidableEq N] {main : T} {s : ProcState T N}
    (h : (procSystem T N main).Reachable s) (l : KernelLock) : s.LockInv l :=
  h.invariant (I := fun s => s.LockInv l) (by rintro s ⟨name, rfl⟩; exact .init name main l)
    (fun _ _ _ hi hs => hi.step (ProcState.next_step hs))

end Nachos.Threads
