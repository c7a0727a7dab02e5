import Nachos.Threads.ProcessTable

namespace Nachos.Threads

open Base Lib Function

/-!
# Threads — who loads the program of a process

From the creation of a PCB until `AddrSpace::Load` has run for it, exactly one thread is in
charge of its program: the parent up to `Fork`, then the new thread. `ProcState.LoaderInv`
says so; it also says that such a PCB is not deleted, because `~PCB` is only run by the thread
of the PCB, which is still on its way to `Load`.
-/

variable {T N : Type*}

/-- The PCB whose program is about to be forked, started or loaded at a point. -/
def Point.loads : Point N → Option ℕ
  | .start c | .load c | .fork c _ _ => some c
  | _ => none

/-- The PCB a thread is in charge of. -/
def ProcPc.loads : ProcPc N → Option ℕ
  | .unborn => none
  | .at k | .inP _ k _ => k.loads

theorem Acquires.loads {q : ProcPc N} {r : SemRef} {k : Point N} (h : Acquires q r k) :
    k.loads = none ∨ k.loads = q.loads := by
  cases h <;> first | exact .inl rfl | exact .inr rfl

theorem Releases.loads {q : ProcPc N} {r : SemRef} {k : Point N} (h : Releases q r k) :
    k.loads = none := by
  cases h <;> rfl

namespace ProcState

variable {s s' : ProcState T N} {t : T}

/-! ### What a step does to the threads in charge -/

/-- What a step does, apart from `Exec`: a thread may only be done with its PCB, and the PCBs in
the charge of a thread stay. -/
structure Settles (s s' : ProcState T N) : Prop where
  numPcbs : s'.numPcbs = s.numPcbs
  thread : ∀ c, (s'.pcb c).thread = (s.pcb c).thread
  loads : ∀ u, (s'.pc u).loads = none ∨ (s'.pc u).loads = (s.pc u).loads
  deleted : ∀ u c, (s'.pc u).loads = some c → (s'.pcb c).deleted = (s.pcb c).deleted

/-- A step that takes one thread on and leaves the processes alone. -/
theorem Settles.of_keeps (hk : Keeps s s')
    (ht : (s'.pc t).loads = none ∨ (s'.pc t).loads = (s.pc t).loads)
    (hother : ∀ u, u ≠ t → (s.pc u).Moved (s'.pc u)) : Settles s s' := by
  refine ⟨hk.numPcbs, hk.thread, fun u => ?_, fun _ c _ => hk.deleted c⟩
  by_cases hut : u = t
  · subst hut; exact ht
  · -- A thread that is woken keeps the point after its `P`.
    rcases hother u hut with heq | ⟨r, k, b, hq, hq'⟩
    · exact .inr (by rw [heq])
    · exact .inr (by rw [hq, hq']; rfl)

/-- The PCBs without a thread in charge, and without a program, stay so. -/
def LoadsOld (s s' : ProcState T N) : Prop :=
  ∀ u c, (s'.pc u).loads = some c → (∃ w, (s.pc w).loads = some c) ∨ c = s.numPcbs

theorem Settles.old (h : Settles s s') {u : T} {c : ℕ} (hc : (s'.pc u).loads = some c) :
    (s.pc u).loads = some c := by
  rcases h.loads u with hnone | heq
  · rw [hnone] at hc; cases hc
  · rw [← heq]; exact hc

/-! ### The invariant -/

/-- Each PCB whose program is not loaded yet has one thread in charge, and is not deleted. -/
structure LoaderInv (s : ProcState T N) : Prop where
  lt : ∀ t c, (s.pc t).loads = some c → c < s.numPcbs
  unique : ∀ t u c, (s.pc t).loads = some c → (s.pc u).loads = some c → t = u
  deleted : ∀ t c, (s.pc t).loads = some c → (s.pcb c).deleted = false
  thread : ∀ t c, (s.pc t).loads = some c → (s.pcb c).thread = none ∨ (s.pcb c).thread = some t

theorem LoaderInv.settles (h : s.LoaderInv) (hs : Settles s s') : s'.LoaderInv := by
  refine ⟨fun u c hc => ?_, fun u v c hu hv => h.unique u v c (hs.old hu) (hs.old hv),
    fun u c hc => ?_, fun u c hc => ?_⟩
  · rw [hs.numPcbs]; exact h.lt u c (hs.old hc)
  · rw [hs.deleted u c hc]; exact h.deleted u c (hs.old hc)
  · rw [hs.thread]; exact h.thread u c (hs.old hc)

/-- One thread is put in charge of one PCB, and the others keep theirs. -/
theorem LoaderInv.assign (h : s.LoaderInv) {u₀ : T} {c₀ : ℕ}
    (hcases : ∀ u c, (s'.pc u).loads = some c →
      (u = u₀ ∧ c = c₀) ∨ (c ≠ c₀ ∧ (s.pc u).loads = some c))
    (hnum : c₀ < s'.numPcbs ∧ s.numPcbs ≤ s'.numPcbs) (hdel : (s'.pcb c₀).deleted = false)
    (hthread : (s'.pcb c₀).thread = none ∨ (s'.pcb c₀).thread = some u₀)
    (hother : ∀ c, c ≠ c₀ → (s'.pcb c).deleted = (s.pcb c).deleted ∧
      (s'.pcb c).thread = (s.pcb c).thread) :
    s'.LoaderInv := by
  refine ⟨fun u c hc => ?_, fun u v c hu hv => ?_, fun u c hc => ?_, fun u c hc => ?_⟩
  · rcases hcases u c hc with ⟨-, rfl⟩ | ⟨-, hold⟩
    · exact hnum.1
    · exact (h.lt u c hold).trans_le hnum.2
  · rcases hcases u c hu with ⟨rfl, rfl⟩ | ⟨hc, hu'⟩ <;>
      rcases hcases v _ hv with ⟨hvt, hc'⟩ | ⟨hc', hv'⟩
    · exact hvt.symm
    · exact absurd rfl hc'
    · exact absurd hc' hc
    · exact h.unique u v c hu' hv'
  · rcases hcases u c hc with ⟨-, rfl⟩ | ⟨hne, hold⟩
    · exact hdel
    · rw [(hother c hne).1]; exact h.deleted u c hold
  · rcases hcases u c hc with ⟨rfl, rfl⟩ | ⟨hne, hold⟩
    · exact hthread
    · rw [(hother c hne).2]; exact h.thread u c hold

variable [DecidableEq T]

theorem Settles.p {r : SemRef} {k : Point N} (hs : s.p t r k = .next s')
    (hq : Acquires (s.pc t) r k) : Settles s s' := by
  obtain ⟨ht, hother⟩ := p_pc hs
  refine .of_keeps (p_keeps hs) (t := t) ?_ fun u hut => .inl (hother u hut)
  rcases ht with ht | ht <;> rw [ht] <;> exact hq.loads

/-- A `V` after changes that leave the processes and the threads alone. -/
theorem Settles.v {s₁ : ProcState T N} {r : SemRef} {k : Point N} (hs : s₁.v t r k = .next s')
    (hk : Keeps s s₁) (hpc : s₁.pc = s.pc) (hnone : k.loads = none) : Settles s s' := by
  obtain ⟨ht, hother⟩ := v_pc hs
  refine .of_keeps (hk.trans (v_keeps hs)) (t := t) (.inl ?_) fun u hut => ?_
  · rw [ht]; exact hnone
  · rw [← hpc]; exact hother u hut

/-- A process that removes itself deletes its own PCB, of which no one is in charge. -/
theorem LoaderInv.settles_remove (h : s.LoaderInv) {cur : Int}
    (hs : s.remove t cur = .next s') : Settles s s' := by
  obtain ⟨c, bm, -, -, -, hthread, rfl⟩ := remove_cases hs
  refine ⟨rfl, fun d => ?_, fun u => ?_, fun u d hd => ?_⟩
  · exact apply_update_of_eq PCB.thread (by rfl) d
  · by_cases hut : u = t
    · subst hut; exact .inl (by simp [setPc, ProcPc.loads])
    · exact .inr (by simp [setPc, setPcb, hut])
  · by_cases hut : u = t
    · subst hut; simp [setPc, ProcPc.loads] at hd
    · replace hd : (s.pc u).loads = some d := by simpa [setPc, setPcb, hut] using hd
      -- If `d` were the PCB of the running thread, that thread would be in charge of it.
      have hdc : d ≠ c := by
        rintro rfl
        rcases h.thread u d hd with hnone | hsome
        · rw [hthread] at hnone; cases hnone
        · rw [hthread] at hsome
          exact hut (Option.some.inj hsome).symm
      simp [setPc, setPcb, hdc]

/-- `ExecUpdate` creates a PCB: its parent is in charge. -/
theorem LoaderInv.create (h : s.LoaderInv) {slot : ℕ} {name : N}
    (hs : (s.create (s.slotManager.setBit slot) slot (s.getCurrentThreadId t)).p t
      (.mutex s.numPcbs) (.fork s.numPcbs slot name) = .next s') :
    s'.LoaderInv ∧ LoadsOld s s' := by
  obtain ⟨ht, hother⟩ := p_pc hs
  have hk := p_keeps hs
  have hnum : s'.numPcbs = s.numPcbs + 1 := hk.numPcbs
  -- Whether the `P` of the new mutex returns or not, `t` is in charge of the new PCB.
  have hcharge : (s'.pc t).loads = some s.numPcbs := by
    rcases ht with ht | ht <;> rw [ht] <;> rfl
  have hcases : ∀ u c, (s'.pc u).loads = some c →
      (u = t ∧ c = s.numPcbs) ∨ (c ≠ s.numPcbs ∧ (s.pc u).loads = some c) := by
    intro u c hc
    by_cases hut : u = t
    · subst hut
      rw [hcharge] at hc
      exact .inl ⟨rfl, (Option.some.inj hc).symm⟩
    · rw [hother u hut] at hc
      have := h.lt u c hc
      exact .inr ⟨by omega, hc⟩
  refine ⟨h.assign hcases (by omega) ?_ (.inl ?_) fun c hne => ⟨?_, ?_⟩, fun u c hc => ?_⟩
  · simp [hk.deleted, ProcState.create, PCB.new]
  · simp [hk.thread, ProcState.create, PCB.new]
  · simp [hk.deleted, ProcState.create, hne]
  · simp [hk.thread, ProcState.create, hne]
  · rcases hcases u c hc with ⟨-, rfl⟩ | ⟨-, hold⟩
    · exact .inr rfl
    · exact .inl ⟨u, hold⟩

/-- At the start the main thread is in charge of the first process. -/
theorem LoaderInv.init (name : N) (main : T) :
    (booted name main).LoaderInv := by
  have hcases : ∀ t c, ((booted name main).pc t).loads = some c → t = main ∧ c = 0 := by
    intro t c hc
    rw [booted_pc] at hc
    split at hc
    · rename_i ht
      exact ⟨ht, (Option.some.inj hc).symm⟩
    · cases hc
  refine ⟨fun t c hc => ?_, fun t u c ht hu => ?_, fun t c hc => ?_, fun t c hc => ?_⟩
  · obtain ⟨-, rfl⟩ := hcases t c hc
    exact Nat.one_pos
  · exact (hcases t c ht).1.trans (hcases u c hu).1.symm
  · obtain ⟨-, rfl⟩ := hcases t c hc
    rfl
  · obtain ⟨rfl, rfl⟩ := hcases t c hc
    exact .inr rfl

variable [DecidableEq N]

/-- `Fork` hands the charge to the new thread. -/
theorem LoaderInv.fork (h : s.LoaderInv) {u : T} {c slot : ℕ} {name : N}
    (hpc : s.pc t = .at (.fork c slot name)) (hs : s.fork t u c slot name = .next s') :
    s'.LoaderInv ∧ LoadsOld s s' := by
  obtain ⟨hu, rfl⟩ := fork_cases hs
  have hcharge : (s.pc t).loads = some c := by rw [hpc]; rfl
  have htu : u ≠ t := by
    rintro rfl
    rw [hpc] at hu; cases hu
  -- After the step the charge of `t` is with `u`; the others keep theirs.
  have hcases : ∀ w d, ((update (update s.pc u (.at (.start c))) t
      (.at (.forked c slot))) w).loads = some d →
      (w = u ∧ d = c) ∨ (d ≠ c ∧ (s.pc w).loads = some d) := by
    intro w d hd
    by_cases hwt : w = t
    · subst hwt; simp [ProcPc.loads, Point.loads] at hd
    · by_cases hwu : w = u
      · subst hwu
        refine .inl ⟨rfl, ?_⟩
        simpa [hwt, ProcPc.loads, Point.loads] using hd.symm
      · replace hd : (s.pc w).loads = some d := by simpa [hwt, hwu] using hd
        refine .inr ⟨?_, hd⟩
        rintro rfl
        exact hwt (h.unique w t d hd hcharge)
  refine ⟨h.assign hcases ⟨h.lt t c hcharge, le_rfl⟩ ?_ (.inr ?_) fun d hne => ⟨?_, ?_⟩,
    fun w d hd => ?_⟩
  · simpa [setPc, setPcb] using h.deleted t c hcharge
  · simp [setPc, setPcb]
  · simp [setPc, setPcb, hne]
  · simp [setPc, setPcb, hne]
  · rcases hcases w d hd with ⟨-, rfl⟩ | ⟨-, hold⟩
    · exact .inl ⟨t, hcharge⟩
    · exact .inl ⟨w, hold⟩

/-- The invariant survives every action; the PCBs in charge of a thread were so before, or are
new. -/
theorem LoaderInv.next (h : s.LoaderInv) {a : ProcAction T N} (hs : s.next a = .next s') :
    s'.LoaderInv ∧ LoadsOld s s' := by
  have hdone : Settles s s' → s'.LoaderInv ∧ LoadsOld s s' :=
    fun hset => ⟨h.settles hset, fun u c hc => .inl ⟨u, hset.old hc⟩⟩
  cases next_step hs with
  | quiet hp =>
    exact hdone ⟨hp.numPcbs, hp.thread, fun u => .inr (by rw [hp.pc]), fun _ c _ => hp.deleted c⟩
  | acquire hq hp => exact hdone (.p hp hq)
  | release hprep hq hv => exact hdone (.v hv hprep.toKeeps hprep.pc hq.loads)
  | @returned t _ _ _ hprep _ heq =>
    subst heq
    refine hdone (.of_keeps (hprep.toKeeps.setPc t _) (t := t) (.inl ?_) fun u hut => .inl ?_)
    · simp [setPc, ProcPc.loads, Point.loads]
    · simp [setPc, hut, hprep.pc]
  -- `ExecUpdate` is the only place where a PCB is created.
  | create _ _ _ _ _ _ hp => exact h.create hp
  | fork _ hpc hr => exact h.fork hpc hr
  | execDone _ _ hv =>
    exact hdone (.v hv ⟨⟨rfl, rfl, rfl, fun _ => rfl, fun _ => rfl⟩, fun _ => rfl⟩ rfl rfl)
  | remove _ _ hr => exact hdone (h.settles_remove hr)

/-- When `Load` returns, nobody is in charge of the process any more. -/
theorem LoaderInv.load (h : s.LoaderInv) {c : ℕ} {ok : Bool} (hpc : s.pc t = .at (.load c))
    (hs : s.next (.load t ok) = .next s') :
    Settles s s' ∧ ∀ u d, (s'.pc u).loads = some d → d ≠ c ∧ (s.pc u).loads = some d := by
  have hcharge : (s.pc t).loads = some c := by rw [hpc]; rfl
  -- The step is a `V` of `addrLock`.
  have hv : s.v t .addrLock (if ok then .user else .loadFailed c) = .next s' := by
    cases next_takes hs with
    | load hpc' hr =>
      rw [hpc] at hpc'
      cases hpc'
      exact hr
  have hset : Settles s s' := .v hv (Prep.refl s).toKeeps rfl (by cases ok <;> rfl)
  refine ⟨hset, fun u d hd => ?_⟩
  have hold := hset.old hd
  refine ⟨?_, hold⟩
  rintro rfl
  -- Only `t` was in charge of `c`, and it is past the `V`.
  obtain rfl := h.unique u t d hold hcharge
  rw [(v_pc hv).1] at hd
  cases ok <;> cases hd

end ProcState

end Nachos.Threads
