import Mathlib.Data.Fintype.Card
import Mathlib.Data.Fintype.Prod

namespace Nachos.Base

open Function

/-!
# Base — labelled transition systems

The vocabulary in which every concurrent component is stated. A component is a type of
states, a type of actions and a function saying what an action does in a state:

* `Outcome` — what one action does: it is not enabled, it trips a runtime check, or it
  leads to a next state;
* `LTS` — initial states together with such a function;
* `LTS.Run` — a finite run, labelled by the actions taken;
* `LTS.Reachable` — the states some run from an initial state ends in.

The rules below are the only inductions over runs that the components need:
`Reachable.invariant` (an invariant is checked on initial states and on steps),
`Reachable.invariant_of` (the same, with reachability available in the step case) and
`Reachable.project` (a component whose steps project to steps of another one inherits
every invariant of it) and `Reachable.simulate` (the same for a relation). `exec` takes a list
of actions and gives the state they lead to, so that a concrete run can be evaluated
(`reaches`); `Always` says that a condition holds in each state they lead through. `Follows` says
that a component answers as its specification does, call after call, and `follows_iff` reduces it to
one call. `count` and `count_update` count the parties of a component that are in a given phase;
`apply_update_of_eq` says what a step of one party leaves alone.
-/

/-! ### Outcomes -/

/-- What an action does in a state. `disabled` means the action is not available there
(the thread that would take it is elsewhere, or asleep); `fault` means it was taken and
a runtime check failed. -/
inductive Outcome (S : Type*) where
  | disabled
  | fault
  | next (s : S)

namespace Outcome

variable {S R : Type*} {o : Outcome S} {Q : S → Prop}

/-- Rebuild the state of an outcome, leaving the other two cases alone. -/
def map (f : S → R) : Outcome S → Outcome R
  | .disabled => .disabled
  | .fault => .fault
  | .next s => .next (f s)

@[simp] theorem map_disabled (f : S → R) : map f .disabled = .disabled := rfl
@[simp] theorem map_fault (f : S → R) : map f .fault = .fault := rfl
@[simp] theorem map_next (f : S → R) (s : S) : map f (.next s) = .next (f s) := rfl

/-- A mapped outcome is a next state exactly when the original is. -/
theorem map_eq_next_iff {f : S → R} {r : R} :
    o.map f = .next r ↔ ∃ s, o = .next s ∧ f s = r := by
  cases o <;> simp

/-- A mapped outcome faults exactly when the original does. -/
theorem map_eq_fault_iff {f : S → R} : o.map f = .fault ↔ o = .fault := by
  cases o <;> simp

/-- The outcome is not a fault, and a next state satisfies `Q`. -/
def Meets (Q : S → Prop) : Outcome S → Prop
  | .disabled => True
  | .fault => False
  | .next s => Q s

@[simp] theorem meets_disabled (Q : S → Prop) : Meets Q .disabled := trivial
@[simp] theorem meets_next {s : S} : Meets Q (.next s) ↔ Q s := Iff.rfl

theorem Meets.ne_fault (h : o.Meets Q) : o ≠ .fault := by
  rintro rfl; exact h

theorem Meets.next {s : S} (h : o.Meets Q) (ho : o = .next s) :
    Q s := by
  subst ho; exact h

theorem Meets.map {P : S → Prop} {Q : R → Prop} {f : S → R} (h : o.Meets P)
    (hPQ : ∀ s, P s → Q (f s)) : (o.map f).Meets Q := by
  cases o with
  | disabled => trivial
  | fault => exact h
  | next s => exact hPQ s h

/-- A guarded action that leads somewhere was taken where its guard holds. -/
theorem guard_eq_next {p : Prop} [Decidable p] {s : S} :
    (if p then o else .disabled) = .next s ↔ p ∧ o = .next s := by
  split <;> simp_all

/-- A guarded action is fine if it is fine where its guard holds. -/
theorem Meets.ite {p : Prop} [Decidable p] (h : p → o.Meets Q) :
    (if p then o else .disabled).Meets Q := by
  split
  · exact h ‹_›
  · trivial

end Outcome

/-! ### Systems, runs and reachable states -/

/-- A labelled transition system: the initial states, and what each action does. -/
structure LTS (S L : Type*) where
  init : S → Prop
  next : S → L → Outcome S

namespace LTS

variable {S L R K : Type*} {M : LTS S L} {s s' : S} {ls : List L} {I : S → Prop} {ok : S → L → Prop}

/-- A finite run, with the actions taken in order. -/
inductive Run (M : LTS S L) (s : S) : List L → S → Prop where
  | nil : Run M s [] s
  | snoc {s' s'' : S} {ls : List L} {l : L} :
      Run M s ls s' → M.next s' l = .next s'' → Run M s (ls ++ [l]) s''

/-- The states that some run from an initial state ends in. -/
def Reachable (M : LTS S L) (s : S) : Prop :=
  ∃ s₀ ls, M.init s₀ ∧ Run M s₀ ls s

/-- The system whose actions are further restricted by a condition on the state they are
taken in. -/
def restrict (M : LTS S L) (ok : S → L → Prop) [∀ s l, Decidable (ok s l)] : LTS S L where
  init := M.init
  next := fun s l => if ok s l then M.next s l else .disabled

/-- Two runs one after the other. -/
theorem Run.append {s'' : S} {ks : List L} (h : M.Run s ls s') (h' : M.Run s' ks s'') :
    M.Run s (ls ++ ks) s'' := by
  induction h' with
  | nil => rw [List.append_nil]; exact h
  | snoc _ hs ih => rw [← List.append_assoc]; exact ih.snoc hs

theorem Reachable.init (h : M.init s) : M.Reachable s :=
  ⟨s, [], h, .nil⟩

theorem Reachable.step {l : L} (h : M.Reachable s) (hs : M.next s l = .next s') :
    M.Reachable s' := by
  obtain ⟨s₀, ls, h0, hr⟩ := h
  exact ⟨s₀, ls ++ [l], h0, hr.snoc hs⟩

theorem Reachable.run (h : M.Reachable s) (hr : M.Run s ls s') :
    M.Reachable s' := by
  obtain ⟨s₀, ks, h0, hr₀⟩ := h
  exact ⟨s₀, ks ++ ls, h0, hr₀.append hr⟩

/-- What holds in a reachable state, and is kept by every action from then on. -/
theorem Reachable.invariant_run (h : M.Reachable s)
    (hs : I s) (hstep : ∀ s l s', M.Reachable s → I s → M.next s l = .next s' → I s')
    (hr : M.Run s ls s') : I s' := by
  induction hr with
  | nil => exact hs
  | snoc hr hl ih => exact hstep _ _ _ (h.run hr) ih hl

/-- **Invariant rule**, with reachability of the source state available in the step. -/
theorem Reachable.invariant_of (h0 : ∀ s, M.init s → I s)
    (hstep : ∀ s l s', M.Reachable s → I s → M.next s l = .next s' → I s')
    (h : M.Reachable s) : I s := by
  obtain ⟨s₀, ls, hi, hr⟩ := h
  induction hr with
  | nil => exact h0 s₀ hi
  | snoc hr hs ih => exact hstep _ _ _ ⟨_, _, hi, hr⟩ ih hs

/-- **Invariant rule.** What holds initially and is kept by every action holds in every
reachable state. -/
theorem Reachable.invariant (h0 : ∀ s, M.init s → I s)
    (hstep : ∀ s l s', I s → M.next s l = .next s' → I s')
    (h : M.Reachable s) : I s :=
  h.invariant_of h0 (fun s l s' _ => hstep s l s')

/-- **Safety rule.** If every action keeps `I` and trips no check where `I` holds, both are true
of every reachable state. -/
theorem Reachable.safe (h0 : ∀ s, M.init s → I s)
    (hstep : ∀ s l, I s → (M.next s l).Meets I) (h : M.Reachable s) :
    I s ∧ ∀ l, M.next s l ≠ .fault := by
  have hI : I s := h.invariant h0 (fun s l s' hs hl => (hstep s l hs).next hl)
  exact ⟨hI, fun l => (hstep s l hI).ne_fault⟩

/-- **Projection rule.** If initial states map to initial states and every step maps to a
step or to nothing, reachable states map to reachable states. -/
theorem Reachable.project {N : LTS R K} (f : S → R)
    (h0 : ∀ s, M.init s → N.init (f s))
    (hstep : ∀ s l s', M.next s l = .next s' →
      f s' = f s ∨ ∃ k, N.next (f s) k = .next (f s'))
    (h : M.Reachable s) : N.Reachable (f s) := by
  refine h.invariant (I := fun s => N.Reachable (f s)) (fun s hs => .init (h0 s hs)) ?_
  intro s l s' hs hl
  rcases hstep s l s' hl with heq | ⟨k, hk⟩
  · rw [heq]; exact hs
  · exact hs.step hk

/-- **Simulation rule.** If every initial state is related to an initial state of the other system
and every step is matched by a step of it, reachable states are related to reachable states. -/
theorem Reachable.simulate {N : LTS R K} {Rel : S → R → Prop}
    (h0 : ∀ s, M.init s → ∃ r, N.init r ∧ Rel s r)
    (hstep : ∀ s l s' r, Rel s r → M.next s l = .next s' → ∃ k r', N.next r k = .next r' ∧
      Rel s' r')
    (h : M.Reachable s) : ∃ r, N.Reachable r ∧ Rel s r := by
  refine h.invariant (I := fun s => ∃ r, N.Reachable r ∧ Rel s r) ?_ ?_
  · intro s hs
    obtain ⟨r, hr, hrel⟩ := h0 s hs
    exact ⟨r, .init hr, hrel⟩
  · rintro s l s' ⟨r, hr, hrel⟩ hl
    obtain ⟨k, r', hk, hrel'⟩ := hstep s l s' r hrel hl
    exact ⟨r', hr.step hk, hrel'⟩

/-- A step of a restricted system is a step that meets the condition. -/
theorem restrict_next [∀ s l, Decidable (ok s l)] {l : L}
    (h : (M.restrict ok).next s l = .next s') : ok s l ∧ M.next s l = .next s' := by
  unfold restrict at h
  by_cases hok : ok s l
  · exact ⟨hok, by simpa [hok] using h⟩
  · simp [hok] at h

/-- A step that meets the condition is a step of the restricted system. -/
theorem Reachable.step_restrict [∀ s l, Decidable (ok s l)] {l : L}
    (h : (M.restrict ok).Reachable s) (hok : ok s l) (hs : M.next s l = .next s') :
    (M.restrict ok).Reachable s' := by
  apply h.step (l := l)
  show (if ok s l then M.next s l else .disabled) = .next s'
  rw [if_pos hok, hs]

/-- A run that meets a condition is a run. -/
theorem Reachable.of_restrict [∀ s l, Decidable (ok s l)]
    (h : (M.restrict ok).Reachable s) : M.Reachable s := by
  apply h.invariant (I := M.Reachable)
  · exact fun _ h0 => .init h0
  · intro s l s' hr hs
    exact hr.step (restrict_next hs).2

/-- Take a list of actions one after the other; `none` if one of them is not enabled or trips a
check. -/
def exec (M : LTS S L) (s : S) : List L → Option S
  | [] => some s
  | l :: ls =>
    match M.next s l with
    | .next s' => exec M s' ls
    | _ => none

/-- What a list of actions leads to is reachable. -/
theorem Reachable.exec (h : M.Reachable s) (hs : M.exec s ls = some s') :
    M.Reachable s' := by
  induction ls generalizing s with
  | nil =>
    cases hs
    exact h
  | cons l ls ih =>
    simp only [LTS.exec] at hs
    split at hs
    · rename_i s'' hl
      exact ih (h.step hl) hs
    · cases hs

/-- The same, for a state known by what can be observed of it. -/
theorem reaches (M : LTS S L) (h : M.init s) (ls : List L) (P : S → Prop) [DecidablePred P]
    (hs : ((M.exec s ls).any fun s' => decide (P s')) = true) : ∃ s', M.Reachable s' ∧ P s' := by
  obtain ⟨s', hs', hP⟩ := (Option.any_eq_true _ _).mp hs
  exact ⟨s', Reachable.exec (.init h) hs', of_decide_eq_true hP⟩

/-- The condition holds in each state that the actions lead through. -/
def Always (M : LTS S L) (P : S → Prop) (s : S) : List L → Prop
  | [] => P s
  | l :: ls => P s ∧ ∀ s', M.next s l = .next s' → Always M P s' ls

theorem Always.head {P : S → Prop} (h : M.Always P s ls) : P s := by
  cases ls with
  | nil => exact h
  | cons l ls => exact h.1

/-- **Rule for conditions on actions.** If an action keeps `P`, in a state of the invariant, exactly
if it is `ok`, then `P` holds all along a run exactly if all its actions are `ok`. -/
theorem always_iff {P : S → Prop} {ok : L → Prop}
    (hI : ∀ s l s', I s → M.next s l = .next s' → I s')
    (hP : ∀ s l s', I s → P s → M.next s l = .next s' → (P s' ↔ ok l))
    (hs : I s) (hPs : P s) (hex : M.exec s ls ≠ none) :
    M.Always P s ls ↔ ∀ l ∈ ls, ok l := by
  induction ls generalizing s with
  | nil => simpa [Always] using hPs
  | cons l ls ih =>
    simp only [LTS.exec] at hex
    split at hex
    · rename_i s' hl
      have hIs' := hI s l s' hs hl
      have hPs' := hP s l s' hs hPs hl
      simp only [Always, hPs, true_and, hl, Outcome.next.injEq, forall_eq', List.forall_mem_cons]
      constructor
      · intro hall
        exact ⟨hPs'.mp hall.head, (ih hIs' hall.head hex).mp hall⟩
      · rintro ⟨hok, hrest⟩
        exact (ih hIs' (hPs'.mpr hok) hex).mpr hrest
    · exact absurd rfl hex

/-- The condition holds of each step that the actions lead through. -/
def AlwaysStep (M : LTS S L) (R : S → L → S → Prop) (s : S) : List L → Prop
  | [] => True
  | l :: ls => ∀ s', M.next s l = .next s' → R s l s' ∧ AlwaysStep M R s' ls

/-- **Rule for conditions on steps.** Two conditions that say the same of a step from a state of the
invariant, and that keep it, say the same of a run. -/
theorem alwaysStep_iff {R Q : S → L → S → Prop} {ok : L → Prop}
    (hRQ : ∀ s l s', I s → ok l → M.next s l = .next s' → (R s l s' ↔ Q s l s'))
    (hI : ∀ s l s', I s → ok l → M.next s l = .next s' → R s l s' → I s')
    (hs : I s) (hok : ∀ l ∈ ls, ok l) :
    M.AlwaysStep R s ls ↔ M.AlwaysStep Q s ls := by
  induction ls generalizing s with
  | nil => exact Iff.rfl
  | cons l ls ih =>
    obtain ⟨hl, hls⟩ := List.forall_mem_cons.mp hok
    simp only [AlwaysStep]
    refine forall_congr' fun s' => forall_congr' fun hnext => ?_
    have hstep := hRQ s l s' hs hl hnext
    rw [← hstep]
    exact and_congr_right fun hR => ih (hI s l s' hs hl hnext hR) hls

end LTS

/-! ### Following a specification -/

section Follows

variable {S A L O ε : Type*}

/-- The program does each operation without a failure, with the output of the specification, and the
states behind it are related. -/
def Follows (next : S → L → Except ε (O × S)) (spec : A → L → O × A) (R : S → A → Prop) :
    S → A → List L → Prop
  | _, _, [] => True
  | s, a, l :: ls => ∃ s', next s l = .ok ((spec a l).1, s') ∧ R s' (spec a l).2 ∧
      Follows next spec R s' (spec a l).2 ls

/-- The condition holds of each operation where the specification gets to it. -/
def SpecAlways (spec : A → L → O × A) (P : A → L → Prop) : A → List L → Prop
  | _, [] => True
  | a, l :: ls => P a l ∧ SpecAlways spec P (spec a l).2 ls

instance SpecAlways.decidable (spec : A → L → O × A) (P : A → L → Prop)
    [hP : ∀ a l, Decidable (P a l)] : ∀ a ls, Decidable (SpecAlways spec P a ls)
  | _, [] => .isTrue trivial
  | a, l :: ls =>
    have := decidable spec P (spec a l).2 ls
    inferInstanceAs (Decidable (P a l ∧ SpecAlways spec P (spec a l).2 ls))

/-- **Rule for following a specification.** If one operation follows it exactly under a condition,
operations in a row do so exactly if the condition holds of each. -/
theorem follows_iff {next : S → L → Except ε (O × S)} {spec : A → L → O × A} {R : S → A → Prop}
    {P : A → L → Prop}
    (hstep : ∀ s a l, R s a → ((∃ s', next s l = .ok ((spec a l).1, s') ∧ R s' (spec a l).2) ↔
      P a l))
    {s : S} {a : A} (h : R s a) (ls : List L) :
    Follows next spec R s a ls ↔ SpecAlways spec P a ls := by
  induction ls generalizing s a with
  | nil => exact Iff.rfl
  | cons l ls ih =>
    have hl := hstep s a l h
    constructor
    · rintro ⟨s', hnext, hR, hrest⟩
      exact ⟨hl.mp ⟨s', hnext, hR⟩, (ih hR).mp hrest⟩
    · rintro ⟨hP, hrest⟩
      obtain ⟨s', hnext, hR⟩ := hl.mpr hP
      exact ⟨s', hnext, hR, (ih hR).mpr hrest⟩

end Follows

/-! ### The parties of a component -/

/-- A value after an update is the new one or an old one. -/
theorem update_eq_cases {ι α : Type*} [DecidableEq ι] {f : ι → α} {i j : ι} {a b : α}
    (h : update f i a j = b) : (j = i ∧ a = b) ∨ (j ≠ i ∧ f j = b) := by
  by_cases hj : j = i
  · subst hj
    rw [update_self] at h
    exact .inl ⟨rfl, h⟩
  · rw [update_of_ne hj] at h
    exact .inr ⟨hj, h⟩

/-- What an update of one party leaves alone is the same for all of them. -/
theorem apply_update_of_eq {ι α β : Type*} [DecidableEq ι] (g : α → β) {f : ι → α} {i : ι} {a : α}
    (h : g a = g (f i)) (j : ι) : g (update f i a j) = g (f j) := by
  by_cases hj : j = i
  · subst hj
    rw [update_self, h]
  · rw [update_of_ne hj]

section Counting

variable {T α : Type*} [Fintype T] [DecidableEq T]

/-- How many parties are in a phase satisfying `p`. -/
def count (f : T → α) (p : α → Prop) [DecidablePred p] : ℕ :=
  (Finset.univ.filter fun t => p (f t)).card

/-- Moving one party from phase `f t` to phase `a` moves the count accordingly. -/
theorem count_update (f : T → α) (p : α → Prop) [DecidablePred p] (t : T) (a : α) :
    count (update f t a) p + (if p (f t) then 1 else 0)
      = count f p + (if p a then 1 else 0) := by
  -- Split both counts into the party `t` and the others, which do not move.
  have hsplit : ∀ g : T → α, count g p
      = (if p (g t) then 1 else 0) + ((Finset.univ.erase t).filter fun u => p (g u)).card := by
    intro g
    unfold count
    rw [← Finset.insert_erase (Finset.mem_univ t), Finset.filter_insert]
    by_cases hg : p (g t)
    · rw [if_pos hg, if_pos hg, Finset.card_insert_of_notMem (by simp)]
      simp [Nat.add_comm]
    · rw [if_neg hg, if_neg hg]
      simp
  have hrest : ((Finset.univ.erase t).filter fun u => p (update f t a u))
      = (Finset.univ.erase t).filter fun u => p (f u) := by
    refine Finset.filter_congr (fun u hu => ?_)
    rw [update_of_ne (Finset.ne_of_mem_erase hu)]
  rw [hsplit (update f t a), hsplit f, hrest, update_self]
  omega

end Counting

end Nachos.Base
