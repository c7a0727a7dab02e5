import Mathlib.Logic.Basic

namespace Nachos.Base

/-!
# Base — computations that may fail

How the steps of a computation in `Except` compose: the equations of `>>=`, and rules for
`Post Q r`, which says that the result of `r` satisfies `Q` if there is one. Results of `EStateM`
can be compared.
-/

variable {ε α β : Type}

@[simp] theorem ok_bind (a : α) (f : α → Except ε β) : (Except.ok a >>= f) = f a := rfl

@[simp] theorem error_bind (e : ε) (f : α → Except ε β) :
    ((Except.error e : Except ε α) >>= f) = .error e := rfl

@[simp] theorem pure_eq_ok (a : α) : (pure a : Except ε α) = .ok a := rfl

/-- The computation fails, or its result satisfies `Q`. -/
def Post (Q : α → Prop) (r : Except ε α) : Prop := ∀ a, r = .ok a → Q a

@[simp] theorem post_ok {Q : α → Prop} {a : α} : Post Q (.ok a : Except ε α) ↔ Q a :=
  ⟨fun h => h a rfl, fun h b hb => by cases hb; exact h⟩

@[simp] theorem post_error {Q : α → Prop} {e : ε} : Post Q (.error e : Except ε α) := nofun

theorem Post.bind {P : α → Prop} {Q : β → Prop} {r : Except ε α} {f : α → Except ε β}
    (hr : Post P r) (hf : ∀ a, P a → Post Q (f a)) : Post Q (r >>= f) := by
  cases r with
  | error e => exact post_error
  | ok a => exact hf a (post_ok.mp hr)

theorem Post.ite {Q : α → Prop} {p : Prop} [Decidable p] {r r' : Except ε α}
    (h : p → Post Q r) (h' : ¬ p → Post Q r') : Post Q (if p then r else r') := by
  split
  · exact h ‹_›
  · exact h' ‹_›

/-- A test that returns early. -/
theorem Post.guard {Q : α → Prop} {p : Prop} [Decidable p] {a : α} {r : Except ε α} (ha : Q a)
    (h : ¬ p → Post Q r) : Post Q (if p then .ok a else r) :=
  .ite (fun _ => post_ok.mpr ha) h

/-- Nothing needs to be known of the result. -/
theorem post_true (r : Except ε α) : Post (fun _ => True) r := fun _ _ => trivial

/-- Results of computations with a state can be compared. -/
instance decidableEqResult {σ : Type} [DecidableEq ε] [DecidableEq σ] [DecidableEq α] :
    DecidableEq (EStateM.Result ε σ α)
  | .ok a s, .ok a' s' => decidable_of_iff (a = a' ∧ s = s') (by rw [EStateM.Result.ok.injEq])
  | .error e s, .error e' s' => decidable_of_iff (e = e' ∧ s = s')
    (by rw [EStateM.Result.error.injEq])
  | .ok _ _, .error _ _ => .isFalse (by intro h; cases h)
  | .error _ _, .ok _ _ => .isFalse (by intro h; cases h)

end Nachos.Base
