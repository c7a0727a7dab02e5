import Mathlib.Data.Set.Basic
import Mathlib.Order.Defs.Unbundled

namespace Nachos.Base

/-!
# Base — bounds on computations with state and failure

What a computation in `EStateM` can do, and rules along `pure`, `throw`, `>>=` and `if`:

* `After f s Q` — `Q` holds of the result and the state behind `f`, if it returns from `s`;
* `Bounded R E Q f` — `f` moves the state along the preorder `R`, its errors satisfy `E` and its
  result satisfies `Q`;
* `Within C A B E Q f` — over a state with numbered cells, `f` writes cells of `B` only and reads
  cells of `A` only.  "Reads only" is what it should mean to a caller: cells outside of both sets
  can be overwritten before the run or after it.
-/

variable {ε σ ι V α β : Type} {f : EStateM ε σ α} {g : α → EStateM ε σ β}

theorem bind_ok {s s' : σ} {a : α}
    (h : f s = .ok a s') : (f >>= g) s = g a s' := by
  show EStateM.bind f g s = g a s'
  rw [EStateM.bind, h]

theorem get_bind (f : σ → EStateM ε σ β) (s : σ) : (get >>= f) s = f s s := rfl

theorem bind_error {s s' : σ} {e : ε}
    (h : f s = .error e s') : (f >>= g) s = .error e s' := by
  show EStateM.bind f g s = .error e s'
  rw [EStateM.bind, h]

/-- A sequence that returns is a first part that returns, and a second one from where it leaves. -/
theorem bind_eq_ok {s s'' : σ} {b : β}
    (h : (f >>= g) s = .ok b s'') : ∃ a s', f s = .ok a s' ∧ g a s' = .ok b s'' := by
  cases hf : f s with
  | ok a s' =>
    rw [bind_ok hf] at h
    exact ⟨a, s', rfl, h⟩
  | error e s' =>
    rw [bind_error hf] at h
    cases h

/-- A sequence that fails fails in its first part or in its second one. -/
theorem bind_eq_error {s s'' : σ} {e : ε} (h : (f >>= g) s = .error e s'') :
    f s = .error e s'' ∨ ∃ a s', f s = .ok a s' ∧ g a s' = .error e s'' := by
  cases hf : f s with
  | ok a s' =>
    rw [bind_ok hf] at h
    exact .inr ⟨a, s', rfl, h⟩
  | error e' s' =>
    rw [bind_error hf] at h
    cases h
    exact .inl rfl

/-- What holds behind the computation, if it returns. -/
def After (f : EStateM ε σ α) (s : σ) (Q : α → σ → Prop) : Prop := ∀ a s', f s = .ok a s' → Q a s'

/-- The computation moves the state along `R`. -/
structure Bounded (R : σ → σ → Prop) (E : ε → Prop) (Q : α → Prop) (f : EStateM ε σ α) :
    Prop where
  ok : ∀ {s a s'}, f s = .ok a s' → R s s' ∧ Q a
  error : ∀ {s e s'}, f s = .error e s' → R s s' ∧ E e

namespace Bounded

variable {R : σ → σ → Prop} {E : ε → Prop} {Q : α → Prop} {f : EStateM ε σ α}

theorem ite {c : Prop} [Decidable c] {f' : EStateM ε σ α} (h : c → Bounded R E Q f)
    (h' : ¬ c → Bounded R E Q f') : Bounded R E Q (if c then f else f') := by
  split
  · exact h ‹_›
  · exact h' ‹_›

theorem imp {E' : ε → Prop} {Q' : α → Prop} (h : Bounded R E Q f)
    (hE : ∀ e, E e → E' e) (hQ : ∀ a, Q a → Q' a) : Bounded R E' Q' f where
  ok hs := (h.ok hs).imp_right (hQ _)
  error hs := (h.error hs).imp_right (hE _)

/-- A computation without errors ends. -/
theorem total (h : Bounded R (fun _ => False) Q f) (s : σ) :
    ∃ a s', f s = .ok a s' ∧ R s s' ∧ Q a := by
  cases hs : f s with
  | ok a s' => exact ⟨a, s', rfl, h.ok hs⟩
  | error e s' => exact (h.error hs).2.elim

variable [IsPreorder σ R]

theorem pure {a : α} (h : Q a) : Bounded R E Q (Pure.pure a : EStateM ε σ α) where
  ok hs := by cases hs; exact ⟨refl_of R _, h⟩
  error hs := nomatch hs

theorem throw {e : ε} (h : E e) : Bounded R E Q (MonadExcept.throw e : EStateM ε σ α) where
  ok hs := nomatch hs
  error hs := by cases hs; exact ⟨refl_of R _, h⟩

theorem bind {P : α → Prop} {Q : β → Prop} {g : α → EStateM ε σ β}
    (hf : Bounded R E P f) (hg : ∀ a, P a → Bounded R E Q (g a)) : Bounded R E Q (f >>= g) where
  ok {s b s''} hs := by
    cases hfs : f s with
    | ok a s' =>
      rw [bind_ok hfs] at hs
      obtain ⟨hR, ha⟩ := hf.ok hfs
      obtain ⟨hR', hb⟩ := (hg a ha).ok hs
      exact ⟨trans_of R hR hR', hb⟩
    | error e s' =>
      rw [bind_error hfs] at hs
      cases hs
  error {s e s''} hs := by
    cases hfs : f s with
    | ok a s' =>
      rw [bind_ok hfs] at hs
      obtain ⟨hR, ha⟩ := hf.ok hfs
      obtain ⟨hR', he⟩ := (hg a ha).error hs
      exact ⟨trans_of R hR hR', he⟩
    | error e' s' =>
      rw [bind_error hfs] at hs
      cases hs
      exact hf.error hfs

end Bounded

/-! ### Footprints -/

/-- Cells of a state: their contents, and how to overwrite some of them. -/
structure Cells (σ ι V : Type) where
  get : σ → ι → V
  patch : (ι → Option V) → σ → σ

/-- Change the state a computation ends in. -/
def mapState (g : σ → σ) : EStateM.Result ε σ α → EStateM.Result ε σ α
  | .ok a s => .ok a (g s)
  | .error e s => .error e (g s)

@[simp] theorem mapState_ok (g : σ → σ) (a : α) (s : σ) :
    mapState g (.ok a s : EStateM.Result ε σ α) = .ok a (g s) := rfl

@[simp] theorem mapState_error (g : σ → σ) (e : ε) (s : σ) :
    mapState g (.error e s : EStateM.Result ε σ α) = .error e (g s) := rfl

/-- The cells outside of `B` are the same in both states. -/
def SameOff (C : Cells σ ι V) (B : Set ι) (s s' : σ) : Prop := ∀ i, i ∉ B → C.get s' i = C.get s i

instance (C : Cells σ ι V) (B : Set ι) : IsPreorder σ (SameOff C B) where
  refl _ _ _ := rfl
  trans _ _ _ h h' i hi := (h' i hi).trans (h i hi)

/-- The overwritten cells are outside of both sets. -/
def Apart (A B : Set ι) (p : ι → Option V) : Prop := ∀ i, p i ≠ none → i ∉ A ∧ i ∉ B

/-- The computation reads in `A` and writes in `B`. -/
structure Within (C : Cells σ ι V) (A B : Set ι) (E : ε → Prop) (Q : α → Prop)
    (f : EStateM ε σ α) : Prop extends Bounded (SameOff C B) E Q f where
  commutes : ∀ {p : ι → Option V}, Apart A B p → ∀ s, f (C.patch p s) = mapState (C.patch p) (f s)

namespace Within

variable {C : Cells σ ι V} {A B : Set ι} {E : ε → Prop} {Q : α → Prop} {f : EStateM ε σ α}

theorem pure {a : α} (h : Q a) : Within C A B E Q (Pure.pure a : EStateM ε σ α) where
  toBounded := .pure h
  commutes _ _ := rfl

theorem throw {e : ε} (h : E e) : Within C A B E Q (MonadExcept.throw e : EStateM ε σ α) where
  toBounded := .throw h
  commutes _ _ := rfl

/-- Footprints compose. -/
theorem bind {P : α → Prop} {Q : β → Prop} {g : α → EStateM ε σ β}
    (hf : Within C A B E P f) (hg : ∀ a, P a → Within C A B E Q (g a)) :
    Within C A B E Q (f >>= g) where
  toBounded := hf.toBounded.bind fun a ha => (hg a ha).toBounded
  commutes {p} hp s := by
    have hpatched := hf.commutes hp s
    cases hfs : f s with
    | ok a s' =>
      rw [hfs] at hpatched
      rw [bind_ok hpatched, bind_ok hfs]
      exact (hg a (hf.ok hfs).2).commutes hp s'
    | error e s' =>
      rw [hfs] at hpatched
      rw [bind_error hpatched, bind_error hfs]
      rfl

theorem ite {c : Prop} [Decidable c] {f' : EStateM ε σ α} (h : c → Within C A B E Q f)
    (h' : ¬ c → Within C A B E Q f') : Within C A B E Q (if c then f else f') := by
  split
  · exact h ‹_›
  · exact h' ‹_›

/-- A computation with a small footprint has a large one. -/
theorem mono {A' B' : Set ι} (h : Within C A B E Q f) (hA : A ⊆ A')
    (hB : B ⊆ B') : Within C A' B' E Q f where
  ok hs := ⟨fun i hi => (h.ok hs).1 i fun hB' => hi (hB hB'), (h.ok hs).2⟩
  error hs := ⟨fun i hi => (h.error hs).1 i fun hB' => hi (hB hB'), (h.error hs).2⟩
  commutes hp := h.commutes fun i hi => ⟨fun hA' => (hp i hi).1 (hA hA'), fun hB' =>
    (hp i hi).2 (hB hB')⟩

end Within

end Nachos.Base
