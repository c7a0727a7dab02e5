import Mathlib.Data.List.Basic
import Mathlib.Logic.Function.Basic

namespace Nachos.Base

/-!
# Base — stores of fixed-length arrays

The abstract view of anything that keeps arrays under names: a store is a map from names to
arrays, and what is done to it is told event by event, each event with the result that the
caller got.

* `ArrayStore.Step` — what an event does to the store;
* `ArrayStore.Trace` — the events, latest first, that lead from the empty store to a store;
* `lastWritten` — the value last written to an offset since the array was created, according to
  the events alone;
* `Trace.getElem?_of_lastWritten`, `Trace.read_lastWritten` — the store and every read agree
  with it;
* `Step.other` — an event leaves the arrays alone that it is not about.
-/

/-- Names, and the arrays that are kept under them. -/
abbrev ArrayStore (K B : Type*) := K → Option (List B)

/-- What happens to a store. `ok` is the answer that the caller gets, `n` is how much is asked
for at position `p`, and `data` is what is transferred. -/
inductive StoreEvent (K B : Type*) where
  | create (name : K) (size : ℕ) (ok : Bool)
  | remove (name : K) (ok : Bool)
  | lookup (name : K) (ok : Bool)
  | read (name : K) (n p : ℕ) (data : List B)
  | write (name : K) (n p : ℕ) (data : List B)
  | skip

/-- The name whose array an event may change. -/
def StoreEvent.target {K B : Type*} : StoreEvent K B → Option K
  | .create name _ _ => some name
  | .remove name _ => some name
  | .write name _ _ _ => some name
  | .lookup _ _ => none
  | .read _ _ _ _ => none
  | .skip => none

variable {K B : Type*}

/-- What writing `data` at position `p` puts at offset `o`. -/
def writtenAt (p : ℕ) (data : List B) (o : ℕ) : Option B :=
  if p ≤ o then data[o - p]? else none

/-- The array with `data` written at position `p`. It keeps its length. -/
def overwrite (a : List B) (p : ℕ) (data : List B) : List B :=
  a.mapIdx fun o b => (writtenAt p data o).getD b

theorem getElem?_overwrite (a : List B) (p : ℕ) (data : List B) (o : ℕ) :
    (overwrite a p data)[o]? = a[o]?.map fun b => (writtenAt p data o).getD b :=
  List.getElem?_mapIdx

/-- Only what fits is written. -/
theorem lt_of_writtenAt {p o : ℕ} {data : List B} {b : B} (h : writtenAt p data o = some b) :
    p ≤ o ∧ o - p < data.length := by
  unfold writtenAt at h
  split at h
  · rename_i hp
    exact ⟨hp, (List.getElem?_eq_some_iff.mp h).1⟩
  · cases h

theorem overwrite_nil (a : List B) (p : ℕ) : overwrite a p [] = a := by
  apply List.ext_getElem?
  intro o
  rw [getElem?_overwrite]
  simp [writtenAt]

/-- Writing twice, the second time behind the first, is writing once. -/
theorem overwrite_append (a : List B) (p : ℕ) (data data' : List B) :
    overwrite (overwrite a p data) (p + data.length) data' = overwrite a p (data ++ data') := by
  apply List.ext_getElem?
  intro o
  rw [getElem?_overwrite, getElem?_overwrite, getElem?_overwrite, Option.map_map]
  apply Option.map_congr
  intro b _
  show (writtenAt (p + data.length) data' o).getD ((writtenAt p data o).getD b) = _
  unfold writtenAt
  -- Before the position, in the first part, or behind it.
  by_cases hp : p ≤ o
  · rw [if_pos hp, if_pos hp]
    by_cases hlt : o - p < data.length
    · rw [if_neg (by omega), Option.getD_none, List.getElem?_append_left hlt]
    · rw [if_pos (by omega), List.getElem?_append_right (by omega), Nat.sub_sub,
        List.getElem?_eq_none (l := data) (by omega), Option.getD_none]
  · rw [if_neg (by omega), if_neg hp, if_neg hp]
    rfl

theorem overwrite_all {a data : List B} (h : a.length = data.length) :
    overwrite a 0 data = data := by
  apply List.ext_getElem?
  intro o
  rw [getElem?_overwrite, writtenAt, if_pos (Nat.zero_le o), Nat.sub_zero]
  by_cases ho : o < data.length
  · rw [List.getElem?_eq_getElem ho, List.getElem?_eq_getElem (by omega), Option.map_some,
      Option.getD_some]
  · rw [List.getElem?_eq_none (by omega), List.getElem?_eq_none (by omega), Option.map_none]

variable [DecidableEq K]

namespace ArrayStore

/-- The effect of an event. An array is created with any contents, and creating it may fail; a
name that is taken is not created again. -/
inductive Step (m : ArrayStore K B) : StoreEvent K B → ArrayStore K B → Prop where
  | create {name : K} {a : List B} (h : m name = none) :
      Step m (.create name a.length true) (Function.update m name (some a))
  | createFailed (name : K) (size : ℕ) : Step m (.create name size false) m
  | remove {name : K} (h : m name ≠ none) :
      Step m (.remove name true) (Function.update m name none)
  | removeFailed {name : K} (h : m name = none) : Step m (.remove name false) m
  | lookup {name : K} {ok : Bool} (h : (m name).isSome = ok) : Step m (.lookup name ok) m
  | read {name : K} {a : List B} (n p : ℕ) (h : m name = some a) :
      Step m (.read name n p ((a.drop p).take n)) m
  | write {name : K} {a data : List B} {n p : ℕ} (h : m name = some a)
      (hlen : data.length = min n (a.length - p)) :
      Step m (.write name n p data) (Function.update m name (some (overwrite a p data)))
  | skip : Step m .skip m

/-- **Frame.** An event leaves every other array alone. -/
theorem Step.other {m m' : ArrayStore K B} {ev : StoreEvent K B} (h : m.Step ev m') {name : K}
    (hne : ev.target ≠ some name) : m' name = m name := by
  have hupdate : ∀ {name' : K} {v : Option (List B)}, some name' ≠ some name →
      Function.update m name' v name = m name := fun hne' =>
    Function.update_of_ne (fun heq => hne' (congrArg some heq.symm)) _ _
  cases h with
  | create | remove | write => exact hupdate hne
  | createFailed | removeFailed | lookup | read | skip => rfl

/-- The events, latest first, that lead from the empty store to this one. -/
inductive Trace : List (StoreEvent K B) → ArrayStore K B → Prop where
  | nil : Trace [] fun _ => none
  | cons {evs : List (StoreEvent K B)} {m m' : ArrayStore K B} {ev : StoreEvent K B} :
      Trace evs m → m.Step ev m' → Trace (ev :: evs) m'

end ArrayStore

/-- The value last written to offset `o` of an array since it was created. -/
def lastWritten : List (StoreEvent K B) → K → ℕ → Option B
  | [], _, _ => none
  | .create name' _ true :: evs, name, o => if name = name' then none else lastWritten evs name o
  | .write name' _ p data :: evs, name, o =>
    if name = name' then (writtenAt p data o).or (lastWritten evs name o)
    else lastWritten evs name o
  | _ :: evs, name, o => lastWritten evs name o

namespace ArrayStore

/-- **The store holds what was last written.** -/
theorem Trace.getElem?_of_lastWritten {evs : List (StoreEvent K B)} {m : ArrayStore K B}
    (h : Trace evs m) {name : K} {a : List B} (ha : m name = some a) {o : ℕ} {b : B}
    (hb : lastWritten evs name o = some b) : a[o]? = some b := by
  -- Along the events; an event about another array changes neither side.
  induction h generalizing a with
  | nil => cases ha
  | cons htrace hstep ih =>
    cases hstep with
    | createFailed | removeFailed | lookup | read | skip => exact ih ha hb
    | create hnone =>
      simp only [lastWritten] at hb
      split at hb
      · cases hb
      · rename_i hne
        rw [Function.update_of_ne hne] at ha
        exact ih ha hb
    | remove hsome =>
      rename_i name'
      by_cases hne : name = name'
      · rw [hne, Function.update_self] at ha
        cases ha
      · rw [Function.update_of_ne hne] at ha
        exact ih ha hb
    | write hold hlen =>
      rename_i name' old data n p
      simp only [lastWritten] at hb
      split at hb
      · rename_i heq
        subst heq
        rw [Function.update_self] at ha
        cases ha
        rw [getElem?_overwrite]
        cases hw : writtenAt p data o with
        | some b' =>
          -- The offset was just written, and the data ends before the array does.
          obtain ⟨hp, hlt⟩ := lt_of_writtenAt hw
          rw [hw, Option.some_or] at hb
          rw [List.getElem?_eq_getElem (by omega), Option.map_some, Option.getD_some, hb]
        | none =>
          rw [hw, Option.none_or] at hb
          rw [ih hold hb, Option.map_some, Option.getD_none]
      · rename_i hne
        rw [Function.update_of_ne hne] at ha
        exact ih ha hb

/-- **Reads return what was last written.** -/
theorem Trace.read_lastWritten {evs : List (StoreEvent K B)} {m m' : ArrayStore K B}
    (h : Trace evs m) {name : K} {n p : ℕ} {data : List B} (hstep : m.Step (.read name n p data) m')
    {o : ℕ} (hlo : p ≤ o) (hhi : o < p + n) {b : B} (hb : lastWritten evs name o = some b) :
    data[o - p]? = some b := by
  cases hstep with
  | read n p ha =>
    rw [List.getElem?_take_of_lt (by omega), List.getElem?_drop, Nat.add_sub_cancel' hlo]
    exact h.getElem?_of_lastWritten ha hb

end ArrayStore

end Nachos.Base
