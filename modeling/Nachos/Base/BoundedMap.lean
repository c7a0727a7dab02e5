import Mathlib.Data.Finset.Card

namespace Nachos.Base

/-!
# Base — maps of bounded size

A partial function with at most `n` keys: what a table of `n` entries, each with a key and a
value, is for. A key is put in once and is taken out before it can be put in again; `insert` and
`erase` say whether they have done so, and change nothing if they have not.
-/

/-- A partial function with at most `n` keys. -/
structure BoundedMap (K V : Type*) (n : ℕ) where
  lookup : K → Option V
  keys : Finset K
  mem_keys : ∀ k, k ∈ keys ↔ lookup k ≠ none
  card_le : keys.card ≤ n

namespace BoundedMap

variable {K V : Type*} {n : ℕ}

/-- The map without keys. -/
def empty : BoundedMap K V n where
  lookup := fun _ => none
  keys := ∅
  mem_keys := by simp
  card_le := by simp

variable [DecidableEq K] (m : BoundedMap K V n) (k : K) (v : V)

/-- There is room for the key. -/
def HasRoom : Prop := m.lookup k = none ∧ m.keys.card < n

instance : Decidable (m.HasRoom k) :=
  decidable_of_iff (k ∉ m.keys ∧ m.keys.card < n) (by simp [HasRoom, m.mem_keys])

/-- Put in a key that is not there, if there is room for it. -/
def insert : Bool × BoundedMap K V n :=
  if h : m.HasRoom k then
    (true,
      { lookup := Function.update m.lookup k (some v)
        keys := Insert.insert k m.keys
        mem_keys := by
          intro j
          by_cases hj : j = k <;> simp [hj, m.mem_keys]
        card_le := (Finset.card_insert_le _ _).trans h.2 })
  else (false, m)

/-- Take out a key that is there. -/
def erase : Bool × BoundedMap K V n :=
  if k ∈ m.keys then
    (true,
      { lookup := Function.update m.lookup k none
        keys := m.keys.erase k
        mem_keys := by
          intro j
          by_cases hj : j = k <;> simp [hj, m.mem_keys]
        card_le := (Finset.card_erase_le).trans m.card_le })
  else (false, m)

variable {m k v}

theorem insert_of_hasRoom (h : m.HasRoom k) :
    (m.insert k v).1 = true ∧ (m.insert k v).2.lookup = Function.update m.lookup k (some v) := by
  unfold insert
  rw [dif_pos h]
  exact ⟨rfl, rfl⟩

theorem insert_of_not_hasRoom (h : ¬ m.HasRoom k) : m.insert k v = (false, m) := by
  unfold insert
  rw [dif_neg h]

theorem erase_of_mem (h : m.lookup k ≠ none) :
    (m.erase k).1 = true ∧ (m.erase k).2.lookup = Function.update m.lookup k none := by
  unfold erase
  rw [if_pos ((m.mem_keys k).mpr h)]
  exact ⟨rfl, rfl⟩

theorem erase_of_notMem (h : m.lookup k = none) : m.erase k = (false, m) := by
  unfold erase
  rw [if_neg]
  rw [m.mem_keys]
  exact fun hne => hne h

end BoundedMap

end Nachos.Base
