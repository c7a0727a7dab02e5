import Mathlib.Data.List.Nodup

namespace Nachos.Lib

/-!
# Lib — the singly linked `List` of `lib/list.cc`

A `List<T>` is the sequence of its items; `first`, `last` and `numInList` are determined by
it, as `Nachos.Lib.LinkedList` shows. The operations make runtime checks, so they return `none` when
an `ASSERT` fails:

* `append`, `prepend` — `List::Append` and `List::Prepend`, which assert that the item is not in
  the list yet;
* `removeFront` — `List::RemoveFront`, which asserts that the list is not empty;
* `remove` — `List::Remove`, which asserts that the item is in the list before and not after.
-/

variable {α : Type*}

/-- `List::Append`: put `item` after the last element. `ASSERT(!IsInList(item))`. -/
def append [DecidableEq α] (l : List α) (item : α) : Option (List α) :=
  if item ∈ l then none else some (l ++ [item])

/-- `List::Prepend`: the same, before the first element. -/
def prepend [DecidableEq α] (l : List α) (item : α) : Option (List α) :=
  if item ∈ l then none else some (item :: l)

/-- `List::RemoveFront`: take the first item off the list. `ASSERT(!IsEmpty())`. -/
def removeFront : List α → Option (α × List α)
  | [] => none
  | x :: l => some (x, l)

/-- `List::Remove`: take `item` out of the list. `ASSERT(IsInList(item))` at the start,
`ASSERT(!IsInList(item))` at the end. -/
def remove [DecidableEq α] (l : List α) (item : α) : Option (List α) :=
  if item ∈ l ∧ item ∉ l.erase item then some (l.erase item) else none

theorem append_of_notMem [DecidableEq α] {l : List α} {x : α} (h : x ∉ l) :
    append l x = some (l ++ [x]) := if_neg h

theorem nodup_append_singleton {l : List α} {x : α} (h : l.Nodup) (hx : x ∉ l) : (l ++ [x]).Nodup :=
  h.append (List.nodup_singleton x) (List.disjoint_singleton.mpr hx)

/-- An append that passes the assertion puts the item last. -/
theorem append_eq_some [DecidableEq α] {l l' : List α} {x : α} (h : append l x = some l') :
    l ++ [x] = l' := by
  unfold append at h
  split at h
  · cases h
  · exact Option.some.inj h

theorem remove_of_mem [DecidableEq α] {l : List α} {x : α} (hnd : l.Nodup) (hx : x ∈ l) :
    remove l x = some (l.erase x) :=
  if_pos ⟨hx, hnd.not_mem_erase⟩

@[simp] theorem removeFront_cons (x : α) (l : List α) :
    removeFront (x :: l) = some (x, l) := rfl

end Nachos.Lib
