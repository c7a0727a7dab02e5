import Nachos.Base.StableSort

namespace Nachos.Lib.SortedList

/-!
# Lib — the `SortedList` of `lib/list.cc`

`SortedList::Insert` puts an item before the first element it is smaller than, so an item goes
behind the elements it is equal to. `pairwise_insertAfter` is the only fact about the order that
the clients need: a list in which every element stands in `R` to the later ones stays one, if
`R` is what the comparison decides. For a total preorder, `stableSort_insertAfter` says the rest.
-/

open Base

variable {α : Type*} {compare : α → α → Int} {l : List α} {item : α}

/-- The loop of `SortedList::Insert`: put `item` before the first element it is smaller than. -/
def insertAfter (compare : α → α → Int) (item : α) : List α → List α
  | [] => [item]
  | x :: rest =>
    if compare item x < 0 then item :: x :: rest else x :: insertAfter compare item rest

/-- `SortedList::Insert`. `ASSERT(!IsInList(item))`; the assertion at the end is
`mem_insertAfter`. -/
def insert [DecidableEq α] (compare : α → α → Int) (l : List α) (item : α) : Option (List α) :=
  if item ∈ l then none
  else
    match l with
    | [] => some [item]
    | first :: rest =>
      if compare item first < 0 then some (item :: first :: rest)
      else some (first :: insertAfter compare item rest)

/-- The item goes to the front under the same test as anywhere else. -/
theorem insert_of_notMem [DecidableEq α]
    (h : item ∉ l) : insert compare l item = some (insertAfter compare item l) := by
  unfold insert
  rw [if_neg h]
  cases l with
  | nil => rfl
  | cons first rest =>
    simp only [insertAfter]
    split <;> rfl

@[simp] theorem mem_insertAfter {y : α} :
    y ∈ insertAfter compare item l ↔ y = item ∨ y ∈ l := by
  induction l with
  | nil => simp [insertAfter]
  | cons x rest ih =>
    simp only [insertAfter]
    split
    · simp
    · rw [List.mem_cons, ih, List.mem_cons, or_left_comm]

/-- An item that is filtered out is inserted unnoticed. -/
theorem filter_insertAfter {p : α → Bool}
    (h : p item = false) : (insertAfter compare item l).filter p = l.filter p := by
  induction l with
  | nil => simp [insertAfter, h]
  | cons x rest ih =>
    simp only [insertAfter]
    split
    · rw [List.filter_cons_of_neg (by simp [h])]
    · rw [List.filter_cons, List.filter_cons, ih]

/-- Insertion keeps a list ordered by `R`: the elements before the item do not compare greater,
and those behind the first greater one are greater too. -/
theorem pairwise_insertAfter
    {R : α → α → Prop} (h : l.Pairwise R)
    (hlt : ∀ x ∈ l, compare item x < 0 → R item x)
    (hge : ∀ x ∈ l, ¬ compare item x < 0 → R x item)
    (hmono : ∀ x ∈ l, ∀ y ∈ l, R x y → compare item x < 0 → compare item y < 0) :
    (insertAfter compare item l).Pairwise R := by
  induction l with
  | nil => simp [insertAfter]
  | cons x rest ih =>
    obtain ⟨hx, hrest⟩ := List.pairwise_cons.mp h
    simp only [insertAfter]
    split
    · rename_i hc
      refine List.pairwise_cons.mpr ⟨fun y hy => ?_, h⟩
      rcases List.mem_cons.mp hy with rfl | hy'
      · exact hlt y hy hc
      · exact hlt y hy (hmono x (by simp) y hy (hx y hy') hc)
    · rename_i hc
      refine List.pairwise_cons.mpr ⟨fun y hy => ?_, ?_⟩
      · rcases mem_insertAfter.mp hy with rfl | hy
        · exact hge x (by simp) hc
        · exact hx y hy
      · exact ih hrest (fun y hy => hlt y (by simp [hy])) (fun y hy => hge y (by simp [hy]))
          (fun y hy z hz => hmono y (by simp [hy]) z (by simp [hz]))

/-- Where an item is inserted. -/
theorem insertAfter_append {u v : List α}
    (hu : ∀ x ∈ u, ¬ compare item x < 0) (hv : ∀ x ∈ v.head?, compare item x < 0) :
    insertAfter compare item (u ++ v) = u ++ item :: v := by
  induction u with
  | nil =>
    cases v with
    | nil => rfl
    | cons x v => exact if_pos (hv x rfl)
  | cons x u ih =>
    obtain ⟨hx, hu⟩ := List.forall_mem_cons.mp hu
    rw [List.cons_append, insertAfter, if_neg hx, ih hu, List.cons_append]

/-- Every list has such a place. -/
theorem exists_place (compare : α → α → Int) (item : α) (l : List α) :
    ∃ u v, l = u ++ v ∧ (∀ x ∈ u, ¬ compare item x < 0) ∧ ∀ x ∈ v.head?, compare item x < 0 := by
  induction l with
  | nil => exact ⟨[], [], rfl, by simp, by simp⟩
  | cons x l ih =>
    by_cases hx : compare item x < 0
    · exact ⟨[], x :: l, rfl, by simp, by simpa using hx⟩
    · obtain ⟨u, v, rfl, hu, hv⟩ := ih
      exact ⟨x :: u, v, rfl, List.forall_mem_cons.mpr ⟨hx, hu⟩, hv⟩

/-- **Insertion is stable.** The item goes behind those that arrived before it and are equal. -/
theorem stableSort_insertAfter (hcmp : TotalPreorder compare)
    {arrivals : List α} (h : StableSort compare l arrivals) (item : α) :
    StableSort compare (insertAfter compare item l) (arrivals ++ [item]) := by
  obtain ⟨u, v, rfl, hu, hv⟩ := exists_place compare item l
  rw [insertAfter_append hu hv]
  exact h.insert hcmp hu hv

end Nachos.Lib.SortedList
