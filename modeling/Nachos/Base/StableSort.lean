import Mathlib.Data.List.Nodup
import Mathlib.Data.List.Perm.Basic

namespace Nachos.Base

/-!
# Base — three-way comparison and stable order

A comparison function answers with a negative number, zero or a positive number.

* `TotalPreorder compare` — `compare x y ≤ 0` is a total preorder, and the sign is turned around
  with the arguments;
* `StableSort compare l arrivals` — the list has the items of `arrivals` in order, and those that
  compare equal in the order in which they arrived.

`StableSort.insert` and `StableSort.erase` are what a queue does to such a list: an item that
arrives goes behind those that are not greater, and any item may leave.
-/

variable {α : Type*} {compare : α → α → Int} {x y z : α}

/-- The comparison is a total preorder. -/
structure TotalPreorder (compare : α → α → Int) : Prop where
  sign : ∀ x y, compare x y < 0 ↔ 0 < compare y x
  trans : ∀ x y z, compare x y ≤ 0 → compare y z ≤ 0 → compare x z ≤ 0

namespace TotalPreorder

theorem le_of_not_lt (h : TotalPreorder compare) (hxy : ¬ compare x y < 0) : compare y x ≤ 0 := by
  have hsign := h.sign x y
  omega

theorem lt_of_lt_of_le (h : TotalPreorder compare) (hxy : compare x y < 0) (hyz : compare y z ≤ 0) :
    compare x z < 0 := by
  by_contra hxz
  have hyx := h.trans y z x hyz (h.le_of_not_lt hxz)
  have hpos := (h.sign x y).mp hxy
  omega

theorem lt_of_le_of_lt (h : TotalPreorder compare) (hxy : compare x y ≤ 0) (hyz : compare y z < 0) :
    compare x z < 0 := by
  by_contra hxz
  have hzy := h.trans z x y (h.le_of_not_lt hxz) hxy
  have hpos := (h.sign y z).mp hyz
  omega

end TotalPreorder

/-- The items of `arrivals` in order, those that compare equal as they arrived. -/
structure StableSort (compare : α → α → Int) (l arrivals : List α) : Prop where
  sorted : l.Pairwise fun x y => compare x y ≤ 0
  perm : l.Perm arrivals
  stable : ∀ x, (l.filter fun y => compare x y = 0) = arrivals.filter fun y => compare x y = 0

namespace StableSort

variable {u v arrivals : List α}

theorem nil (compare : α → α → Int) : StableSort compare [] [] :=
  ⟨List.Pairwise.nil, .refl _, fun _ => rfl⟩

/-- **An item arrives.** It goes behind the items that are not greater. -/
theorem insert (hcmp : TotalPreorder compare) (h : StableSort compare (u ++ v) arrivals)
    (hu : ∀ y ∈ u, ¬ compare x y < 0) (hv : ∀ y ∈ v.head?, compare x y < 0) :
    StableSort compare (u ++ x :: v) (arrivals ++ [x]) := by
  obtain ⟨hsu, hsv, hcross⟩ := List.pairwise_append.mp h.sorted
  -- The items behind the first greater one are greater, too.
  have hall : ∀ y ∈ v, compare x y < 0 := by
    cases v with
    | nil =>
      intro y hy
      cases hy
    | cons b v =>
      intro y hy
      rcases List.mem_cons.mp hy with rfl | hy
      · exact hv y rfl
      · exact hcmp.lt_of_lt_of_le (hv b rfl) ((List.pairwise_cons.mp hsv).1 y hy)
  refine ⟨List.pairwise_append.mpr ⟨hsu, List.pairwise_cons.mpr ⟨?_, hsv⟩, ?_⟩, ?_, fun z => ?_⟩
  · exact fun y hy => Int.le_of_lt (hall y hy)
  · intro y hy w hw
    rcases List.mem_cons.mp hw with rfl | hw
    · exact hcmp.le_of_not_lt (hu y hy)
    · exact hcross y hy w hw
  · calc (u ++ x :: v).Perm (x :: (u ++ v)) := List.perm_middle
      _ |>.Perm (x :: arrivals) := h.perm.cons x
      _ |>.Perm (arrivals ++ [x]) := (List.perm_append_singleton x arrivals).symm
  · have hstable := h.stable z
    rw [List.filter_append] at hstable
    rw [List.filter_append, List.filter_append, ← hstable]
    by_cases hzx : compare z x = 0
    · -- Nothing behind the item is equal to it.
      have hnone : v.filter (fun y => compare z y = 0) = [] := by
        apply List.filter_eq_nil_iff.mpr
        intro y hy
        have hlt := hcmp.lt_of_le_of_lt (Int.le_of_eq hzx) (hall y hy)
        simp [Int.ne_of_lt hlt]
      simp [hzx, hnone]
    · simp [hzx]

/-- **An item leaves.** -/
theorem erase [DecidableEq α] (h : StableSort compare u arrivals) (hnd : arrivals.Nodup) (x : α) :
    StableSort compare (u.erase x) (arrivals.erase x) := by
  refine ⟨h.sorted.sublist List.erase_sublist, h.perm.erase x, fun z => ?_⟩
  rw [(h.perm.nodup_iff.mpr hnd).erase_eq_filter, hnd.erase_eq_filter, List.filter_comm, h.stable z,
    List.filter_comm]

end StableSort

end Nachos.Base
