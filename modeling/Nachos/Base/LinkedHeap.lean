import Mathlib.Data.Fintype.Card
import Mathlib.Data.List.Nodup

namespace Nachos.Base

open Function

/-!
# Base — singly linked lists in a heap

A heap says what cell is at an address, if there is one; a cell holds an item and the pointer to
the next cell. A pointer is an address or null, and what is done through a null pointer, or through
a pointer to no cell, gives `none`.

* `Linked h c q` — each of the cells `c` is in the heap and points to the next one, the last one
  to `q`; `entry c q` is the pointer with which one comes in;
* `Chain rest h c` — the heap `h` is the heap `rest` together with the cells `c`, which are linked.

A program that changes a linked list puts a cell in or takes one out. The four rules
`Chain.linkFront`, `Chain.linkAfter`, `Chain.unlinkFront` and `Chain.unlink` say what the heap has
to be afterwards for the list to be linked again, and that the rest of the heap is as before.
-/

variable {A α : Type*}

/-! ### Cells and heaps -/

/-- A cell: an item, and the pointer to the next cell. -/
structure Cell (A α : Type*) where
  item : α
  next : Option A
  deriving DecidableEq

/-- What is at each address. -/
abbrev Heap (A α : Type*) := A → Option (Cell A α)

namespace Heap

/-- Read through a pointer. -/
def deref (h : Heap A α) (p : Option A) : Option (Cell A α) := p.bind h

variable [DecidableEq A]

/-- Put a new cell, which points nowhere yet, at `a`. -/
def alloc (h : Heap A α) (a : A) (item : α) : Heap A α := update h a (some ⟨item, none⟩)

/-- Make the cell that `p` points to point to `q`. -/
def setNext (h : Heap A α) (p q : Option A) : Option (Heap A α) :=
  p.bind fun a => (h a).map fun c => update h a (some { c with next := q })

/-- Give back the cell that `p` points to; nothing happens if `p` is null. -/
def delete (h : Heap A α) : Option A → Option (Heap A α)
  | none => some h
  | some a => (h a).map fun _ => update h a none

omit [DecidableEq A] in
@[simp] theorem deref_some (h : Heap A α) (a : A) : h.deref (some a) = h a := rfl

theorem setNext_some {h : Heap A α} {a : A} {c : Cell A α} (hc : h a = some c) (q : Option A) :
    h.setNext (some a) q = some (update h a (some ⟨c.item, q⟩)) := by
  simp [setNext, hc]

/-- The new cell itself is made to point somewhere. -/
theorem setNext_alloc (h : Heap A α) (a : A) (x : α) (q : Option A) :
    (h.alloc a x).setNext (some a) q = some (update h a (some ⟨x, q⟩)) := by
  have hcell : h.alloc a x a = some ⟨x, none⟩ := update_self ..
  rw [setNext_some hcell]
  exact congrArg some (update_idem ..)

theorem delete_some {h : Heap A α} {a : A} {c : Cell A α} (hc : h a = some c) :
    h.delete (some a) = some (update h a none) := by
  simp [delete, hc]

end Heap

/-! ### Linked cells -/

/-- The pointer to the first of the cells, or `q` if there are none. -/
def entry (c : List (A × α)) (q : Option A) : Option A := (c.head?.map Prod.fst).or q

@[simp] theorem entry_nil (q : Option A) : entry ([] : List (A × α)) q = q := rfl

@[simp] theorem entry_cons (a : A × α) (c : List (A × α)) (q : Option A) :
    entry (a :: c) q = some a.1 := rfl

theorem entry_append (c d : List (A × α)) (q : Option A) :
    entry (c ++ d) q = entry c (entry d q) := by
  cases c with
  | nil => rfl
  | cons a c => rfl

/-- The pointer to a list of cells that ends with null is null only if there are none. -/
theorem entry_eq_none {c : List (A × α)} : entry c none = none ↔ c = [] := by
  cases c with
  | nil => simp
  | cons a c => simp

/-- The cells are in the heap, each points to the next one, and the last one points to `q`. -/
def Linked (h : Heap A α) : List (A × α) → Option A → Prop
  | [], _ => True
  | a :: c, q => h a.1 = some ⟨a.2, entry c q⟩ ∧ Linked h c q

namespace Linked

variable {h : Heap A α} {c d : List (A × α)} {q : Option A} {a : A}

/-- Two lists of linked cells one after the other. -/
theorem append_iff : Linked h (c ++ d) q ↔ Linked h c (entry d q) ∧ Linked h d q := by
  induction c with
  | nil => simp [Linked]
  | cons a c ih =>
    show (h a.1 = some ⟨a.2, entry (c ++ d) q⟩ ∧ Linked h (c ++ d) q) ↔
      (h a.1 = some ⟨a.2, entry c (entry d q)⟩ ∧ Linked h c (entry d q)) ∧ Linked h d q
    rw [ih, entry_append, and_assoc]

/-- There is a cell at each address of the list. -/
theorem ne_none (hc : Linked h c q) (ha : a ∈ c.map Prod.fst) : h a ≠ none := by
  induction c with
  | nil => cases ha
  | cons b c ih =>
    obtain ⟨hb, hrest⟩ := hc
    rcases List.mem_cons.mp ha with rfl | ha
    · rw [hb]
      exact Option.some_ne_none _
    · exact ih hrest ha

variable [DecidableEq A]

/-- What is written elsewhere does not matter. -/
theorem update (hc : Linked h c q) (ha : a ∉ c.map Prod.fst) (v : Option (Cell A α)) :
    Linked (update h a v) c q := by
  induction c with
  | nil => trivial
  | cons b c ih =>
    obtain ⟨hb, hrest⟩ := hc
    obtain ⟨hne, ha⟩ := not_or.mp (mt List.mem_cons.mpr ha)
    exact ⟨by rw [update_of_ne (Ne.symm hne), hb], ih hrest ha⟩

end Linked

/-! ### A list and the rest of the heap -/

/-- The heap is the heap `rest` together with the cells `c`, which are linked and end with null. -/
structure Chain (rest h : Heap A α) (c : List (A × α)) : Prop where
  linked : Linked h c none
  nodup : (c.map Prod.fst).Nodup
  frame : ∀ a, a ∉ c.map Prod.fst → h a = rest a
  fresh : ∀ a, a ∈ c.map Prod.fst → rest a = none

namespace Chain

variable {rest h : Heap A α} {c w v : List (A × α)} {a p : A} {x y : α}

/-- With a cell behind another one, a list has one address more. -/
theorem addresses_perm (w v : List (A × α)) (p a : A) (y x : α) :
    ((w ++ (p, y) :: (a, x) :: v).map Prod.fst).Perm (a :: (w ++ (p, y) :: v).map Prod.fst) := by
  simp only [List.map_append, List.map_cons]
  exact ((List.Perm.swap a p _).append_left _).trans List.perm_middle

theorem mem_addresses (w v : List (A × α)) (p a : A) (y x : α) (b : A) :
    b ∈ (w ++ (p, y) :: (a, x) :: v).map Prod.fst ↔ b = a ∨
    b ∈ (w ++ (p, y) :: v).map Prod.fst := by
  rw [(addresses_perm w v p a y x).mem_iff, List.mem_cons]

theorem nil (rest : Heap A α) : Chain rest rest [] := by
  refine ⟨trivial, List.nodup_nil, fun a _ => rfl, fun a ha => ?_⟩
  cases ha

/-- A list cannot have more cells than there are addresses. -/
theorem length_le [Fintype A] (hc : Chain rest h c) : c.length ≤ Fintype.card A := by
  rw [← List.length_map Prod.fst]
  exact hc.nodup.length_le_card

/-- A free address is none of the list's. -/
theorem notMem_of_free (hc : Chain rest h c) (ha : h a = none) : a ∉ c.map Prod.fst :=
  fun hmem => hc.linked.ne_none hmem ha

theorem rest_of_free (hc : Chain rest h c) (ha : h a = none) : rest a = none := by
  rw [← hc.frame a (hc.notMem_of_free ha), ha]

/-- What is at the address of a cell of the list. -/
theorem cell_eq (hc : Chain rest h (w ++ (p, y) :: v)) : h p = some ⟨y, entry v none⟩ :=
  (Linked.append_iff.mp hc.linked).2.1

/-- The parts of a list at a cell have their addresses to themselves. -/
theorem notMem_parts (hc : Chain rest h (w ++ (p, y) :: v)) :
    p ∉ w.map Prod.fst ∧ p ∉ v.map Prod.fst := by
  have hnd := hc.nodup
  rw [List.map_append, List.map_cons, List.nodup_middle, List.nodup_cons, List.mem_append] at hnd
  exact not_or.mp hnd.1

variable [DecidableEq A]

/-- **A cell is put in at the front.** -/
theorem linkFront (hc : Chain rest h c) (ha : h a = none) (x : α) :
    Chain rest (update h a (some ⟨x, entry c none⟩)) ((a, x) :: c) := by
  have hnot := hc.notMem_of_free ha
  refine ⟨⟨update_self .., hc.linked.update hnot _⟩, List.nodup_cons.mpr ⟨hnot, hc.nodup⟩,
    fun b hb => ?_, fun b hb => ?_⟩
  · obtain ⟨hne, hb⟩ := not_or.mp (mt List.mem_cons.mpr hb)
    rw [update_of_ne hne, hc.frame b hb]
  · rcases List.mem_cons.mp hb with rfl | hb
    · exact hc.rest_of_free ha
    · exact hc.fresh b hb

/-- **A cell is put in behind another one.** -/
theorem linkAfter (hc : Chain rest h (w ++ (p, y) :: v)) (ha : h a = none) (x : α) :
    Chain rest (update (update h a (some ⟨x, entry v none⟩)) p (some ⟨y, some a⟩))
      (w ++ (p, y) :: (a, x) :: v) := by
  have hnot := hc.notMem_of_free ha
  have hmem := mem_addresses w v p a y x
  obtain ⟨hpw, hpv⟩ := hc.notMem_parts
  obtain ⟨haw, hap, hav⟩ : a ∉ w.map Prod.fst ∧ a ≠ p ∧ a ∉ v.map Prod.fst := by
    simpa [not_or] using hnot
  obtain ⟨hw, -, hv⟩ := Linked.append_iff.mp hc.linked
  refine ⟨Linked.append_iff.mpr ⟨(hw.update haw _).update hpw _, ?_, ?_, ?_⟩, ?_, fun b hb => ?_,
    fun b hb => ?_⟩
  · exact update_self ..
  · rw [update_of_ne hap, update_self]
  · exact (hv.update hav _).update hpv _
  · exact (addresses_perm ..).nodup_iff.mpr (List.nodup_cons.mpr ⟨hnot, hc.nodup⟩)
  · obtain ⟨hne, hb⟩ := not_or.mp (mt (hmem b).mpr hb)
    have hbp : b ≠ p := by
      rintro rfl
      exact hb (by simp)
    rw [update_of_ne hbp, update_of_ne hne, hc.frame b hb]
  · rcases (hmem b).mp hb with rfl | hb
    · exact hc.rest_of_free ha
    · exact hc.fresh b hb

/-- The last of the assignments that put a cell in behind another one. -/
theorem setNext_after (hc : Chain rest h (w ++ (p, y) :: v)) (ha : h a = none) (x : α) :
    Heap.setNext (update h a (some ⟨x, entry v none⟩)) (some p) (some a) =
      some (update (update h a (some ⟨x, entry v none⟩)) p (some ⟨y, some a⟩)) := by
  have hpa : p ≠ a := by
    rintro rfl
    exact hc.notMem_of_free ha (by simp)
  have hcell : update h a (some ⟨x, entry v none⟩) p = some ⟨y, entry v none⟩ :=
    (update_of_ne hpa ..).trans hc.cell_eq
  exact Heap.setNext_some hcell (some a)

/-- **The cell at the front is taken out.** -/
theorem unlinkFront (hc : Chain rest h ((a, x) :: c)) : Chain rest (update h a none) c := by
  obtain ⟨hnot, hnd⟩ := List.nodup_cons.mp hc.nodup
  refine ⟨hc.linked.2.update hnot _, hnd, fun b hb => ?_, fun b hb => ?_⟩
  · by_cases hba : b = a
    · subst hba
      rw [update_self, hc.fresh b List.mem_cons_self]
    · rw [update_of_ne hba, hc.frame b (fun hmem => (List.mem_cons.mp hmem).elim hba hb)]
  · exact hc.fresh b (List.mem_cons_of_mem _ hb)

/-- **The cell behind another one is taken out.** -/
theorem unlink (hc : Chain rest h (w ++ (p, y) :: (a, x) :: v)) :
    Chain rest (update (update h p (some ⟨y, entry v none⟩)) a none)
      (w ++ (p, y) :: v) := by
  have hmem := mem_addresses w v p a y x
  obtain ⟨hnot, hnd⟩ := List.nodup_cons.mp ((addresses_perm ..).nodup_iff.mp hc.nodup)
  obtain ⟨haw, hap, hav⟩ : a ∉ w.map Prod.fst ∧ a ≠ p ∧ a ∉ v.map Prod.fst := by
    simpa [not_or] using hnot
  obtain ⟨hpw, hpv⟩ := hc.notMem_parts
  replace hpv : p ∉ v.map Prod.fst := fun hp => hpv (List.mem_cons_of_mem _ hp)
  obtain ⟨hw, -, -, hv⟩ := Linked.append_iff.mp hc.linked
  refine ⟨Linked.append_iff.mpr ⟨(hw.update hpw _).update haw _, ?_, ?_⟩, hnd, fun b hb => ?_,
    fun b hb => hc.fresh b ((hmem b).mpr (.inr hb))⟩
  · rw [update_of_ne (Ne.symm hap), update_self]
  · exact (hv.update hpv _).update hav _
  · by_cases hba : b = a
    · subst hba
      rw [update_self, hc.fresh b ((hmem b).mpr (.inl rfl))]
    · have hbp : b ≠ p := by
        rintro rfl
        exact hb (by simp)
      rw [update_of_ne hba, update_of_ne hbp,
        hc.frame b (fun hb' => ((hmem b).mp hb').elim hba hb)]

end Chain

end Nachos.Base
