import Nachos.Lib.LinkedList
import Nachos.Lib.SortedList

namespace Nachos.Lib

open Base

/-!
# Lib — the elements of a `SortedList` of `lib/list.cc`

A `SortedList` is a `List` with a comparison function and an operation of its own, `Insert`, which
looks for the place of the item and links the new element there.

* `Rep.insert` — `Insert` puts its element behind those that are not greater, which is what
  `SortedList.insert` says of the items;
* `sortedListSystem` — any sequence of `Insert`, `RemoveFront` and `Remove`, together with the items
  that have been inserted and not removed since, in the order of their insertion.
-/

namespace LinkedList

variable {α : Type}

/-- The loop of `SortedList::SanityCheck`. -/
def sortedFrom (compare : α → α → Int) (heap : Heap Addr α) :
    ℕ → Option Addr → Option Addr → Option Unit
  | _, _, none => some ()
  | 0, _, some _ => none
  | fuel + 1, prev, some ptr => do
    let before ← heap.deref prev
    let element ← heap ptr
    assert (compare before.item element.item ≤ 0)
    sortedFrom compare heap fuel (some ptr) element.next

/-- `SortedList::SanityCheck`. -/
def sortedSanityCheck (compare : α → α → Int) (l : LinkedList α) : Option Unit := do
  l.sanityCheck
  if l.first ≠ l.last then
    let front ← l.heap.deref l.first
    sortedFrom compare l.heap maxElements l.first front.next
  else some ()

/-- The loop of `Insert`, which looks for the first element bigger than the item; whether it has
found one and put the new element before it. -/
def insertFrom (compare : α → α → Int) (l : LinkedList α) (element : Addr) (item : α) :
    ℕ → Option Addr → Option (Bool × LinkedList α)
  | 0, _ => none
  | fuel + 1, ptr => do
    let here ← l.heap.deref ptr
    if here.next = none then some (false, l)
    else
      let next ← l.heap.deref here.next
      if compare item next.item < 0 then
        let heap ← l.heap.setNext (some element) here.next
        let heap ← heap.setNext ptr (some element)
        some (true, { l with heap := heap }.countUp)
      else insertFrom compare l element item fuel here.next

/-- Take off the first element again and again. -/
def removeFronts : ℕ → LinkedList α → Option (List α × LinkedList α)
  | 0, l => some ([], l)
  | k + 1, l => do
    let (thing, l) ← l.removeFront
    let (things, l) ← removeFronts k l
    some (thing :: things, l)

/-- `SortedList::Insert`, with the `ListElement` at `element`. It returns from the loop without the
assertion at the end. -/
def insert [DecidableEq α] (compare : α → α → Int) (l : LinkedList α) (element : Addr) (item : α) :
    Option (LinkedList α) := do
  let finish (l : LinkedList α) : Option (LinkedList α) := do
    let l := l.countUp
    assert (← l.isInList item)
    some l
  let l := l.newElement element item
  assert !(← l.isInList item)
  if l.isEmpty then finish { l with first := some element, last := some element }
  else
    let front ← l.heap.deref l.first
    if compare item front.item < 0 then
      let heap ← l.heap.setNext (some element) l.first
      finish { l with heap := heap, first := some element }
    else
      let (found, l) ← insertFrom compare l element item maxElements l.first
      if found then some l
      else
        let heap ← l.heap.setNext l.last (some element)
        finish { l with heap := heap, last := some element }

namespace Rep

variable {compare : α → α → Int} {rest : Heap Addr α} {l : LinkedList α}
  {c u v w : List (Addr × α)} {a p : Addr} {x y : α}

/-- The walk of `SanityCheck` along elements in order. -/
theorem sortedFrom_eq (h : Rep rest l (w ++ (p, y) :: v))
    (hsorted : (((p, y) :: v).map Prod.snd).Pairwise fun x y => compare x y ≤ 0) (fuel : ℕ)
    (hfuel : v.length ≤ fuel) : sortedFrom compare l.heap fuel (some p) (entry v none) =
    some () := by
  induction v generalizing w p y fuel with
  | nil => simp [sortedFrom]
  | cons b v ih =>
    obtain ⟨b, z⟩ := b
    obtain _ | fuel := fuel
    · simp at hfuel
    obtain ⟨hall, hrest⟩ := List.pairwise_cons.mp hsorted
    have hle : compare y z ≤ 0 := hall z (by simp)
    have hsplit : w ++ (p, y) :: (b, z) :: v = (w ++ [(p, y)]) ++ (b, z) :: v := by simp
    have hp := h.cell_eq
    rw [hsplit] at h
    have hrec := ih h hrest fuel (by simpa using hfuel)
    simp only [entry_cons, sortedFrom, Heap.deref_some, hp, h.cell_eq, Option.bind_eq_bind,
      Option.bind_some, decide_eq_true hle, assert_true]
    exact hrec

/-- **`SanityCheck`** passes if the elements are in order. -/
theorem sortedSanityCheck_eq (h : Rep rest l c)
    (hsorted : (c.map Prod.snd).Pairwise fun x y => compare x y ≤ 0) :
    l.sortedSanityCheck compare = some () := by
  simp only [sortedSanityCheck, h.sanityCheck_eq, Option.bind_eq_bind, Option.bind_some]
  cases c with
  | nil =>
    have hfirst : l.first = none := h.first_eq
    have hlast : l.last = none := h.last_eq
    simp [hfirst, hlast]
  | cons b c =>
    obtain ⟨p, y⟩ := b
    have hle := h.length_le
    have hwalk := h.sortedFrom_eq (w := []) hsorted maxElements (by
      simp only [List.length_cons] at hle
      omega)
    have hcell : l.heap p = some ⟨y, entry c none⟩ := h.cell_eq (w := [])
    have hfirst : l.first = some p := h.first_eq
    simp only [hfirst, Heap.deref_some, hcell, Option.bind_some, hwalk, ite_self]

/-- Taking off all elements gives the items in their order. -/
theorem removeFronts_eq (h : Rep rest l c) :
    ∃ l', removeFronts c.length l = some (c.map Prod.snd, l') ∧ Rep rest l' [] := by
  induction c generalizing l with
  | nil => exact ⟨l, rfl, h⟩
  | cons b c ih =>
    obtain ⟨l₁, hfront, h₁⟩ := h.removeFront
    obtain ⟨l', hl', h'⟩ := ih h₁
    refine ⟨l', ?_, h'⟩
    simp only [List.length_cons, removeFronts, hfront, hl', Option.bind_eq_bind, Option.bind_some]
    rfl

/-- The assignments of the loop of `Insert`, which put a new element between two others. -/
theorem linkBetween (h : Rep rest l (w ++ (p, y) :: v)) (ha : l.heap a = none) (x : α)
    (hv : v ≠ []) :
    ∃ heap heap', (l.heap.alloc a x).setNext (some a) (entry v none) = some heap ∧
      heap.setNext (some p) (some a) = some heap' ∧
      Rep rest (countUp ⟨l.toListHead, heap'⟩) (w ++ (p, y) :: (a, x) :: v) := by
  refine ⟨_, _, Heap.setNext_alloc .., h.chain.setNext_after ha x, h.chain.linkAfter ha x, ?_,
    ?_, ?_⟩
  · show l.first = _
    rw [h.first_eq, entry_append, entry_append]
    rfl
  · show l.last = _
    obtain ⟨b, v, rfl⟩ := List.exists_cons_of_ne_nil hv
    rw [h.last_eq]
    simp
  · refine h.wrap32_succ.trans ?_
    simp only [List.length_append, List.length_cons]
    push_cast
    omega

/-- A new element leaves the others alone. -/
theorem cell_newElement (h : Rep rest l (w ++ (p, y) :: v)) (ha : l.heap a = none) (x : α) :
    (l.newElement a x).heap p = some ⟨y, entry v none⟩ := by
  have hpa : p ≠ a := by
    rintro rfl
    exact h.chain.notMem_of_free ha (by simp)
  exact (Function.update_of_ne hpa ..).trans h.cell_eq

/-- The loop of `Insert` goes by the elements that are not greater than the item. -/
theorem insertFrom_eq (compare : α → α → Int) (h : Rep rest l (w ++ (p, y) :: v))
    (ha : l.heap a = none) (x : α) (fuel : ℕ) (hfuel : v.length < fuel) :
    (insertFrom compare (l.newElement a x) a x fuel (some p) = some (false, l.newElement a x) ∧
      ∀ b ∈ v, ¬ compare x b.2 < 0) ∨
    ∃ u e t l', v = u ++ e :: t ∧ (∀ b ∈ u, ¬ compare x b.2 < 0) ∧ compare x e.2 < 0 ∧
      insertFrom compare (l.newElement a x) a x fuel (some p) = some (true, l') ∧
      Rep rest l' (w ++ (p, y) :: (u ++ (a, x) :: e :: t)) := by
  obtain _ | fuel := fuel
  · omega
  induction v generalizing w p y fuel with
  | nil =>
    refine .inl ⟨?_, by simp⟩
    simp [insertFrom, h.cell_newElement ha x]
  | cons b v ih =>
    obtain ⟨b, z⟩ := b
    have hsplit : ∀ t, w ++ (p, y) :: (b, z) :: t = (w ++ [(p, y)]) ++ (b, z) :: t := by simp
    have hp := h.cell_newElement ha x
    have hb := Rep.cell_newElement (hsplit v ▸ h) ha x
    by_cases hlt : compare x z < 0
    · -- The first bigger element: the new one goes before it.
      obtain ⟨heap, heap', hnext, hnext', hrep⟩ := h.linkBetween ha x (List.cons_ne_nil _ _)
      refine .inr ⟨[], (b, z), v, _, rfl, by simp, hlt, ?_, hrep⟩
      have hnext : (l.newElement a x).heap.setNext (some a) (some b) = some heap := hnext
      simp only [insertFrom, Heap.deref_some, hp, hb, entry_cons, Option.bind_eq_bind,
        Option.bind_some, reduceCtorEq, if_false, if_pos hlt, hnext, hnext']
      rfl
    · obtain _ | fuel := fuel
      · simp at hfuel
      have hstep : insertFrom compare (l.newElement a x) a x (fuel + 1 + 1) (some p)
          = insertFrom compare (l.newElement a x) a x (fuel + 1) (some b) := by
        simp only [insertFrom, Heap.deref_some, hp, hb, entry_cons, Option.bind_eq_bind,
          Option.bind_some, reduceCtorEq, if_false, if_neg hlt]
      rw [hstep]
      rcases ih (hsplit v ▸ h) fuel (by simpa using hfuel) with ⟨heq, hall⟩ |
        ⟨u, e, t, l', rfl, hu, he, heq, hrep⟩
      · refine .inl ⟨heq, fun d hd => ?_⟩
        rcases List.mem_cons.mp hd with rfl | hd
        · exact hlt
        · exact hall d hd
      · refine .inr ⟨(b, z) :: u, e, t, l', rfl, fun d hd => ?_, he, heq, ?_⟩
        · rcases List.mem_cons.mp hd with rfl | hd
          · exact hlt
          · exact hu d hd
        · rw [List.cons_append, hsplit]
          exact hrep

/-- The items, when an element is put behind those that are not greater. -/
theorem map_eq_insertAfter (hu : ∀ b ∈ u, ¬ compare x b.2 < 0)
    (hv : ∀ b ∈ v.head?, compare x b.2 < 0) :
    (u ++ (a, x) :: v).map Prod.snd = SortedList.insertAfter compare x ((u ++ v).map Prod.snd) := by
  rw [List.map_append, List.map_append, List.map_cons, SortedList.insertAfter_append]
  · exact List.forall_mem_map.mpr hu
  · rw [List.head?_map]
    intro y hy
    obtain ⟨b, hb, rfl⟩ := Option.map_eq_some_iff.mp hy
    exact hv b hb

/-- **`Insert`** passes its checks and puts its element where `insertAfter` puts the item. -/
theorem insert [DecidableEq α] (compare : α → α → Int) (h : Rep rest l c) (ha : l.heap a = none)
    (hx : x ∉ c.map Prod.snd) :
    ∃ l' d, l.insert compare a x = some l' ∧ Rep rest l' d ∧
      d.map Prod.snd = SortedList.insertAfter compare x (c.map Prod.snd) := by
  have hempty : (l.newElement a x).isEmpty = c.isEmpty := h.isEmpty_eq
  simp only [LinkedList.insert, h.isInList_newElement ha hx, Option.bind_eq_bind, Option.bind_some,
    Bool.not_false, assert_true, hempty]
  cases c with
  | nil =>
    have hrep : Rep rest (countUp ⟨⟨some a, some a, l.numInList⟩, l.heap.alloc a x⟩) [(a, x)] :=
      ⟨h.chain.linkFront ha x, rfl, rfl, h.wrap32_succ⟩
    exact ⟨_, _, hrep.assert_isInList (by simp), hrep, rfl⟩
  | cons b c =>
    obtain ⟨p, y⟩ := b
    have hcell := h.cell_newElement (w := []) ha x
    have hfirst : (l.newElement a x).first = some p := h.first_eq
    simp only [List.isEmpty_cons, Bool.false_eq_true, if_false, hfirst, Heap.deref_some, hcell,
      Option.bind_some]
    by_cases hlt : compare x y < 0
    · obtain ⟨heap, hnext, hrep⟩ := h.linkFirst ha x (List.cons_ne_nil _ _)
      rw [h.first_eq] at hnext
      have hnext : (l.newElement a x).heap.setNext (some a) (some p) = some heap := hnext
      refine ⟨_, _, ?_, hrep, ?_⟩
      · rw [if_pos hlt, hnext]
        exact hrep.assert_isInList (by simp)
      · exact map_eq_insertAfter (u := []) (by simp) (by simpa using hlt)
    · rw [if_neg hlt]
      rcases h.insertFrom_eq compare (w := []) ha x maxElements h.length_le with ⟨heq, hall⟩ |
        ⟨u, e, t, l', rfl, hu, he, heq, hrep⟩
      · obtain ⟨heap, hnext, hrep⟩ := h.linkLast ha x (List.cons_ne_nil _ _)
        have hnext : (l.newElement a x).heap.setNext (l.newElement a x).last (some a) = some heap :=
          hnext
        refine ⟨_, _, ?_, hrep, ?_⟩
        · simp only [heq, Option.bind_some, Bool.false_eq_true, if_false, hnext]
          exact hrep.assert_isInList (by simp)
        · rw [map_eq_insertAfter (List.forall_mem_cons.mpr ⟨hlt, hall⟩) (by simp), List.append_nil]
      · refine ⟨l', _, ?_, hrep, ?_⟩
        · simp only [heq, Option.bind_some, if_true]
        · exact map_eq_insertAfter (List.forall_mem_cons.mpr ⟨hlt, hu⟩) (by simpa using he)

end Rep

end LinkedList

/-! ### Any sequence of operations -/

/-- A sorted list, and the items that have been inserted and not removed since, in the order of
their insertion. -/
structure SortedState (α : Type) where
  list : LinkedList α
  arrivals : List α

/-- What can happen next; a new element can be put anywhere. -/
inductive SortedAction (α : Type) where
  | insert (item : α) (element : Addr)
  | removeFront
  | remove (item : α)

variable {α : Type} [DecidableEq α]

/-- One operation, on an item that is absent or present as it has to be. -/
def SortedState.next (compare : α → α → Int) (s : SortedState α) :
    SortedAction α → Outcome (SortedState α)
  | .insert item element =>
    if s.list.heap element = none ∧ item ∉ s.arrivals then
      match s.list.insert compare element item with
      | none => .fault
      | some list => .next ⟨list, s.arrivals ++ [item]⟩
    else .disabled
  | .removeFront =>
    if s.arrivals ≠ [] then
      match s.list.removeFront with
      | none => .fault
      | some (thing, list) => .next ⟨list, s.arrivals.erase thing⟩
    else .disabled
  | .remove item =>
    if item ∈ s.arrivals then
      match s.list.remove item with
      | none => .fault
      | some list => .next ⟨list, s.arrivals.erase item⟩
    else .disabled

/-- Any sequence of operations from the empty list, in a heap with other things in it. -/
def sortedListSystem (compare : α → α → Int) (rest : Heap Addr α) :
    LTS (SortedState α) (SortedAction α) where
  init := fun s => s = ⟨.new rest, []⟩
  next := SortedState.next compare

variable {compare : α → α → Int} {rest : Heap Addr α}

omit [DecidableEq α] in
/-- The list has the items of `arrivals` in order, and gives them back in this order. -/
structure LinkedList.IsQueue (compare : α → α → Int) (rest : Heap Addr α) (l : LinkedList α)
    (items arrivals : List α) : Prop where
  elements : ∃ c, l.Rep rest c ∧ c.map Prod.snd = items
  order : StableSort compare items arrivals
  numInList_eq : l.numInList = arrivals.length
  last_eq : ∀ x, items.getLast? = some x → ∃ a, l.last = some a ∧ l.heap a = some ⟨x, none⟩
  sanityCheck : l.sortedSanityCheck compare = some ()
  removeFronts : ∃ l', removeFronts items.length l = some (items, l') ∧ l'.isEmpty = true

omit [DecidableEq α] in
theorem LinkedList.Rep.isQueue {l : LinkedList α} {c : List (Addr × α)} {arrivals : List α}
    (h : l.Rep rest c) (horder : StableSort compare (c.map Prod.snd) arrivals) :
    l.IsQueue compare rest (c.map Prod.snd) arrivals where
  elements := ⟨c, h, rfl⟩
  order := horder
  numInList_eq := by rw [h.numInList_eq, ← horder.perm.length_eq, List.length_map]
  last_eq := by
    intro x hx
    rcases List.eq_nil_or_concat' c with rfl | ⟨w, ⟨p, y⟩, rfl⟩
    · cases hx
    · obtain rfl : y = x := by simpa using hx
      exact ⟨p, h.last_concat, h.cell_eq⟩
  sanityCheck := h.sortedSanityCheck_eq horder.sorted
  removeFronts := by
    obtain ⟨l', hl', hnil⟩ := h.removeFronts_eq
    rw [List.length_map]
    exact ⟨l', hl', hnil.isEmpty_eq⟩

/-- The items of the list are the stable sort of those that arrived. -/
def SortedState.Inv (compare : α → α → Int) (rest : Heap Addr α) (s : SortedState α) : Prop :=
  ∃ c, s.list.Rep rest c ∧ StableSort compare (c.map Prod.snd) s.arrivals ∧ s.arrivals.Nodup

/-- Every operation keeps the order, and trips no check. -/
theorem SortedState.Inv.next_meets {s : SortedState α} (hcmp : TotalPreorder compare)
    (h : s.Inv compare rest) (a : SortedAction α) :
    (s.next compare a).Meets (Inv compare rest) := by
  obtain ⟨c, hrep, horder, hnd⟩ := h
  have hmem : ∀ {x}, x ∈ s.arrivals ↔ x ∈ c.map Prod.snd := horder.perm.mem_iff.symm
  cases a with
  | insert item element =>
    apply Outcome.Meets.ite
    rintro ⟨hfree, hnot⟩
    obtain ⟨l', d, hl', hrep', hd⟩ := hrep.insert compare hfree (mt hmem.mpr hnot)
    simp only [hl', Outcome.meets_next]
    refine ⟨d, hrep', ?_, nodup_append_singleton hnd hnot⟩
    rw [hd]
    exact SortedList.stableSort_insertAfter hcmp horder item
  | removeFront =>
    apply Outcome.Meets.ite
    intro hne
    cases c with
    | nil => exact absurd horder.perm.symm.eq_nil hne
    | cons b c =>
      obtain ⟨l', hl', hrep'⟩ := hrep.removeFront
      simp only [hl', Outcome.meets_next]
      refine ⟨c, hrep', ?_, hnd.erase _⟩
      have herase := horder.erase hnd b.2
      rwa [List.map_cons, List.erase_cons_head] at herase
  | remove item =>
    apply Outcome.Meets.ite
    intro hin
    obtain ⟨l', d, hl', hrep', hd⟩ := hrep.remove (horder.perm.nodup_iff.mpr hnd) (hmem.mp hin)
    simp only [hl', Outcome.meets_next]
    refine ⟨d, hrep', ?_, hnd.erase item⟩
    rw [hd]
    exact horder.erase hnd item

/-- **A sorted list is a stable priority queue.** Whatever is inserted and removed, the list has the
items that have been inserted and not removed since, in order, and those that compare equal in
the order of their insertion; taken off one after the other, they come in this order; and no
runtime check fails. -/
theorem sorted_list_stable_queue (hcmp : TotalPreorder compare) (s : SortedState α)
    (h : (sortedListSystem compare rest).Reachable s) :
    (∃ items, s.list.IsQueue compare rest items s.arrivals) ∧ ∀ a, s.next compare a ≠ .fault := by
  have hsafe := h.safe (I := SortedState.Inv compare rest)
    (fun s hs => by subst hs; exact ⟨[], .new rest, .nil compare, List.nodup_nil⟩)
    (fun s a hs => hs.next_meets hcmp a)
  obtain ⟨⟨c, hrep, horder, -⟩, hfault⟩ := hsafe
  exact ⟨⟨_, hrep.isQueue horder⟩, hfault⟩

/-- Items with a priority and a number: of those with the same priority, the one that was inserted
first comes first, also when it is not the smallest number. -/
theorem sorted_list_stable_queue_ties : ∃ s : SortedState (ℕ × ℕ),
    s.arrivals = [(2, 9), (1, 7), (2, 3)] ∧
    ∃ items, s.list.IsQueue (fun x y => (x.1 : Int) - y.1) (fun _ => none) items s.arrivals := by
  have hcmp : TotalPreorder fun x y : ℕ × ℕ => (x.1 : Int) - y.1 :=
    ⟨fun x y => by omega, fun x y z => by omega⟩
  obtain ⟨s, hs, harrivals⟩ :=
    (sortedListSystem (fun x y : ℕ × ℕ => (x.1 : Int) - y.1) fun _ => none).reaches rfl
      [.insert (2, 9) ⟨8, by decide⟩, .insert (1, 8) ⟨9, by decide⟩, .insert (3, 5) ⟨5, by decide⟩,
        .insert (1, 7) ⟨7, by decide⟩, .removeFront, .insert (2, 3) ⟨9, by decide⟩, .remove (3, 5)]
      (fun s => s.arrivals = [(2, 9), (1, 7), (2, 3)]) (by decide +kernel)
  exact ⟨s, harrivals, (sorted_list_stable_queue hcmp s hs).1⟩

end Nachos.Lib
