import Nachos.Base.CInt
import Nachos.Base.LinkedHeap
import Nachos.Base.Transition
import Nachos.Lib.List

namespace Nachos.Lib

open Base Function

/-!
# Lib — the elements of a `List` of `lib/list.cc`

A `List` object points to the first and to the last of its `ListElement`s, which are in the heap and
point to each other, and it counts them. Here are the operations on that representation, assignment
by assignment. An operation gives `none` when an `ASSERT` fails, when a null pointer or a pointer to
no element is followed, and when a loop does not end.

* `LinkedList.Rep rest l c` — the list `l` has the elements `c`, and the heap is `rest` apart from
  them;
* `Rep.append`, `Rep.prepend`, `Rep.removeFront`, `Rep.remove` — what each operation makes of them;
* `listSystem` — any sequence of operations, together with the sequence of items it is about.
-/

/-- `ASSERT`. -/
def assert (condition : Bool) : Option Unit := if condition then some () else none

@[simp] theorem assert_true : assert true = some () := rfl

/-! ### The representation -/

/-- How many `ListElement`s there can be: each takes eight bytes or more of a 32-bit address
space. -/
def maxElements : ℕ := 536870912

/-- Where a `ListElement` can be. -/
abbrev Addr := Fin maxElements

/-- The fields of a `List` object. -/
structure ListHead where
  first : Option Addr
  last : Option Addr
  numInList : Int
  deriving DecidableEq

/-- `List::List`. -/
def ListHead.new : ListHead := ⟨none, none, 0⟩

/-- `List::IsEmpty`. -/
def ListHead.isEmpty (l : ListHead) : Bool := l.numInList = 0

/-- A `List` object, and the heap with the `ListElement`s. -/
structure LinkedList (α : Type) extends ListHead where
  heap : Heap Addr α

namespace LinkedList

variable {α : Type}

/-- An empty list. -/
def new (heap : Heap Addr α) : LinkedList α := ⟨ListHead.new, heap⟩

/-- `new ListElement<T>(item)`, which is put at `element`. -/
def newElement (l : LinkedList α) (element : Addr) (item : α) : LinkedList α :=
  { l with heap := l.heap.alloc element item }

/-- `numInList++`. -/
def countUp (l : LinkedList α) : LinkedList α := { l with numInList := wrap32 (l.numInList + 1) }

/-- `numInList--`. -/
def countDown (l : LinkedList α) : LinkedList α := { l with numInList := wrap32 (l.numInList - 1) }

/-- The loop of `SanityCheck`, which counts the elements up to the last. -/
def countFrom (l : LinkedList α) (fuel : ℕ) (ptr : Option Addr) (numFound : Int) : Option Int :=
  if ptr = l.last then some numFound
  else
    match fuel with
    | 0 => none
    | fuel + 1 => do
      let numFound := wrap32 (numFound + 1)
      assert (numFound ≤ l.numInList)
      let element ← l.heap.deref ptr
      countFrom l fuel element.next numFound

/-- `List::SanityCheck`. -/
def sanityCheck (l : LinkedList α) : Option Unit :=
  if l.first = none then assert (l.numInList = 0 ∧ l.last = none)
  else if l.first = l.last then do
    let last ← l.heap.deref l.last
    assert (l.numInList = 1 ∧ last.next = none)
  else do
    let numFound ← l.countFrom maxElements l.first 1
    assert (numFound = l.numInList)
    let last ← l.heap.deref l.last
    assert (last.next = none)

/-- `List::RemoveFront`. -/
def removeFront (l : LinkedList α) : Option (α × LinkedList α) := do
  let element := l.first
  assert !l.isEmpty
  let front ← l.heap.deref l.first
  let thing := front.item
  let l ←
    if l.first = l.last then some { l with first := none, last := none }
    else do
      let front ← l.heap.deref element
      some { l with first := front.next }
  let l := l.countDown
  let heap ← l.heap.delete element
  some (thing, { l with heap := heap })

section Search

variable [DecidableEq α]

/-- The loop of `IsInList`. A walk of more steps than there are places for an element comes by a
place twice and never ends. -/
def searchFrom (heap : Heap Addr α) (item : α) : ℕ → Option Addr → Option Bool
  | _, none => some false
  | 0, some _ => none
  | fuel + 1, some ptr => do
    let element ← heap ptr
    if item = element.item then some true else searchFrom heap item fuel element.next

/-- `List::IsInList`. -/
def isInList (l : LinkedList α) (item : α) : Option Bool :=
  searchFrom l.heap item maxElements l.first

/-- What `Append` and `Prepend` do around the assignments that link the new element into a list
that is not empty. -/
def addElement (l : LinkedList α) (element : Addr) (item : α)
    (link : LinkedList α → Option (LinkedList α)) : Option (LinkedList α) := do
  let l := l.newElement element item
  assert !(← l.isInList item)
  let l ← if l.isEmpty then some { l with first := some element, last := some element } else link l
  let l := l.countUp
  assert (← l.isInList item)
  some l

/-- `List::Append`, with the `ListElement` at `element`. -/
def append (l : LinkedList α) (element : Addr) (item : α) : Option (LinkedList α) :=
  l.addElement element item fun l => do
    let heap ← l.heap.setNext l.last (some element)
    some { l with heap := heap, last := some element }

/-- `List::Prepend`, with the `ListElement` at `element`. -/
def prepend (l : LinkedList α) (element : Addr) (item : α) : Option (LinkedList α) :=
  l.addElement element item fun l => do
    let heap ← l.heap.setNext (some element) l.first
    some { l with heap := heap, first := some element }

/-- The loop of `Remove`: the pointer with which it ends, and the list. -/
def removeFrom (l : LinkedList α) (item : α) : ℕ → Option Addr → Option Addr →
    Option (Option Addr × LinkedList α)
  | _, _, none => some (none, l)
  | 0, _, some _ => none
  | fuel + 1, prev, some ptr => do
    let element ← l.heap ptr
    if item = element.item then
      let heap ← l.heap.setNext prev element.next
      let before ← heap.deref prev
      let last := if before.next = none then prev else l.last
      let heap ← heap.delete (some ptr)
      some (some ptr, { l with heap := heap, last := last }.countDown)
    else removeFrom l item fuel (some ptr) element.next

/-- `List::Remove`. -/
def remove (l : LinkedList α) (item : α) : Option (LinkedList α) := do
  assert (← l.isInList item)
  let front ← l.heap.deref l.first
  let l ←
    if item = front.item then do
      let (removed, l) ← l.removeFront
      assert (item = removed)
      some l
    else do
      let (ptr, l) ← l.removeFrom item maxElements l.first front.next
      assert (ptr ≠ none)
      some l
  assert !(← l.isInList item)
  some l

end Search

/-! ### The elements of a list -/

/-- The elements of the list are `c`, and the heap is `rest` apart from them. -/
structure Rep (rest : Heap Addr α) (l : LinkedList α) (c : List (Addr × α)) : Prop where
  chain : Chain rest l.heap c
  first_eq : l.first = entry c none
  last_eq : l.last = c.getLast?.map Prod.fst
  numInList_eq : l.numInList = c.length

namespace Rep

variable {rest : Heap Addr α} {l : LinkedList α} {c u v w : List (Addr × α)} {a p : Addr} {x y : α}

theorem new (rest : Heap Addr α) : Rep rest (LinkedList.new rest) [] :=
  ⟨Chain.nil rest, rfl, rfl, rfl⟩

theorem length_le (h : Rep rest l c) : c.length ≤ maxElements := by
  have hle := h.chain.length_le
  rwa [Fintype.card_fin] at hle

theorem wrap32_succ (h : Rep rest l c) : wrap32 (l.numInList + 1) = (c.length + 1 : ℕ) := by
  have hle := h.length_le
  unfold maxElements at hle
  rw [h.numInList_eq, ← Int.natCast_succ, wrap32_natCast (by omega)]

/-- Counting one element less gives the number of the others. -/
theorem wrap32_pred (h : Rep rest l c) (hd : c.length = w.length + 1) :
    wrap32 (l.numInList - 1) = w.length := by
  have hle := h.length_le
  unfold maxElements at hle
  rw [h.numInList_eq, hd, Int.natCast_succ, Int.add_sub_cancel, wrap32_natCast (by omega)]

theorem isEmpty_eq (h : Rep rest l c) : l.isEmpty = c.isEmpty := by
  unfold ListHead.isEmpty
  rw [h.numInList_eq, Bool.eq_iff_iff, decide_eq_true_iff, List.isEmpty_iff, Int.natCast_eq_zero,
    List.length_eq_zero_iff]

theorem last_concat (h : Rep rest l (w ++ [(p, y)])) : l.last = some p := by
  rw [h.last_eq, List.getLast?_concat]
  rfl

/-- An element with others behind it is not the last one. -/
theorem ne_last (h : Rep rest l (w ++ (p, y) :: v)) (hv : v ≠ []) : some p ≠ l.last := by
  obtain ⟨u, b, rfl⟩ := (List.eq_nil_or_concat' v).resolve_left hv
  have hlast : l.last = some b.1 := by
    rw [h.last_eq, ← List.cons_append, ← List.append_assoc, List.getLast?_concat]
    rfl
  have hnot := h.chain.notMem_parts.2
  rw [hlast]
  intro heq
  exact hnot (by simp [Option.some.inj heq])

theorem cell_eq (h : Rep rest l (w ++ (p, y) :: v)) : l.heap p = some ⟨y, entry v none⟩ :=
  h.chain.cell_eq

/-- The assignments that make a new element the first one. -/
theorem linkFirst (h : Rep rest l c) (ha : l.heap a = none) (x : α) (hc : c ≠ []) :
    ∃ heap, (l.heap.alloc a x).setNext (some a) l.first = some heap ∧
      Rep rest (countUp ⟨⟨some a, l.last, l.numInList⟩, heap⟩) ((a, x) :: c) := by
  refine ⟨update l.heap a (some ⟨x, entry c none⟩), ?_, h.chain.linkFront ha x, rfl, ?_,
    h.wrap32_succ⟩
  · rw [Heap.setNext_alloc, h.first_eq]
  · obtain ⟨b, c, rfl⟩ := List.exists_cons_of_ne_nil hc
    exact h.last_eq

/-- The assignments that make a new element the last one. -/
theorem linkLast (h : Rep rest l c) (ha : l.heap a = none) (x : α) (hc : c ≠ []) :
    ∃ heap, (l.heap.alloc a x).setNext l.last (some a) = some heap ∧
      Rep rest (countUp ⟨⟨l.first, some a, l.numInList⟩, heap⟩) (c ++ [(a, x)]) := by
  obtain ⟨w, ⟨p, y⟩, rfl⟩ := (List.eq_nil_or_concat' c).resolve_left hc
  refine ⟨update (l.heap.alloc a x) p (some ⟨y, some a⟩), ?_, ?_, ?_, ?_, ?_⟩
  · rw [h.last_concat]
    exact h.chain.setNext_after (v := []) ha x
  · rw [List.append_assoc]
    exact h.chain.linkAfter ha x
  · show l.first = _
    rw [h.first_eq, List.append_assoc, entry_append, entry_append]
    rfl
  · rw [List.getLast?_concat]
    rfl
  · rw [List.length_append]
    exact h.wrap32_succ

/-- **`RemoveFront`** takes off the first element and returns its item. -/
theorem removeFront (h : Rep rest l ((a, x) :: c)) :
    ∃ l', l.removeFront = some (x, l') ∧ Rep rest l' c := by
  have hcell : l.heap a = some ⟨x, entry c none⟩ := h.cell_eq (w := [])
  have hfirst : l.first = some a := h.first_eq
  have hcount := h.wrap32_pred (w := c) rfl
  have hchain := h.chain.unlinkFront
  simp only [LinkedList.removeFront, h.isEmpty_eq, List.isEmpty_cons, Bool.not_false, assert_true,
    Option.bind_eq_bind, Option.bind_some, hfirst, Heap.deref_some, hcell]
  by_cases hc : c = []
  · subst hc
    have hlast : some a = l.last := (h.last_concat (w := [])).symm
    rw [if_pos hlast]
    simp only [countDown, Option.bind_some, Heap.delete_some hcell]
    exact ⟨_, rfl, hchain, rfl, rfl, hcount⟩
  · rw [if_neg (h.ne_last (w := []) hc)]
    simp only [countDown, Option.bind_some, Heap.delete_some hcell]
    refine ⟨_, rfl, hchain, rfl, ?_, hcount⟩
    obtain ⟨b, c, rfl⟩ := List.exists_cons_of_ne_nil hc
    exact h.last_eq

/-- The walk of `SanityCheck`, which has come by the elements `w`, counts the others. -/
theorem countFrom_eq (h : Rep rest l (w ++ v)) (hv : v ≠ []) (fuel : ℕ) (hfuel : v.length ≤ fuel) :
    l.countFrom fuel (entry v none) (w.length + 1 : ℕ) = some ((w ++ v).length : Int) := by
  induction v generalizing w fuel with
  | nil => exact absurd rfl hv
  | cons b v ih =>
    obtain ⟨p, y⟩ := b
    obtain _ | fuel := fuel
    · simp at hfuel
    unfold LinkedList.countFrom
    rw [entry_cons]
    by_cases hnil : v = []
    · subst hnil
      rw [if_pos h.last_concat.symm, List.length_append, List.length_singleton]
    · have hle := h.length_le
      have hpos := List.length_pos_of_ne_nil hnil
      unfold maxElements at hle
      rw [if_neg (h.ne_last hnil)]
      have hlen : (w ++ (p, y) :: v).length = w.length + 1 + v.length := by
        simp only [List.length_append, List.length_cons]
        omega
      -- One more has been found, and the last one is not among them.
      have hfound : wrap32 ((w.length + 1 : ℕ) + 1) = (w.length + 1 + 1 : ℕ) := by
        rw [← Int.natCast_succ, wrap32_natCast (by omega)]
      have hassert : decide (((w.length + 1 + 1 : ℕ) : Int) ≤ l.numInList) = true := by
        rw [h.numInList_eq, decide_eq_true_iff]
        omega
      have hsplit : w ++ (p, y) :: v = w ++ [(p, y)] ++ v := by simp
      have hrec := ih (w := w ++ [(p, y)]) (by rw [← hsplit]; exact h) hnil fuel
        (by simpa using hfuel)
      rw [← hsplit, List.length_append, List.length_singleton] at hrec
      simp only [hfound, hassert, assert_true, Heap.deref_some, h.cell_eq, Option.bind_eq_bind,
        Option.bind_some]
      exact hrec

/-- **`SanityCheck`** passes. -/
theorem sanityCheck_eq (h : Rep rest l c) : l.sanityCheck = some () := by
  unfold LinkedList.sanityCheck
  rcases List.eq_nil_or_concat' c with rfl | ⟨w, ⟨p, y⟩, rfl⟩
  · have hfirst : l.first = none := h.first_eq
    have hlast : l.last = none := h.last_eq
    have hnum : l.numInList = 0 := h.numInList_eq
    simp [hfirst, hlast, hnum]
  · have hlast := h.last_concat
    have hcell : l.heap p = some ⟨y, none⟩ := h.cell_eq (v := [])
    have hcount : l.countFrom maxElements l.first 1 = some ((w ++ [(p, y)]).length : Int) := by
      rw [h.first_eq]
      exact h.countFrom_eq (w := []) (by simp) maxElements h.length_le
    have hfirst : l.first ≠ none := by
      rw [h.first_eq, Ne, entry_eq_none]
      simp
    rw [if_neg hfirst]
    by_cases hone : l.first = l.last
    · -- The first element is the last one, so it has no others behind it.
      have hnum : l.numInList = 1 := by
        cases w with
        | nil => exact h.numInList_eq
        | cons b w =>
          obtain ⟨a, x⟩ := b
          exact absurd (h.first_eq.symm.trans hone) (h.ne_last (w := []) (by simp))
      rw [if_pos hone]
      simp [hlast, hcell, hnum]
    · rw [if_neg hone, hcount]
      simp [hlast, hcell, h.numInList_eq]

end Rep

/-! ### Looking for an item, adding and removing one -/

variable [DecidableEq α]

/-- The walk of `IsInList` meets the items one after the other. -/
theorem searchFrom_eq {heap : Heap Addr α} {c : List (Addr × α)} (hc : Linked heap c none)
    (item : α) (fuel : ℕ) (hfuel : c.length ≤ fuel) :
    searchFrom heap item fuel (entry c none) = some (decide (item ∈ c.map Prod.snd)) := by
  induction c generalizing fuel with
  | nil => simp [searchFrom]
  | cons a c ih =>
    obtain _ | fuel := fuel
    · simp at hfuel
    obtain ⟨ha, hrest⟩ := hc
    have hstep := ih hrest fuel (by simpa using hfuel)
    simp only [entry_cons, searchFrom, ha, Option.bind_eq_bind, Option.bind_some, hstep]
    by_cases hitem : item = a.2
    · simp [hitem]
    · simp [hitem]

namespace Rep

variable {rest : Heap Addr α} {l : LinkedList α} {c u v w : List (Addr × α)} {a p : Addr} {x y : α}

/-- **`IsInList`** asks whether the item is one of the list. -/
theorem isInList_eq (h : Rep rest l c) (item : α) :
    l.isInList item = some (decide (item ∈ c.map Prod.snd)) := by
  rw [isInList, h.first_eq]
  exact searchFrom_eq h.chain.linked item maxElements h.length_le

/-- A new element that is not linked yet does not make its item one of the list. -/
theorem isInList_newElement (h : Rep rest l c) (ha : l.heap a = none) (hx : x ∉ c.map Prod.snd) :
    (l.newElement a x).isInList x = some false := by
  have hlinked := h.chain.linked.update (h.chain.notMem_of_free ha) (some ⟨x, none⟩)
  show searchFrom (l.heap.alloc a x) x maxElements l.first = some false
  rw [h.first_eq]
  exact (searchFrom_eq hlinked x maxElements h.length_le).trans (by simp [hx])

/-- The assertion at the end of the operations that add an element. -/
theorem assert_isInList (h : Rep rest l c) (hx : x ∈ c.map Prod.snd) :
    ((l.isInList x).bind fun found => (assert found).bind fun _ => some l) = some l := by
  rw [h.isInList_eq, decide_eq_true hx]
  rfl

/-- The assertion at the end of `Remove`. -/
theorem assert_not_isInList (h : Rep rest l c) (hx : x ∉ c.map Prod.snd) :
    ((l.isInList x).bind fun found => (assert !found).bind fun _ => some l) = some l := by
  rw [h.isInList_eq, decide_eq_false hx]
  rfl

/-- An element is added, if the assignments that link it do what they should. -/
theorem addElement (h : Rep rest l c) (ha : l.heap a = none) (hx : x ∉ c.map Prod.snd)
    {link : LinkedList α → Option (LinkedList α)} {d : List (Addr × α)} (hmem : x ∈ d.map Prod.snd)
    (hnil : c = [] → d = [(a, x)])
    (hlink : c ≠ [] → ∃ l', link (l.newElement a x) = some l' ∧ Rep rest l'.countUp d) :
    ∃ l', l.addElement a x link = some l' ∧ Rep rest l' d := by
  have hempty : (l.newElement a x).isEmpty = c.isEmpty := h.isEmpty_eq
  simp only [LinkedList.addElement, h.isInList_newElement ha hx, Option.bind_eq_bind,
    Option.bind_some, Bool.not_false, assert_true, hempty]
  by_cases hc : c = []
  · -- The element is the first and the last one.
    have hrep : Rep rest (countUp ⟨⟨some a, some a, l.numInList⟩, l.heap.alloc a x⟩) d := by
      rw [hnil hc]
      subst hc
      exact ⟨h.chain.linkFront ha x, rfl, rfl, h.wrap32_succ⟩
    refine ⟨_, ?_, hrep⟩
    rw [if_pos (List.isEmpty_iff.mpr hc)]
    exact hrep.assert_isInList hmem
  · obtain ⟨l', hl', hrep⟩ := hlink hc
    refine ⟨_, ?_, hrep⟩
    rw [if_neg (mt List.isEmpty_iff.mp hc), hl']
    exact hrep.assert_isInList hmem

/-- **`Prepend`** puts its element in front of the others. -/
theorem prepend (h : Rep rest l c) (ha : l.heap a = none) (hx : x ∉ c.map Prod.snd) :
    ∃ l', l.prepend a x = some l' ∧ Rep rest l' ((a, x) :: c) := by
  refine h.addElement ha hx (by simp) (fun hc => by rw [hc]) fun hc => ?_
  obtain ⟨heap, hnext, hrep⟩ := h.linkFirst ha x hc
  refine ⟨_, ?_, hrep⟩
  show ((l.heap.alloc a x).setNext (some a) l.first).bind _ = _
  rw [hnext]
  rfl

/-- **`Append`** puts its element behind the others. -/
theorem append (h : Rep rest l c) (ha : l.heap a = none) (hx : x ∉ c.map Prod.snd) :
    ∃ l', l.append a x = some l' ∧ Rep rest l' (c ++ [(a, x)]) := by
  refine h.addElement ha hx (by simp) (fun hc => by rw [hc]; rfl) fun hc => ?_
  obtain ⟨heap, hnext, hrep⟩ := h.linkLast ha x hc
  refine ⟨_, ?_, hrep⟩
  show ((l.heap.alloc a x).setNext l.last (some a)).bind _ = _
  rw [hnext]
  rfl

/-- The loop of `Remove` goes by the elements `u` and takes out the one behind them. -/
theorem removeFrom_eq (h : Rep rest l (w ++ (p, y) :: (u ++ (a, x) :: v))) (hu : x ∉ u.map Prod.snd)
    (fuel : ℕ) (hfuel : u.length < fuel) :
    ∃ l', l.removeFrom x fuel (some p) (entry (u ++ (a, x) :: v) none) = some (some a, l') ∧
      Rep rest l' (w ++ (p, y) :: (u ++ v)) := by
  induction u generalizing w p y fuel with
  | nil =>
    obtain _ | fuel := fuel
    · omega
    have hp : l.heap p = some ⟨y, some a⟩ := h.cell_eq
    have hsplit : w ++ (p, y) :: (a, x) :: v = (w ++ [(p, y)]) ++ (a, x) :: v := by simp
    have ha : l.heap a = some ⟨x, entry v none⟩ := Rep.cell_eq (hsplit ▸ h)
    have hap : a ≠ p := by
      rintro rfl
      exact h.chain.notMem_parts.2 (by simp)
    have ha' : update l.heap p (some ⟨y, entry v none⟩) a = some ⟨x, entry v none⟩ :=
      (update_of_ne hap ..).trans ha
    simp only [List.nil_append, entry_cons, LinkedList.removeFrom, ha, Option.bind_eq_bind,
      Option.bind_some, if_true, Heap.setNext_some hp, Heap.deref_some, update_self,
      Heap.delete_some ha']
    refine ⟨_, rfl, h.chain.unlink, ?_, ?_, h.wrap32_pred ?_⟩
    · show l.first = _
      rw [h.first_eq, entry_append, entry_append]
      rfl
    · show (if entry v none = none then some p else l.last) = _
      cases v with
      | nil => simp
      | cons b v =>
        rw [if_neg (by simp), h.last_eq]
        simp
    · simp only [List.nil_append, List.length_append, List.length_cons]
      omega
  | cons b u ih =>
    obtain ⟨b, z⟩ := b
    obtain _ | fuel := fuel
    · omega
    obtain ⟨hz, hu⟩ : x ≠ z ∧ x ∉ u.map Prod.snd := by simpa [not_or] using hu
    have hsplit : ∀ t, w ++ (p, y) :: ((b, z) :: u ++ t) =
        (w ++ [(p, y)]) ++ (b, z) :: (u ++ t) := by
      simp
    rw [hsplit] at h
    obtain ⟨l', hl', hrep⟩ := ih h hu fuel (by simpa using hfuel)
    refine ⟨l', ?_, ?_⟩
    · simp only [List.cons_append, entry_cons, LinkedList.removeFrom, h.cell_eq,
        Option.bind_eq_bind, Option.bind_some, if_neg hz]
      exact hl'
    · rw [hsplit]
      exact hrep

/-- `Remove` takes out the element with the item. -/
theorem remove_at (h : Rep rest l (u ++ (a, x) :: v)) (hu : x ∉ u.map Prod.snd)
    (hv : x ∉ v.map Prod.snd) : ∃ l', l.remove x = some l' ∧ Rep rest l' (u ++ v) := by
  have hin : decide (x ∈ (u ++ (a, x) :: v).map Prod.snd) = true := by simp
  have hout : x ∉ (u ++ v).map Prod.snd := by
    rw [List.map_append, List.mem_append, not_or]
    exact ⟨hu, hv⟩
  simp only [LinkedList.remove, h.isInList_eq, hin, Option.bind_eq_bind, Option.bind_some,
    assert_true, h.first_eq]
  cases u with
  | nil =>
    obtain ⟨l', hl', hrep⟩ := h.removeFront
    refine ⟨l', ?_, hrep⟩
    have hcell : l.heap a = some ⟨x, entry v none⟩ := h.cell_eq (w := [])
    simp only [List.nil_append, entry_cons, Heap.deref_some, hcell, Option.bind_some, if_true, hl',
      decide_true, assert_true]
    exact hrep.assert_not_isInList hout
  | cons b u =>
    obtain ⟨p, y⟩ := b
    obtain ⟨hy, hu⟩ : x ≠ y ∧ x ∉ u.map Prod.snd := by simpa [not_or] using hu
    have hcell : l.heap p = some ⟨y, entry (u ++ (a, x) :: v) none⟩ := h.cell_eq (w := [])
    have hle := h.length_le
    obtain ⟨l', hl', hrep⟩ := h.removeFrom_eq (w := []) hu maxElements (by
      simp only [List.length_append, List.length_cons] at hle
      omega)
    refine ⟨l', ?_, hrep⟩
    simp only [List.cons_append, entry_cons, Heap.deref_some, hcell, Option.bind_some,
      if_neg hy, hl']
    exact hrep.assert_not_isInList hout

/-- **`Remove`** takes an item of the list out of it. -/
theorem remove (h : Rep rest l c) (hnd : (c.map Prod.snd).Nodup) (hx : x ∈ c.map Prod.snd) :
    ∃ l' d, l.remove x = some l' ∧ Rep rest l' d ∧ d.map Prod.snd = (c.map Prod.snd).erase x := by
  obtain ⟨xs, ys, hsplit, hu⟩ := List.eq_append_cons_of_mem hx
  obtain ⟨u, t, rfl, rfl, ht⟩ := List.map_eq_append_iff.mp hsplit
  obtain ⟨⟨a, y⟩, v, rfl, rfl, -⟩ := List.map_eq_cons_iff.mp ht
  have herase : ((u ++ (a, y) :: v).map Prod.snd).erase y = (u ++ v).map Prod.snd := by
    rw [List.map_append, List.map_append, List.map_cons, List.erase_append_right _ hu,
      List.erase_cons_head]
  have hnot := hnd.not_mem_erase (a := y)
  rw [herase, List.map_append, List.mem_append, not_or] at hnot
  obtain ⟨l', hl', hrep⟩ := h.remove_at hu hnot.2
  exact ⟨l', _, hl', hrep, herase.symm⟩

end Rep

end LinkedList

/-! ### Any sequence of operations -/

/-- A list, and the sequence of items that it stands for. -/
structure ListState (α : Type) where
  list : LinkedList α
  items : List α

/-- What can happen next; a new element can be put anywhere. -/
inductive ListAction (α : Type) where
  | append (item : α) (element : Addr)
  | prepend (item : α) (element : Addr)
  | removeFront
  | remove (item : α)

namespace ListState

variable {α : Type}

/-- An operation on the sequence that respects the assertions, and the same operation on the
elements. -/
def follow (items : Option (List α)) (list : Option (LinkedList α)) : Outcome (ListState α) :=
  match items, list with
  | none, _ => .disabled
  | some _, none => .fault
  | some items, some list => .next ⟨list, items⟩

variable [DecidableEq α]

/-- One operation. `new` gives an element that is not in use. -/
def next (s : ListState α) : ListAction α → Outcome (ListState α)
  | .append item element =>
    if s.list.heap element = none then follow (append s.items item) (s.list.append element item)
    else .disabled
  | .prepend item element =>
    if s.list.heap element = none then follow (prepend s.items item) (s.list.prepend element item)
    else .disabled
  | .removeFront =>
    follow ((removeFront s.items).map Prod.snd) (s.list.removeFront.map Prod.snd)
  | .remove item => follow (remove s.items item) (s.list.remove item)

end ListState

/-- Any sequence of operations from the empty list, in a heap with other things in it. -/
def listSystem {α : Type} [DecidableEq α] (rest : Heap Addr α) :
    LTS (ListState α) (ListAction α) where
  init := fun s => s = ⟨.new rest, []⟩
  next := ListState.next

section Refinement

variable {α : Type} [DecidableEq α] {rest : Heap Addr α}

/-- The list stands for the sequence `items`. -/
structure LinkedList.Refines (rest : Heap Addr α) (l : LinkedList α) (items : List α) : Prop where
  elements : ∃ c : List (Addr × α), c.map Prod.snd = items ∧ Linked l.heap c none ∧
    (c.map Prod.fst).Nodup ∧ l.first = entry c none ∧ l.last = c.getLast?.map Prod.fst ∧
    l.numInList = c.length ∧ ∀ a, a ∉ c.map Prod.fst → l.heap a = rest a
  last_next : ∀ a, l.last = some a → ∃ x, l.heap a = some ⟨x, none⟩
  first_null : l.first = none ↔ l.numInList = 0
  last_null : l.last = none ↔ l.numInList = 0
  sanityCheck : l.sanityCheck = some ()
  nodup : items.Nodup
  isInList : ∀ item, l.isInList item = some (decide (item ∈ items))
  isEmpty : l.isEmpty = decide (items = [])
  removeFront : ∀ x xs, items = x :: xs → ∃ l', l.removeFront = some (x, l')

theorem LinkedList.Rep.refines {l : LinkedList α} {c : List (Addr × α)} (h : l.Rep rest c)
    (hnd : (c.map Prod.snd).Nodup) : l.Refines rest (c.map Prod.snd) where
  elements := ⟨c, rfl, h.chain.linked, h.chain.nodup, h.first_eq, h.last_eq, h.numInList_eq,
    h.chain.frame⟩
  last_next := by
    intro a ha
    rcases List.eq_nil_or_concat' c with rfl | ⟨w, ⟨p, y⟩, rfl⟩
    · rw [h.last_eq] at ha
      cases ha
    · obtain rfl : p = a := Option.some.inj (h.last_concat.symm.trans ha)
      exact ⟨y, h.cell_eq⟩
  first_null := by
    rw [h.first_eq, entry_eq_none, h.numInList_eq, Int.natCast_eq_zero, List.length_eq_zero_iff]
  last_null := by
    rw [h.last_eq, Option.map_eq_none_iff, List.getLast?_eq_none_iff, h.numInList_eq,
      Int.natCast_eq_zero, List.length_eq_zero_iff]
  sanityCheck := h.sanityCheck_eq
  nodup := hnd
  isInList := h.isInList_eq
  isEmpty := by
    rw [h.isEmpty_eq, Bool.eq_iff_iff, List.isEmpty_iff, decide_eq_true_iff, List.map_eq_nil_iff]
  removeFront := by
    intro x xs hitems
    obtain ⟨⟨a, y⟩, d, rfl, rfl, -⟩ := List.map_eq_cons_iff.mp hitems
    obtain ⟨l', hl', -⟩ := h.removeFront
    exact ⟨l', hl'⟩

/-- The elements of the list carry the items of the sequence, and no item twice. -/
def ListState.Inv (rest : Heap Addr α) (s : ListState α) : Prop :=
  ∃ c, s.list.Rep rest c ∧ c.map Prod.snd = s.items ∧ s.items.Nodup

/-- Every operation does to the elements what it does to the sequence, and trips no check. -/
theorem ListState.Inv.next_meets {s : ListState α} (h : s.Inv rest) (a : ListAction α) :
    (s.next a).Meets (ListState.Inv rest) := by
  obtain ⟨c, hrep, hitems, hnd⟩ := h
  cases a with
  | append item element =>
    apply Outcome.Meets.ite
    intro hfree
    by_cases hin : item ∈ s.items
    · rw [append, if_pos hin]
      trivial
    · obtain ⟨l', hl', hrep'⟩ := hrep.append hfree (by rwa [hitems])
      rw [append_of_notMem hin, hl']
      exact ⟨_, hrep', by rw [List.map_append, hitems]; rfl, nodup_append_singleton hnd hin⟩
  | prepend item element =>
    apply Outcome.Meets.ite
    intro hfree
    by_cases hin : item ∈ s.items
    · rw [prepend, if_pos hin]
      trivial
    · obtain ⟨l', hl', hrep'⟩ := hrep.prepend hfree (by rwa [hitems])
      rw [prepend, if_neg hin, hl']
      exact ⟨_, hrep', by rw [List.map_cons, hitems], List.nodup_cons.mpr ⟨hin, hnd⟩⟩
  | removeFront =>
    cases c with
    | nil =>
      simp only [List.map_nil] at hitems
      simp only [ListState.next, ← hitems]
      trivial
    | cons b c =>
      obtain ⟨l', hl', hrep'⟩ := hrep.removeFront
      rw [List.map_cons] at hitems
      simp only [ListState.next, ← hitems, removeFront_cons, hl']
      rw [← hitems] at hnd
      exact ⟨c, hrep', rfl, (List.nodup_cons.mp hnd).2⟩
  | remove item =>
    by_cases hin : item ∈ s.items
    · obtain ⟨l', d, hl', hrep', hd⟩ := hrep.remove (hitems ▸ hnd) (hitems ▸ hin)
      simp only [ListState.next, remove_of_mem hnd hin, hl']
      exact ⟨d, hrep', by rw [hd, hitems], hnd.erase item⟩
    · simp only [ListState.next, remove, hin, false_and, if_false]
      trivial

/-- **A linked list refines a sequence.** Whatever is appended, prepended and removed, wherever the
elements are put and whatever else is in the heap, the elements of the list are linked from
`first` to `last`, they carry the items of the sequence, and no runtime check fails. -/
theorem list_refines_sequence (s : ListState α) (h : (listSystem rest).Reachable s) :
    s.list.Refines rest s.items ∧ ∀ a, s.next a ≠ .fault := by
  have hsafe := h.safe (I := ListState.Inv rest)
    (fun s hs => by subst hs; exact ⟨[], .new rest, rfl, List.nodup_nil⟩)
    (fun s a hs => hs.next_meets a)
  obtain ⟨⟨c, hrep, hitems, hnd⟩, hfault⟩ := hsafe
  refine ⟨?_, hfault⟩
  rw [← hitems] at hnd ⊢
  exact hrep.refines hnd

/-- The items `1`, `2`, `3` and `4` get into a list at both ends, the last and the first one are
removed, and the place of a removed element is used again. -/
theorem list_refines_sequence_reuse : ∃ s : ListState ℕ, s.items = [1, 3, 5] ∧
    s.list.numInList = 3 ∧ s.list.Refines (fun _ => none) s.items := by
  obtain ⟨s, hs, hitems, hnum⟩ := (listSystem (fun _ => none : Heap Addr ℕ)).reaches rfl
    [.append 1 ⟨8, by decide⟩, .prepend 2 ⟨9, by decide⟩, .append 3 ⟨5, by decide⟩,
      .append 4 ⟨7, by decide⟩, .remove 4, .removeFront, .append 5 ⟨7, by decide⟩]
    (fun s => s.items = [1, 3, 5] ∧ s.list.numInList = 3) (by decide +kernel)
  exact ⟨s, hitems, hnum, (list_refines_sequence s hs).1⟩

end Refinement

end Nachos.Lib
