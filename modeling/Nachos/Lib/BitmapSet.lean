import Nachos.Base.Transition
import Nachos.Lib.Bitmap

namespace Nachos.Lib

open Base

/-!
# Lib — a `Bitmap` of `lib/bitmap.cc` stands for a finite set

Any sequence of operations with arguments in range, on a bitmap of any size: the bits that are set
are those that `Mark` or `FindAndSet` has set and `Clear` has not cleared since.

* `Bitmap.Refines b marked` — every operation on the words answers as on the set, and changes no
  other bit; `NumClear` tells how many calls of `FindAndSet` will find a bit;
* `bitmapSystem n` — the sequences of operations.
-/

variable {n : ℕ}

namespace Bitmap

/-- `Bitmap::Bitmap`, with the assertion and the loop that clears the bits of the zeroed words. -/
def construct (n : ℕ) : Option (Bitmap n) :=
  if 0 < n then (new n).clearAll ((List.range n).map (Nat.cast : ℕ → Int)) else none

theorem construct_eq (hn : 0 < n) : ∃ b, construct n = some b ∧ b.marked = ∅ := by
  obtain ⟨b, hb, hmarked⟩ := clearAll_natCast (fun i hi => List.mem_range.mp hi) (new n)
  refine ⟨b, (if_pos hn).trans hb, ?_⟩
  rw [hmarked, marked_new, Finset.empty_sdiff]

variable {b b' : Bitmap n}

/-- Calls of `FindAndSet` that all find a bit: there were so many clear bits, and they are found in
increasing order. -/
theorem findAndSetAll_eq_some {k : ℕ} {l : List ℕ} (h : findAndSetAll k b = some (l, b')) :
    k ≤ b.numClear ∧ l.length = k ∧ l.Pairwise (· < ·) ∧ ∀ i ∈ l, i < n ∧ i ∉ b.marked := by
  induction k generalizing b l with
  | zero =>
    obtain ⟨rfl, -⟩ := Prod.mk.inj (Option.some.inj h)
    exact ⟨Nat.zero_le _, rfl, .nil, by simp⟩
  | succ k ih =>
    rw [findAndSetAll] at h
    rcases b.findAndSet_cases with ⟨i, hi, hclear, hleast, hfind⟩ | ⟨-, hfind⟩
    · rw [hfind, if_neg (by simp), Option.map_eq_some_iff] at h
      obtain ⟨⟨l, b''⟩, hrest, heq⟩ := h
      obtain ⟨rfl, rfl⟩ := Prod.mk.inj heq
      obtain ⟨hk, hlen, hsorted, hfresh⟩ := ih (b := b.setBit i) hrest
      have hless := b.numClear_setBit hi hclear
      simp only [b.marked_setBit hi, Finset.mem_insert, not_or] at hfresh
      refine ⟨by omega, by simp [hlen], List.pairwise_cons.mpr ⟨fun j hj => ?_, hsorted⟩, ?_⟩
      · -- What is below `i` is marked, so the next ones are found above it.
        show i < j
        have hj' := (hfresh j hj).2
        by_contra hle
        exact hj'.2 (hleast j (by omega))
      · intro j hj
        rcases List.mem_cons.mp hj with rfl | hj
        · exact ⟨hi, hclear⟩
        · exact ⟨(hfresh j hj).1, (hfresh j hj).2.2⟩
    · rw [hfind, if_pos rfl] at h
      cases h

/-- The bitmap stands for the set `marked`. -/
structure Refines (b : Bitmap n) (marked : Finset ℕ) : Prop where
  test : ∀ i < n, b.test i = some (decide (i ∈ marked))
  mark : ∀ i < n, ∃ b', b.mark i = some b' ∧
    ∀ j < n, b'.test j = if j = i then some true else b.test j
  clear : ∀ i < n, ∃ b', b.clear i = some b' ∧
    ∀ j < n, b'.test j = if j = i then some false else b.test j
  findAndSet : ∀ i < n, i ∉ marked → (∀ j < i, j ∈ marked) → b.findAndSet.1 = i ∧
    ∀ j < n, b.findAndSet.2.test j = if j = i then some true else b.test j
  findAndSet_eq_neg : b.findAndSet.1 = -1 ↔ ∀ i < n, i ∈ marked
  numClear_eq : b.numClear = (Finset.range n \ marked).card
  findAndSetAll : ∀ k ≤ b.numClear, ∃ l b', findAndSetAll k b = some (l, b') ∧ l.length = k ∧
    l.Pairwise (· < ·) ∧ ∀ i ∈ l, i < n ∧ i ∉ marked
  findAndSetAll_eq_none : ∀ k, b.numClear < k → Bitmap.findAndSetAll k b = none

theorem test_setBit {i : ℕ} (hi : i < n) {j : ℕ} (hj : j < n) :
    (b.setBit i).test j = if j = i then some true else b.test j := by
  rw [test_natCast _ hj, test_natCast _ hj, b.marked_setBit hi]
  by_cases hji : j = i
  · simp [hji]
  · simp [hji]

/-- Every bitmap stands for the set of its bits that are set. -/
theorem refines_marked (b : Bitmap n) : b.Refines b.marked where
  test := fun i hi => b.test_natCast hi
  mark := fun i hi => ⟨_, b.mark_natCast hi, fun j hj => test_setBit hi hj⟩
  clear := by
    intro i hi
    refine ⟨_, b.clear_natCast hi, fun j hj => ?_⟩
    rw [test_natCast _ hj, test_natCast _ hj, b.marked_resetBit hi]
    by_cases hji : j = i
    · simp [hji]
    · simp [hji]
  findAndSet := by
    intro i hi hclear hleast
    rcases b.findAndSet_cases with ⟨k, hk, hkclear, hkleast, hfind⟩ | ⟨hfull, -⟩
    · -- There is only one least clear bit.
      obtain rfl : k = i := by
        rcases lt_trichotomy k i with hlt | heq | hgt
        · exact absurd (hleast k hlt) hkclear
        · exact heq
        · exact absurd (hkleast i hgt) hclear
      rw [hfind]
      exact ⟨rfl, fun j hj => test_setBit hi hj⟩
    · exact absurd (hfull i hi) hclear
  findAndSet_eq_neg := by
    rcases b.findAndSet_cases with ⟨i, hi, hclear, -, hfind⟩ | ⟨hfull, hfind⟩
    · rw [hfind]
      exact ⟨fun h => absurd h (by simp), fun h => absurd (h i hi) hclear⟩
    · rw [hfind]
      exact ⟨fun _ => hfull, fun _ => rfl⟩
  numClear_eq := by
    have hcard := b.numClear_add_card
    have hsub : b.marked ⊆ Finset.range n := Finset.filter_subset _ _
    rw [Finset.card_sdiff_of_subset hsub, Finset.card_range]
    omega
  findAndSetAll := by
    intro k hk
    obtain ⟨l, b', h, -⟩ := findAndSetAll_of_le hk
    exact ⟨l, b', h, (findAndSetAll_eq_some h).2⟩
  findAndSetAll_eq_none := by
    intro k hk
    cases h : Bitmap.findAndSetAll k b with
    | none => rfl
    | some r => exact absurd (findAndSetAll_eq_some h).1 (by omega)

end Bitmap

/-! ### Any sequence of operations -/

/-- A bitmap, and the numbers that have been marked and not cleared since. -/
structure BitmapState (n : ℕ) where
  map : Bitmap n
  marked : Finset ℕ

/-- What can happen next. -/
inductive BitmapAction where
  | mark (which : Int)
  | clear (which : Int)
  | test (which : Int)
  | findAndSet
  | numClear

/-- One operation, with an argument in range. -/
def BitmapState.next (s : BitmapState n) : BitmapAction → Outcome (BitmapState n)
  | .mark which =>
    if Bitmap.inRange n which then
      match s.map.mark which with
      | none => .fault
      | some map => .next ⟨map, insert which.toNat s.marked⟩
    else .disabled
  | .clear which =>
    if Bitmap.inRange n which then
      match s.map.clear which with
      | none => .fault
      | some map => .next ⟨map, s.marked.erase which.toNat⟩
    else .disabled
  | .test which =>
    if Bitmap.inRange n which then
      match s.map.test which with
      | none => .fault
      | some _ => .next s
    else .disabled
  | .findAndSet =>
    let (i, map) := s.map.findAndSet
    .next ⟨map, if i = -1 then s.marked else insert i.toNat s.marked⟩
  | .numClear => .next s

/-- Any sequence of operations on a bitmap of `n` bits. -/
def bitmapSystem (n : ℕ) : LTS (BitmapState n) BitmapAction where
  init := fun s => Bitmap.construct n = some s.map ∧ s.marked = ∅
  next := BitmapState.next

/-- Every operation does to the words what it does to the set, and trips no check. -/
theorem BitmapState.next_meets {s : BitmapState n} (h : s.map.marked = s.marked)
    (a : BitmapAction) : (s.next a).Meets fun s' => s'.map.marked = s'.marked := by
  -- An argument in range is the number of a bit.
  have hrange : ∀ which : Int, Bitmap.inRange n which = true → ∃ i : ℕ, which = i ∧ i < n := by
    intro which hin
    simp only [Bitmap.inRange, decide_eq_true_eq] at hin
    exact ⟨which.toNat, by omega, by omega⟩
  cases a with
  | mark which =>
    apply Outcome.Meets.ite
    intro hin
    obtain ⟨i, rfl, hi⟩ := hrange which hin
    simp only [s.map.mark_natCast hi, Outcome.meets_next, s.map.marked_setBit hi, h,
      Int.toNat_natCast]
  | clear which =>
    apply Outcome.Meets.ite
    intro hin
    obtain ⟨i, rfl, hi⟩ := hrange which hin
    simp only [s.map.clear_natCast hi, Outcome.meets_next, s.map.marked_resetBit hi, h,
      Int.toNat_natCast]
  | test which =>
    apply Outcome.Meets.ite
    intro hin
    obtain ⟨i, rfl, hi⟩ := hrange which hin
    simp only [s.map.test_natCast hi, Outcome.meets_next, h]
  | findAndSet =>
    rcases s.map.findAndSet_cases with ⟨i, hi, -, -, hfind⟩ | ⟨-, hfind⟩
    · simp [next, hfind, s.map.marked_setBit hi, h]
    · simp [next, hfind, h]
  | numClear => exact h

/-- **A bitmap refines a finite set.** Whatever is marked, cleared and searched, on a bitmap of any
size, a bit is set if and only if it was marked and not cleared since, every operation answers
as on the set and leaves the other bits alone, and no runtime check fails. -/
theorem bitmap_refines_set (hn : 0 < n) : (∃ b, Bitmap.construct n = some b) ∧
    ∀ s, (bitmapSystem n).Reachable s → s.map.Refines s.marked ∧ ∀ a, s.next a ≠ .fault := by
  obtain ⟨b, hb, hempty⟩ := Bitmap.construct_eq hn
  refine ⟨⟨b, hb⟩, fun s h => ?_⟩
  have hsafe := h.safe (I := fun s => s.map.marked = s.marked)
    (fun s hs => by
      obtain rfl : b = s.map := Option.some.inj (hb.symm.trans hs.1)
      rw [hempty, hs.2])
    (fun s a hs => BitmapState.next_meets hs a)
  exact ⟨hsafe.1 ▸ s.map.refines_marked, hsafe.2⟩

/-- A bitmap with one bit in its last word: the sign bit of the first word and the bit behind it are
marked, and the search goes by the bits that are set. -/
theorem bitmap_refines_set_lastWord : 0 < 33 ∧ ∃ s : BitmapState 33, s.marked = {0, 2, 31, 32} ∧
    s.map.Refines s.marked := by
  have hnew : Bitmap.construct 33 = some (.new 33) := by decide +kernel
  obtain ⟨s, hs, hmarked⟩ := (bitmapSystem 33).reaches (s := ⟨.new 33, ∅⟩) ⟨hnew, rfl⟩
    [.mark 31, .mark 1, .findAndSet, .mark 32, .findAndSet, .clear 1]
    (fun s => s.marked = {0, 2, 31, 32}) (by decide +kernel)
  exact ⟨by decide, s, hmarked, ((bitmap_refines_set (by decide)).2 s hs).1⟩

end Nachos.Lib
