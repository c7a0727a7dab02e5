import Nachos.Base.CInt
import Mathlib.Data.Finset.Card
import Mathlib.Data.Finset.Interval
import Mathlib.Order.Interval.Finset.Nat

namespace Nachos.Lib

open Base

/-!
# Lib — the `Bitmap` of `lib/bitmap.cc`

An array of bits packed into 32-bit words. `Bitmap n` has the words of `n` bits; bit `i` is
bit `i % 32` of word `i / 32`. The operations that make a runtime check on their argument
return `none` when it fails.

Everything a client needs is said about the finite set `marked` of the bits that are set:

* `mark` inserts into it and `clear` erases from it;
* `findAndSet` inserts the least number missing from it, and `findAndSetAll`, the loop in
  which the allocators call it, as many fresh numbers as it is asked for;
* `numClear` is the number of bits missing from it.
-/

/-- Bits in a word. -/
def bitsInWord : ℕ := 32

/-- Words needed for `numBits` bits. -/
def numWords (numBits : ℕ) : ℕ := (numBits + bitsInWord - 1) / bitsInWord

/-- A bitmap of `numBits` bits. -/
structure Bitmap (numBits : ℕ) where
  map : Vector (BitVec 32) (numWords numBits)
  deriving DecidableEq

namespace Bitmap

variable {n : ℕ} (b : Bitmap n)

/-- The word that holds bit `i`. -/
def word (i : ℕ) : BitVec 32 := b.map[i / bitsInWord]?.getD 0

/-- Replace the word that holds bit `i`. -/
def setWord (i : ℕ) (w : BitVec 32) : Bitmap n := ⟨b.map.setIfInBounds (i / bitsInWord) w⟩

/-- Bit `i`: `map[which / BitsInWord] & (1 << (which % BitsInWord))`. -/
def bit (i : ℕ) : Bool := b.word i &&& (1#32 <<< (i % bitsInWord)) != 0

/-- `map[which / BitsInWord] |= 1 << (which % BitsInWord)`. -/
def setBit (i : ℕ) : Bitmap n := b.setWord i (b.word i ||| (1#32 <<< (i % bitsInWord)))

/-- `map[which / BitsInWord] &= ~(1 << (which % BitsInWord))`. -/
def resetBit (i : ℕ) : Bitmap n := b.setWord i (b.word i &&& ~~~(1#32 <<< (i % bitsInWord)))

/-- `ASSERT(which >= 0 && which < numBits)`. -/
def inRange (n : ℕ) (which : Int) : Bool := 0 ≤ which ∧ which < n

/-- `Bitmap::Bitmap`: all bits clear. -/
def new (n : ℕ) : Bitmap n := ⟨.replicate _ 0⟩

/-- `Bitmap::Test`. -/
def test (which : Int) : Option Bool :=
  if inRange n which then some (b.bit which.toNat) else none

/-- `Bitmap::Mark`. -/
def mark (which : Int) : Option (Bitmap n) :=
  if inRange n which then
    let b' := b.setBit which.toNat
    -- `ASSERT(Test(which))`
    if b'.bit which.toNat then some b' else none
  else none

/-- `Bitmap::Clear`. -/
def clear (which : Int) : Option (Bitmap n) :=
  if inRange n which then
    let b' := b.resetBit which.toNat
    -- `ASSERT(!Test(which))`
    if b'.bit which.toNat then none else some b'
  else none

/-- `Bitmap::FindAndSet`: the first clear bit, which becomes set, or `-1`. The bit is in
range and clear, so neither assertion of `Mark` can fail. -/
def findAndSet : Int × Bitmap n :=
  match (List.range n).find? fun i => !b.bit i with
  | some i => (i, b.setBit i)
  | none => (-1, b)

/-- `Bitmap::NumClear`. -/
def numClear : ℕ := (List.range n).countP fun i => !b.bit i

/-- `k` calls of `FindAndSet` in a row, each asserted to find a bit: the loop of the
allocators of frames and of sectors. -/
def findAndSetAll : ℕ → Bitmap n → Option (List ℕ × Bitmap n)
  | 0, b => some ([], b)
  | k + 1, b =>
    if b.findAndSet.1 = -1 then none
    else (findAndSetAll k b.findAndSet.2).map fun r => (b.findAndSet.1.toNat :: r.1, r.2)

/-- `Clear` of each bit of a list in turn: the loop of the deallocators. -/
def clearAll (b : Bitmap n) (l : List Int) : Option (Bitmap n) := l.foldlM clear b

/-- The set of the bits that are set. -/
def marked : Finset ℕ := (Finset.range n).filter fun i => b.bit i

/-! ### Bits of words -/

/-- The test of a bit of a word reads that bit. -/
theorem bit_eq_getLsbD (i : ℕ) : b.bit i = (b.word i).getLsbD (i % bitsInWord) := by
  have hlt : i % bitsInWord < 32 := Nat.mod_lt i (by decide)
  have hne : BitVec.twoPow 32 (i % bitsInWord) ≠ 0 := by
    intro h0
    have hbit := congrArg (fun w => BitVec.getLsbD w (i % bitsInWord)) h0
    simp [hlt] at hbit
  show (b.word i &&& BitVec.twoPow 32 (i % bitsInWord) != 0) = _
  rw [BitVec.and_twoPow]
  cases (b.word i).getLsbD (i % bitsInWord)
  · simp
  · simpa using hne

/-- Replacing the word of an existing bit changes the bits of that word only. -/
theorem word_setWord {i : ℕ} (hi : i < n) (w : BitVec 32) (j : ℕ) :
    (b.setWord i w).word j = if j / bitsInWord = i / bitsInWord then w else b.word j := by
  have hin : i / bitsInWord < numWords n := by
    unfold numWords bitsInWord
    omega
  unfold word setWord
  rw [Vector.getElem?_setIfInBounds]
  by_cases hij : i / bitsInWord = j / bitsInWord
  · rw [if_pos hij, if_pos hin, if_pos hij.symm]; rfl
  · rw [if_neg hij, if_neg (Ne.symm hij)]

private theorem eq_of_div_mod {i j : ℕ} (hdiv : j / bitsInWord = i / bitsInWord)
    (hmod : j % bitsInWord = i % bitsInWord) : j = i := by
  rw [← Nat.div_add_mod j bitsInWord, ← Nat.div_add_mod i bitsInWord, hdiv, hmod]

/-- Replacing the word of an existing bit `i` by one that differs from it at most in that bit
changes no other bit. -/
theorem bit_setWord {i : ℕ} (hi : i < n) {w : BitVec 32} {v : Bool}
    (hw : ∀ k < 32, w.getLsbD k =
      if k = i % bitsInWord then v else (b.word i).getLsbD k) (j : ℕ) :
    (b.setWord i w).bit j = if j = i then v else b.bit j := by
  have hlt : j % bitsInWord < 32 := Nat.mod_lt j (by decide)
  rw [bit_eq_getLsbD, bit_eq_getLsbD, word_setWord b hi]
  by_cases hdiv : j / bitsInWord = i / bitsInWord
  · -- Bit `j` is in the same word, so it is `i` if it is in the same place.
    have hword : b.word j = b.word i := by unfold word; rw [hdiv]
    rw [if_pos hdiv, hw _ hlt, hword]
    by_cases hmod : j % bitsInWord = i % bitsInWord
    · rw [if_pos hmod, if_pos (eq_of_div_mod hdiv hmod)]
    · rw [if_neg hmod, if_neg (by rintro rfl; exact hmod rfl)]
  · rw [if_neg hdiv, if_neg (by rintro rfl; exact hdiv rfl)]

/-- Setting a bit sets that bit and no other. -/
theorem bit_setBit {i : ℕ} (hi : i < n) (j : ℕ) :
    (b.setBit i).bit j = if j = i then true else b.bit j := by
  refine bit_setWord b hi (fun k hk => ?_) j
  show (b.word i ||| BitVec.twoPow 32 (i % bitsInWord)).getLsbD k = _
  rw [BitVec.getLsbD_or, BitVec.getLsbD_twoPow]
  by_cases hki : k = i % bitsInWord
  · subst hki; simp [hk]
  · simp [hki, Ne.symm hki]

/-- Clearing a bit clears that bit and no other. -/
theorem bit_resetBit {i : ℕ} (hi : i < n) (j : ℕ) :
    (b.resetBit i).bit j = if j = i then false else b.bit j := by
  refine bit_setWord b hi (fun k hk => ?_) j
  show (b.word i &&& ~~~ BitVec.twoPow 32 (i % bitsInWord)).getLsbD k = _
  rw [BitVec.getLsbD_and, BitVec.getLsbD_not, BitVec.getLsbD_twoPow]
  by_cases hki : k = i % bitsInWord
  · subst hki; simp [hk]
  · simp [hki, Ne.symm hki, hk]

/-! ### The operations on the set of marked bits -/

@[simp] theorem mem_marked {i : ℕ} : i ∈ b.marked ↔ i < n ∧ b.bit i = true := by
  simp [marked]

/-- Bitmaps of whole words with the same bits set are equal, word for word. -/
theorem eq_of_marked_eq (hn : bitsInWord ∣ n) {b c : Bitmap n} (h : b.marked = c.marked) :
    b = c := by
  obtain ⟨q, rfl⟩ := hn
  have hmap : b.map = c.map := by
    ext1 w hw
    have hwq : w < q := by
      unfold numWords bitsInWord at hw
      omega
    apply BitVec.eq_of_getLsbD_eq
    intro k hk
    -- Bit `k` of word `w` is bit `32 * w + k` of the map.
    have hdiv : (bitsInWord * w + k) / bitsInWord = w := by unfold bitsInWord; omega
    have hmod : (bitsInWord * w + k) % bitsInWord = k := by unfold bitsInWord; omega
    have hlt : bitsInWord * w + k < bitsInWord * q := by unfold bitsInWord; omega
    have hbit : b.bit (bitsInWord * w + k) = c.bit (bitsInWord * w + k) := by
      have hiff := Finset.ext_iff.mp h (bitsInWord * w + k)
      simp only [mem_marked, hlt, true_and] at hiff
      exact Bool.eq_iff_iff.mpr hiff
    rw [bit_eq_getLsbD, bit_eq_getLsbD, hmod, word, word, hdiv, Vector.getElem?_eq_getElem hw,
      Vector.getElem?_eq_getElem hw] at hbit
    exact hbit
  exact congrArg Bitmap.mk hmap

theorem lt_of_mem_marked {i : ℕ} (hi : i ∈ b.marked) : i < n := (b.mem_marked.mp hi).1

/-- A fresh bitmap has no bit set. -/
theorem marked_new (n : ℕ) : (new n).marked = ∅ := by
  ext i
  have hword : (new n).word i = 0 := by
    unfold word new
    rw [Vector.getElem?_replicate]
    split <;> rfl
  simp [bit_eq_getLsbD, hword]

theorem marked_setBit {i : ℕ} (hi : i < n) : (b.setBit i).marked = insert i b.marked := by
  ext j
  rw [mem_marked, bit_setBit b hi, Finset.mem_insert, mem_marked]
  by_cases hji : j = i
  · subst hji; simp [hi]
  · simp [hji]

theorem marked_resetBit {i : ℕ} (hi : i < n) : (b.resetBit i).marked = b.marked.erase i := by
  ext j
  rw [mem_marked, bit_resetBit b hi, Finset.mem_erase, mem_marked]
  by_cases hji : j = i
  · subst hji; simp
  · simp [hji]

private theorem inRange_natCast {i : ℕ} (hi : i < n) : inRange n (i : Int) = true := by
  simp [inRange, hi]

theorem test_natCast {i : ℕ} (hi : i < n) : b.test (i : Int) = some (decide (i ∈ b.marked)) := by
  rw [test, if_pos (inRange_natCast hi), Int.toNat_natCast]
  simp [hi]

theorem mark_natCast {i : ℕ} (hi : i < n) : b.mark (i : Int) = some (b.setBit i) := by
  rw [mark, if_pos (inRange_natCast hi), Int.toNat_natCast]
  simp [bit_setBit b hi]

theorem clear_natCast {i : ℕ} (hi : i < n) : b.clear (i : Int) = some (b.resetBit i) := by
  rw [clear, if_pos (inRange_natCast hi), Int.toNat_natCast]
  simp [bit_resetBit b hi]

/-- `FindAndSet` marks the least bit that is clear, unless none is. -/
theorem findAndSet_cases :
    (∃ i, i < n ∧ i ∉ b.marked ∧ (∀ j < i, j ∈ b.marked) ∧ b.findAndSet = ((i : Int), b.setBit i)) ∨
    ((∀ i < n, i ∈ b.marked) ∧ b.findAndSet = (-1, b)) := by
  unfold findAndSet
  cases hfind : (List.range n).find? fun i => !b.bit i with
  | some i =>
    rw [List.find?_range_eq_some] at hfind
    obtain ⟨hclear, hin, hleast⟩ := hfind
    have hi : i < n := List.mem_range.mp hin
    refine .inl ⟨i, hi, ?_, fun j hj => ?_, rfl⟩
    · simpa [hi] using hclear
    · have hset := hleast j hj
      simp only [Bool.not_not] at hset
      exact b.mem_marked.mpr ⟨by omega, hset⟩
  | none =>
    refine .inr ⟨fun i hi => ?_, rfl⟩
    have hset := List.find?_eq_none.mp hfind i (List.mem_range.mpr hi)
    exact b.mem_marked.mpr ⟨hi, by simpa using hset⟩

/-- Every bit is either clear or marked. -/
theorem numClear_add_card : b.numClear + b.marked.card = n := by
  have hmarked : b.marked.card = (List.range n).countP fun i => b.bit i := by
    rw [marked, ← List.toFinset_range, ← List.toFinset_filter,
      List.toFinset_card_of_nodup (List.nodup_range.filter _), List.countP_eq_length_filter]
  have hsum := List.length_eq_countP_add_countP (fun i => b.bit i) (l := List.range n)
  rw [List.length_range] at hsum
  rw [numClear, hmarked]
  have hclear : (List.range n).countP (fun i => !b.bit i)
      = (List.range n).countP (fun i => decide ¬ b.bit i = true) := by
    simp
  omega

/-- Setting a clear bit leaves one less of them. -/
theorem numClear_setBit {i : ℕ} (hi : i < n) (hclear : i ∉ b.marked) :
    (b.setBit i).numClear + 1 = b.numClear := by
  have hcard := b.numClear_add_card
  have hcard' := (b.setBit i).numClear_add_card
  rw [b.marked_setBit hi, Finset.card_insert_of_notMem hclear] at hcard'
  omega

/-- A full bitmap has no clear bit. -/
theorem numClear_of_full (hfull : ∀ i < n, i ∈ b.marked) : b.numClear = 0 := by
  have hall : b.marked = Finset.range n := by
    ext i
    exact ⟨fun hm => Finset.mem_range.mpr (b.lt_of_mem_marked hm),
      fun hr => hfull i (Finset.mem_range.mp hr)⟩
  have hcard := b.numClear_add_card
  rw [hall, Finset.card_range] at hcard
  omega

/-- **The allocation loop.** When at least `k` bits are clear, `k` calls of `FindAndSet` mark
`k` distinct bits that were clear. -/
theorem findAndSetAll_of_le {k : ℕ} {b : Bitmap n} (hk : k ≤ b.numClear) :
    ∃ l b', findAndSetAll k b = some (l, b') ∧ l.length = k ∧ l.Nodup ∧
      (∀ i ∈ l, i < n ∧ i ∉ b.marked) ∧ b'.marked = b.marked ∪ l.toFinset := by
  induction k generalizing b with
  | zero => exact ⟨[], b, rfl, rfl, List.nodup_nil, by simp, by simp⟩
  | succ k ih =>
    rcases b.findAndSet_cases with ⟨i, hi, hclear, -, hfind⟩ | ⟨hfull, -⟩
    · -- The rest of the loop runs on a bitmap where `i` is marked, so it cannot find `i` again.
      have hmarked := b.marked_setBit hi
      have hless := b.numClear_setBit hi hclear
      obtain ⟨l, b', hl, hlen, hnodup, hfresh, hunion⟩ := ih (b := b.setBit i) (by omega)
      rw [hmarked] at hfresh hunion
      refine ⟨i :: l, b', ?_, by simp [hlen], ?_, ?_, ?_⟩
      · rw [findAndSetAll, hfind]
        simp [hl]
      · refine List.nodup_cons.mpr ⟨fun hil => ?_, hnodup⟩
        exact (hfresh i hil).2 (Finset.mem_insert_self i _)
      · intro j hj
        rcases List.mem_cons.mp hj with rfl | hj
        · exact ⟨hi, hclear⟩
        · exact ⟨(hfresh j hj).1, fun hm => (hfresh j hj).2 (Finset.mem_insert_of_mem hm)⟩
      · rw [hunion]
        ext j
        simp only [Finset.mem_union, Finset.mem_insert, List.mem_toFinset, List.mem_cons]
        tauto
    · -- A full bitmap has no clear bit left for the next call.
      have hzero := b.numClear_of_full hfull
      omega

/-- **The deallocation loop.** Clearing bits in range erases them all. -/
theorem clearAll_natCast {l : List ℕ} (hl : ∀ i ∈ l, i < n) (b : Bitmap n) :
    ∃ b', b.clearAll (l.map (Nat.cast : ℕ → Int)) = some b' ∧
    b'.marked = b.marked \ l.toFinset := by
  induction l generalizing b with
  | nil => exact ⟨b, rfl, by simp⟩
  | cons i l ih =>
    have hi : i < n := hl i List.mem_cons_self
    obtain ⟨b', hb', hmarked⟩ := ih (fun j hj => hl j (List.mem_cons_of_mem i hj)) (b.resetBit i)
    refine ⟨b', ?_, ?_⟩
    · rw [clearAll, List.map_cons, List.foldlM_cons, clear_natCast b hi]
      exact hb'
    · rw [hmarked, marked_resetBit b hi]
      ext j
      simp only [Finset.mem_sdiff, Finset.mem_erase, List.mem_toFinset, List.mem_cons]
      tauto

end Bitmap

end Nachos.Lib
