import Mathlib.Data.Nat.Digits.Lemmas
import Nachos.UserProg.Exception

namespace Nachos.UserProg.Exception

open Base Machine Function

/-!
# UserProg — printing a number

`Handle_PrintNum` of `userprog/exception.cc` with its two arrays and its loops: the digits go to
`temp`, the last one first, and from there backwards to `num_buffer`, behind the sign. An assignment
outside of an array is `none`.

* `handlePrintNum_eq` — the loops compute the text `numBuffer` that the system call hands to the
  console;
* `print_num_iff` — the text is the decimal representation of every `int` but the smallest one,
  which is its own negation.
-/

/-! ### The loops -/

/-- `MAX_BUFFER`. -/
def maxBuffer : ℕ := 11

/-- The local variables. -/
structure NumState where
  number : Int
  i : ℕ
  j : ℕ
  numBuffer : ℕ → Int
  temp : ℕ → Int

/-- An assignment to an entry of an array of `MAX_BUFFER` entries. -/
def putAt (a : ℕ → Int) (k : ℕ) (v : Int) : Option (ℕ → Int) :=
  if k < maxBuffer then some (update a k v) else none

/-- One round of the `do` loop. -/
def NumState.digit (s : NumState) : NumState :=
  { s with
    temp := update s.temp s.j (s.number.tmod 10)
    number := s.number.tdiv 10
    j := s.j + 1 }

/-- The `do` loop, until the number is zero. Each round needs another entry of `temp`. -/
def digitLoop (s : NumState) : Option NumState :=
  if s.j < maxBuffer then
    if s.digit.number = 0 then some s.digit else digitLoop s.digit
  else none
termination_by maxBuffer - s.j
decreasing_by
  show maxBuffer - (s.j + 1) < maxBuffer - s.j
  omega

/-- The loop `while (j)`. -/
def copyLoop : ℕ → NumState → Option NumState
  | 0, s => some s
  | j + 1, s => do
    let buffer ← putAt s.numBuffer s.i (48 + s.temp j)
    copyLoop j { s with j := j, numBuffer := buffer, i := s.i + 1 }

/-- The sign of a negative number, which is then made positive. -/
def putSign (s : NumState) : Option NumState :=
  if s.number < 0 then
    (putAt s.numBuffer s.i 45).map fun buffer =>
      { s with number := wrap32 (-s.number), numBuffer := buffer, i := s.i + 1 }
  else some s

/-- `Handle_PrintNum`: the characters that it gives to `PutChar`. What `new` has left in
`num_buffer` is `junk`. -/
def handlePrintNum (junk : ℕ → Int) (number : Int) : Option (List Int) := do
  let s ← putSign ⟨number, 0, 0, junk, fun _ => 0⟩
  let s ← digitLoop s
  let length := if number < 0 then s.j + 1 else s.j
  let s ← copyLoop s.j s
  if length ≤ maxBuffer then some ((List.range length).map s.numBuffer) else none

/-! ### What the loops leave -/

section Loops

variable {s : NumState}

/-- **The digits.** Entry by entry they are those of `digitsLoop`, which is given as many entries as
are left. -/
theorem digitLoop_spec {n : ℕ} (hn : s.j + n = maxBuffer) {digits : List Int}
    (h : digitsLoop n s.number = some digits) :
    ∃ s', digitLoop s = some s' ∧ s'.j = s.j + digits.length ∧ s'.i = s.i ∧
      s'.numBuffer = s.numBuffer ∧ (∀ k < s.j, s'.temp k = s.temp k) ∧
      ∀ k < digits.length, digits[k]? = some (s'.temp (s.j + k)) := by
  -- A round fills one entry; the entries before it are left alone by the rounds that follow.
  induction n generalizing s digits with
  | zero => cases h
  | succ n ih =>
    have hself : s.digit.temp s.j = s.number.tmod 10 := update_self ..
    have hother : ∀ k < s.j, s.digit.temp k = s.temp k :=
      fun k hk => update_of_ne (Nat.ne_of_lt hk) _ _
    have hj' : s.digit.j = s.j + 1 := rfl
    rw [digitLoop, if_pos (by omega)]
    unfold digitsLoop at h
    by_cases hdone : s.number.tdiv 10 = 0
    · rw [if_pos hdone] at h
      cases h
      refine ⟨s.digit, if_pos hdone, hj', rfl, rfl, hother, fun k hk => ?_⟩
      obtain rfl : k = 0 := by simpa using hk
      rw [Nat.add_zero, hself]
      rfl
    · rw [if_neg hdone] at h
      obtain ⟨rest, hrest, rfl⟩ := Option.map_eq_some_iff.mp h
      obtain ⟨s', hs', hj, hi, hbuf, htemp, hdigits⟩ := ih (s := s.digit) (by omega) hrest
      refine ⟨s', ?_, ?_, hi, hbuf, fun k hk => ?_, fun k hk => ?_⟩
      · rw [if_neg (show s.digit.number ≠ 0 from hdone), hs']
      · rw [hj, List.length_cons]
        omega
      · rw [htemp k (by omega), hother k hk]
      · cases k with
        | zero =>
          rw [Nat.add_zero, htemp s.j (by omega), hself]
          rfl
        | succ k =>
          rw [List.getElem?_cons_succ, hdigits k (by simpa using hk), hj', Nat.add_assoc,
            Nat.add_comm 1 k]

/-- **The copy.** The digits go to `num_buffer` in the other order. -/
theorem copyLoop_spec {j : ℕ} (h : s.i + j ≤ maxBuffer) :
    ∃ s', copyLoop j s = some s' ∧ ∀ k, s'.numBuffer k =
      if s.i ≤ k ∧ k < s.i + j then 48 + s.temp (s.i + j - 1 - k) else s.numBuffer k := by
  induction j generalizing s with
  | zero => exact ⟨s, rfl, fun k => (if_neg (by omega)).symm⟩
  | succ j ih =>
    have hput : putAt s.numBuffer s.i (48 + s.temp j)
        = some (update s.numBuffer s.i (48 + s.temp j)) := if_pos (by omega)
    obtain ⟨s', hs', hbuf⟩ := ih (s := { s with
      j := j, numBuffer := update s.numBuffer s.i (48 + s.temp j), i := s.i + 1 })
      (by show s.i + 1 + j ≤ maxBuffer; omega)
    refine ⟨s', ?_, fun k => ?_⟩
    · unfold copyLoop
      rw [hput]
      exact hs'
    · rw [hbuf]
      show (if s.i + 1 ≤ k ∧ k < s.i + 1 + j then 48 + s.temp (s.i + 1 + j - 1 - k)
        else update s.numBuffer s.i (48 + s.temp j) k) = _
      by_cases hk : k = s.i
      · subst hk
        rw [if_neg (by omega), if_pos (by omega), update_self]
        congr 2
        omega
      · rw [update_of_ne hk]
        by_cases hin : s.i + 1 ≤ k ∧ k < s.i + 1 + j
        · rw [if_pos hin, if_pos (by omega)]
          congr 2
          omega
        · rw [if_neg hin, if_neg (by omega)]

/-- Both loops: the digits stand behind what was in `num_buffer` before. -/
theorem loops_spec (hj : s.j = 0) {digits : List Int}
    (h : digitsLoop maxBuffer s.number = some digits) (hi : s.i + digits.length ≤ maxBuffer) :
    ∃ s₁ s₂, digitLoop s = some s₁ ∧ s₁.j = digits.length ∧ copyLoop s₁.j s₁ = some s₂ ∧
      (List.range (s.i + digits.length)).map s₂.numBuffer =
        (List.range s.i).map s.numBuffer ++ digits.reverse.map (48 + ·) := by
  obtain ⟨s₁, hloop, hlen, hi₁, hbuf₁, -, hdigits⟩ := digitLoop_spec (n := maxBuffer) (by omega) h
  rw [hj, Nat.zero_add] at hlen
  obtain ⟨s₂, hcopy, hbuf₂⟩ := copyLoop_spec (s := s₁) (j := s₁.j) (by omega)
  refine ⟨s₁, s₂, hloop, hlen, hcopy, ?_⟩
  rw [List.range_add, List.map_append, List.map_map]
  congr 1
  · apply List.map_congr_left
    intro k hk
    have hlt := List.mem_range.mp hk
    rw [hbuf₂, if_neg (by omega), hbuf₁]
  · apply List.ext_getElem?
    intro k
    rw [List.getElem?_map, List.getElem?_map]
    by_cases hk : k < digits.length
    · rw [List.getElem?_range hk, List.getElem?_reverse hk, hdigits _ (by omega), Option.map_some,
        Option.map_some]
      show some (s₂.numBuffer (s.i + k)) = _
      rw [hbuf₂, if_pos (by omega), hj, Nat.zero_add]
      congr 3
      omega
    · rw [List.getElem?_eq_none (by rw [List.length_range]; omega),
        List.getElem?_eq_none (by rw [List.length_reverse]; omega)]
      rfl

end Loops

/-- **`Handle_PrintNum`** gives the console the text of the system call. -/
theorem handlePrintNum_eq (junk : ℕ → Int) (n : BitVec 32) :
    handlePrintNum junk n.toInt = numBuffer n.toInt := by
  have hlo := n.le_toInt
  have hhi := n.toInt_lt
  have hmax : maxBuffer = 11 := rfl
  unfold handlePrintNum numBuffer putSign
  by_cases hneg : n.toInt < 0
  · have hwrap := wrap32_mem (-n.toInt)
    unfold minInt maxInt at hwrap
    have habs : (wrap32 (-n.toInt)).natAbs < 10 ^ (9 + 1) := by omega
    obtain ⟨digits, hdigits, hlen⟩ := digitsLoop_eq_some (n := 11) (by decide) habs
    obtain ⟨s₁, s₂, hloop, hj, hcopy, htext⟩ := loops_spec
      (s := ⟨wrap32 (-n.toInt), 1, 0, update junk 0 45, fun _ => 0⟩) rfl hdigits
      (by show 1 + digits.length ≤ maxBuffer; omega)
    have hput : putAt junk 0 45 = some (update junk 0 45) := if_pos (by decide)
    simp only [if_pos hneg, hput, Option.map_some, Option.bind_eq_bind, Option.bind_some,
      hloop, hcopy, hdigits, if_pos (show digits.length < 11 by omega)]
    rw [if_pos (by omega), hj, Nat.add_comm, htext]
    show some ([update junk 0 45 0] ++ _) = _
    rw [update_self]
    rfl
  · have habs : n.toInt.natAbs < 10 ^ (9 + 1) := by omega
    obtain ⟨digits, hdigits, hlen⟩ := digitsLoop_eq_some (n := 11) (by decide) habs
    obtain ⟨s₁, s₂, hloop, hj, hcopy, htext⟩ := loops_spec
      (s := ⟨n.toInt, 0, 0, junk, fun _ => 0⟩) rfl hdigits
      (by show 0 + digits.length ≤ maxBuffer; omega)
    simp only [if_neg hneg, Option.bind_eq_bind, Option.bind_some, hloop, hcopy, hdigits,
      Option.map_some]
    rw [if_pos (by omega), hj]
    simp only [Nat.zero_add] at htext
    rw [htext]
    rfl

theorem length_handlePrintNum {junk : ℕ → Int} {number : Int} {text : List Int}
    (h : handlePrintNum junk number = some text) : text.length ≤ maxBuffer := by
  unfold handlePrintNum at h
  obtain ⟨s, -, h⟩ := Option.bind_eq_some_iff.mp h
  obtain ⟨s₁, -, h⟩ := Option.bind_eq_some_iff.mp h
  obtain ⟨s₂, -, h⟩ := Option.bind_eq_some_iff.mp h
  generalize (if number < 0 then s₁.j + 1 else s₁.j) = length at h
  split at h
  · rename_i hlen
    rw [← Option.some.inj h, List.length_map, List.length_range]
    exact hlen
  · cases h

/-! ### The decimal representation -/

/-- The characters of the decimal representation of a natural number. -/
def decimalNat (m : ℕ) : List Int :=
  if m = 0 then [48] else (Nat.digits 10 m).reverse.map fun d : ℕ => 48 + (d : Int)

/-- The characters of the decimal representation of an integer. -/
def decimal (n : Int) : List Int :=
  if n < 0 then 45 :: decimalNat n.natAbs else decimalNat n.natAbs

/-- The digits that the loop finds in a number that is not negative. -/
theorem digitsLoop_natCast {k m : ℕ} (hk : 0 < k) (hm : m < 10 ^ k) :
    digitsLoop k (m : Int) =
      some (if m = 0 then [0] else (Nat.digits 10 m).map fun d : ℕ => (d : Int)) := by
  induction k generalizing m with
  | zero => omega
  | succ k ih =>
    have hdiv : (m : Int).tdiv 10 = (m / 10 : ℕ) := by
      rw [Int.tdiv_eq_ediv_of_nonneg (by omega)]
      rfl
    have hmod : (m : Int).tmod 10 = (m % 10 : ℕ) := by
      rw [Int.tmod_eq_emod_of_nonneg (by omega)]
      rfl
    unfold digitsLoop
    rw [hdiv, hmod]
    by_cases hlast : m / 10 = 0
    · rw [if_pos (by exact_mod_cast hlast)]
      by_cases h0 : m = 0
      · subst h0
        rfl
      · rw [if_neg h0, Nat.digits_of_lt 10 m h0 (by omega), Nat.mod_eq_of_lt (by omega)]
        rfl
    · have hk' : 0 < k := by
        rcases Nat.eq_zero_or_pos k with rfl | hpos
        · omega
        · exact hpos
      rw [if_neg (by exact_mod_cast hlast), ih hk' (by rw [pow_succ] at hm; omega), if_neg hlast,
        if_neg (by omega), Nat.digits_def' (by decide) (by omega : 0 < m), Option.map_some]
      rfl

theorem decimalNat_eq (m : ℕ) :
    ((if m = 0 then [0] else (Nat.digits 10 m).map fun d : ℕ => (d : Int)).reverse.map
      fun d : Int => 48 + d) = decimalNat m := by
  unfold decimalNat
  split
  · rfl
  · rw [← List.map_reverse, List.map_map]
    rfl

theorem le_of_mem_decimalNat {m : ℕ} {c : Int} (h : c ∈ decimalNat m) : 48 ≤ c := by
  unfold decimalNat at h
  split at h
  · rw [List.mem_singleton.mp h]
  · obtain ⟨d, -, rfl⟩ := List.mem_map.mp h
    omega

/-- No character but the sign stands before `'0'`. -/
theorem not_mem_decimal {n c : Int} (hlt : c < 48) (hsign : c ≠ 45) : c ∉ decimal n := by
  intro hmem
  unfold decimal at hmem
  split at hmem
  · rcases List.mem_cons.mp hmem with h | h
    · exact hsign h
    · exact absurd (le_of_mem_decimalNat h) (by omega)
  · exact absurd (le_of_mem_decimalNat hmem) (by omega)

/-- The text of a number whose negation is an `int`. -/
theorem numBuffer_eq_decimal {n : BitVec 32} (h : n.toInt ≠ minInt) :
    numBuffer n.toInt = some (decimal n.toInt) := by
  have hlo := n.le_toInt
  have hhi := n.toInt_lt
  have habs : n.toInt.natAbs < 10 ^ 10 := by omega
  have hloop := digitsLoop_natCast (k := 11) (by decide) (habs.trans (by decide))
  have hlen : (if n.toInt.natAbs = 0 then [0] else
      (Nat.digits 10 n.toInt.natAbs).map fun d : ℕ => (d : Int)).length < 11 := by
    split
    · decide
    · rw [List.length_map]
      exact Nat.lt_succ_of_le ((Nat.digits_length_le_iff (by decide) _).mpr habs)
  unfold numBuffer decimal
  by_cases hneg : n.toInt < 0
  · have hwrap : wrap32 (-n.toInt) = n.toInt.natAbs := by
      unfold minInt at h
      rw [wrap32_of_nonneg (by omega) (by unfold maxInt; omega)]
      omega
    rw [if_pos hneg, if_pos hneg, hwrap, hloop, Option.bind_some, if_pos hlen, decimalNat_eq]
  · have hnat : n.toInt = n.toInt.natAbs := by omega
    rw [if_neg hneg, if_neg hneg, ← decimalNat_eq]
    conv_lhs => rw [hnat]
    rw [hloop, Option.map_some]

theorem numBuffer_minInt : numBuffer minInt = some [45, 46, 47, 44, 41, 44, 40, 45, 42, 44,
      40] := by
  decide

/-- Its digits are negative, so their characters stand before `'0'`. -/
theorem numBuffer_minInt_ne : numBuffer minInt ≠ some (decimal minInt) := by
  intro heq
  rw [numBuffer_minInt] at heq
  have hmem : (40 : Int) ∈ decimal minInt := by
    rw [← Option.some.inj heq]
    decide
  exact not_mem_decimal (by decide) (by decide) hmem

/-- **`PrintNum`.** The system call gives the console the decimal representation of every number but
the smallest one; and for every number the loops end and stay in their arrays. -/
theorem print_num_iff (n : BitVec 32) (junk : ℕ → Int) :
    (handlePrintNum junk n.toInt = some (decimal n.toInt) ↔ n.toInt ≠ minInt) ∧
    ∃ text, handlePrintNum junk n.toInt = some text ∧ text.length ≤ maxBuffer ∧
      ∀ (K : Type) (S : Services K) (s : CallState K), s.at 4 = n →
        scPrintNum S s = (service S (.putChars text) >>= fun _ => increasePC) s := by
  obtain ⟨text, htext⟩ := numBuffer_eq_some n
  rw [handlePrintNum_eq]
  refine ⟨⟨fun heq hmin => ?_, numBuffer_eq_decimal⟩, text, htext, ?_, fun K S s hs => ?_⟩
  · exact numBuffer_minInt_ne (hmin ▸ heq)
  · exact length_handlePrintNum ((handlePrintNum_eq junk n).trans htext)
  · subst hs
    rw [scPrintNum, bind_ok (readRegister_eq (by decide) s), htext]

/-- `PrintNum` of the smallest number prints `-./,),(-*,(`. -/
theorem print_num_smallest :
    handlePrintNum (fun _ => 0) (0x80000000#32).toInt
      = some [45, 46, 47, 44, 41, 44, 40, 45, 42, 44, 40] ∧
    handlePrintNum (fun _ => 0) (0x80000000#32).toInt ≠ some (decimal (0x80000000#32).toInt) := by
  have htext : handlePrintNum (fun _ => 0) (0x80000000#32).toInt
      = some [45, 46, 47, 44, 41, 44, 40, 45, 42, 44, 40] :=
    (handlePrintNum_eq _ _).trans numBuffer_minInt
  refine ⟨htext, fun heq => ?_⟩
  exact numBuffer_minInt_ne ((handlePrintNum_eq _ _).symm.trans heq)

end Nachos.UserProg.Exception
