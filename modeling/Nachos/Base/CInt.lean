import Mathlib.Algebra.Order.Ring.Int
import Mathlib.Tactic.Ring

namespace Nachos.Base

/-!
# Base — 32-bit machine integers and their bytes

A C `int` is an `Int`. Arithmetic whose result could leave the 32-bit range is passed
through `wrap32`, the two's-complement reduction; everywhere else `wrap32_eq_self` says that
nothing happens. Division and remainder are C's, which truncate toward zero (`Int.tdiv`,
`Int.tmod`).

The second half is the little-endian layout of a 32-bit word in four bytes, once for
unsigned words (`wordByte`, `wordOfBytes`) and once for signed ones (`intByte`,
`intOfBytes`), with the round trip in each direction the components use.
-/

/-! ### Two's-complement wraparound -/

/-- The largest `int`. -/
def maxInt : Int := 2147483647

/-- The smallest `int`. -/
def minInt : Int := -2147483648

/-- Reduce an integer to the 32-bit two's-complement range. -/
def wrap32 (x : Int) : Int := x.bmod 4294967296

/-- A value that fits an `int` is not changed by wraparound. -/
theorem wrap32_eq_self {x : Int} (hlo : minInt ≤ x) (hhi : x ≤ maxInt) : wrap32 x = x := by
  unfold minInt at hlo
  unfold maxInt at hhi
  exact Int.bmod_eq_of_le (by omega) (by omega)

/-- The same for a value that is not negative. -/
theorem wrap32_of_nonneg {x : Int} (h0 : 0 ≤ x) (hhi : x ≤ maxInt) : wrap32 x = x :=
  wrap32_eq_self (by unfold minInt; omega) hhi

/-- A natural number that fits an `int` is not changed by wraparound. -/
theorem wrap32_natCast {n : ℕ} (hn : n ≤ 2147483647) : wrap32 n = n :=
  wrap32_of_nonneg (by omega) (by unfold maxInt; omega)

/-- The result of wraparound fits an `int`. -/
theorem wrap32_mem (x : Int) : minInt ≤ wrap32 x ∧ wrap32 x ≤ maxInt := by
  unfold minInt maxInt wrap32
  have hlo := Int.le_bmod (x := x) (m := 4294967296) (by omega)
  have hhi := Int.bmod_lt (x := x) (m := 4294967296) (by omega)
  omega

/-- A value just above the range wraps around to a negative one. -/
theorem wrap32_of_gt {x : Int} (hlo : maxInt < x) (hhi : x ≤ 2 * maxInt + 1) :
    wrap32 x = x - 4294967296 := by
  unfold maxInt at hlo hhi
  have hself : wrap32 (x - 4294967296) = x - 4294967296 :=
    wrap32_eq_self (by unfold minInt; omega) (by unfold maxInt; omega)
  rw [← hself, wrap32, wrap32]
  exact (Int.sub_bmod_right x 4294967296).symm

/-- Incrementing a value that has wrapped. -/
theorem wrap32_add_one (x : Int) : wrap32 (wrap32 x + 1) = wrap32 (x + 1) := by
  simp [wrap32]

/-- Decrementing a value that has wrapped. -/
theorem wrap32_sub_one (x : Int) : wrap32 (wrap32 x - 1) = wrap32 (x - 1) := by
  simp [wrap32]

/-! ### C division -/

/-- The C idiom for rounding a quotient up: truncating division, plus one when there is a
positive remainder. -/
def divRoundUp (n s : Int) : Int := n.tdiv s + if n.tmod s > 0 then 1 else 0

/-- On natural numbers `divRoundUp` is the ceiling division. -/
theorem divRoundUp_natCast (n s : ℕ) (hs : 0 < s) :
    divRoundUp (n : Int) (s : Int) = ((n + s - 1) / s : ℕ) := by
  have hdiv : (n : Int).tdiv s = (n / s : ℕ) := by
    rw [Int.tdiv_eq_ediv_of_nonneg (by omega)]; rfl
  have hmod : (n : Int).tmod s = (n % s : ℕ) := by
    rw [Int.tmod_eq_emod_of_nonneg (by omega)]; rfl
  have hsplit := Nat.div_add_mod n s
  have hlt := Nat.mod_lt n hs
  unfold divRoundUp
  rw [hdiv, hmod]
  by_cases h0 : n % s = 0
  · -- `n = s * q`: the ceiling is `q`.
    have hq : (n + s - 1) / s = n / s := by
      rw [Nat.div_eq_iff hs]
      rw [Nat.mul_comm] at hsplit
      omega
    rw [hq, h0]; simp
  · -- `n = s * q + r` with `0 < r < s`: the ceiling is `q + 1`.
    have hq : (n + s - 1) / s = n / s + 1 := by
      rw [Nat.div_eq_iff hs, Nat.add_mul, Nat.one_mul]
      rw [Nat.mul_comm] at hsplit
      omega
    rw [hq, if_pos (by omega)]; push_cast; ring

/-! ### Little-endian layout of unsigned words -/

/-- Byte `j` of the little-endian layout of an unsigned word. -/
def wordByte (n : ℕ) (j : ℕ) : UInt8 := UInt8.ofNat (n / 256 ^ j)

/-- The unsigned word whose little-endian bytes are `b 0`, `b 1`, `b 2`, `b 3`. -/
def wordOfBytes (b : ℕ → UInt8) : ℕ :=
  (b 0).toNat + 256 * (b 1).toNat + 65536 * (b 2).toNat + 16777216 * (b 3).toNat

/-- **Round trip.** A 32-bit word is recovered from its bytes. -/
theorem wordOfBytes_wordByte {n : ℕ} (hn : n < 4294967296) : wordOfBytes (wordByte n) = n := by
  simp only [wordOfBytes, wordByte, UInt8.toNat_ofNat', Nat.reducePow, Nat.div_one]
  omega

/-- **Round trip.** Four bytes are recovered from their word. -/
theorem wordByte_wordOfBytes (b : ℕ → UInt8) {j : ℕ} (hj : j < 4) :
    wordByte (wordOfBytes b) j = b j := by
  have h0 := (b 0).toNat_lt
  have h1 := (b 1).toNat_lt
  have h2 := (b 2).toNat_lt
  have h3 := (b 3).toNat_lt
  apply UInt8.toNat_inj.mp
  simp only [wordOfBytes, wordByte, UInt8.toNat_ofNat']
  obtain rfl | rfl | rfl | rfl : j = 0 ∨ j = 1 ∨ j = 2 ∨ j = 3 := by omega
  all_goals omega

/-- The decoded word only depends on its four bytes. -/
theorem wordOfBytes_congr {b c : ℕ → UInt8} (h : ∀ j < 4, b j = c j) :
    wordOfBytes b = wordOfBytes c := by
  unfold wordOfBytes
  rw [h 0 (by omega), h 1 (by omega), h 2 (by omega), h 3 (by omega)]

/-! ### Little-endian layout of signed words -/

/-- Byte `j` of the little-endian layout of an `int`. -/
def intByte (x : Int) (j : ℕ) : UInt8 := wordByte (x % 4294967296).toNat j

/-- The `int` whose little-endian bytes are `b 0`, `b 1`, `b 2`, `b 3`. -/
def intOfBytes (b : ℕ → UInt8) : Int := wrap32 (wordOfBytes b : Int)

/-- What is read from four bytes fits an `int`. -/
theorem intOfBytes_mem (b : ℕ → UInt8) : minInt ≤ intOfBytes b ∧ intOfBytes b ≤ maxInt :=
  wrap32_mem _

/-- **Round trip.** Storing an integer in four bytes and reading it back wraps it. -/
theorem intOfBytes_intByte (x : Int) : intOfBytes (intByte x) = wrap32 x := by
  have hx := Int.emod_lt_of_pos x (show (0 : Int) < 4294967296 by omega)
  have hx0 := Int.emod_nonneg x (show (4294967296 : Int) ≠ 0 by omega)
  have hw : wordOfBytes (intByte x) = (x % 4294967296).toNat :=
    wordOfBytes_wordByte (by omega)
  rw [intOfBytes, hw, Int.toNat_of_nonneg hx0, wrap32, wrap32]
  exact Int.emod_bmod x 4294967296

/-- The decoded `int` only depends on its four bytes. -/
theorem intOfBytes_congr {b c : ℕ → UInt8} (h : ∀ j < 4, b j = c j) :
    intOfBytes b = intOfBytes c := by
  rw [intOfBytes, intOfBytes, wordOfBytes_congr h]

end Nachos.Base
