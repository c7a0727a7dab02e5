import Mathlib.Data.Nat.ModEq
import Mathlib.Tactic.Ring

namespace Nachos.Base

/-!
# Base — numbers in two words

A number of `2 * w` bits is kept in two words of `w` bits, the high one and the low one. What a
program does to it word by word — add with a carry, shift by one, take the two's complement — is
what the operation does to the number, modulo `2 ^ (2 * w)`.
-/

variable {w : ℕ} {hi lo bHi bLo : BitVec w}

/-- The number in two words. -/
def dword (hi lo : BitVec w) : ℕ := hi.toNat * 2 ^ w + lo.toNat

theorem dword_lt (hi lo : BitVec w) : dword hi lo < 2 ^ w * 2 ^ w := by
  have hhi : hi.toNat + 1 ≤ 2 ^ w := hi.isLt
  have hlo := lo.isLt
  calc dword hi lo < hi.toNat * 2 ^ w + 2 ^ w := Nat.add_lt_add_left hlo _
    _ = (hi.toNat + 1) * 2 ^ w := by ring
    _ ≤ 2 ^ w * 2 ^ w := Nat.mul_le_mul_right _ hhi

/-- The high word counts modulo `2 ^ w`. -/
theorem dword_modEq {x z : ℕ} (hhi : hi.toNat ≡ x [MOD 2 ^ w]) (h : x * 2 ^ w + lo.toNat = z) :
    dword hi lo ≡ z [MOD 2 ^ w * 2 ^ w] := by
  rw [← h]
  exact (hhi.mul_right' (2 ^ w)).add_right _

/-- **Addition.** The sum of the low words has a carry if it is smaller than one of them. -/
theorem dword_add (hi lo bHi bLo : BitVec w) :
    dword ((if lo + bLo < bLo then hi + 1#w else hi) + bHi) (lo + bLo)
      ≡ dword hi lo + dword bHi bLo [MOD 2 ^ w * 2 ^ w] := by
  have hlo := lo.isLt
  have hbLo := bLo.isLt
  have hsum : (lo + bLo).toNat = (lo.toNat + bLo.toNat) % 2 ^ w := BitVec.toNat_add ..
  by_cases hcarry : lo.toNat + bLo.toNat < 2 ^ w
  · rw [Nat.mod_eq_of_lt hcarry] at hsum
    have hno : ¬ lo + bLo < bLo := by
      rw [BitVec.lt_def]
      omega
    rw [if_neg hno]
    refine dword_modEq (x := hi.toNat + bHi.toNat) ?_ ?_
    · rw [BitVec.toNat_add]
      exact Nat.mod_modEq ..
    · rw [hsum, dword, dword]
      ring
  · have hwrap : (lo + bLo).toNat + 2 ^ w = lo.toNat + bLo.toNat := by
      rw [hsum, Nat.mod_eq_sub_mod (by omega), Nat.mod_eq_of_lt (by omega)]
      omega
    have hyes : lo + bLo < bLo := by
      rw [BitVec.lt_def]
      omega
    rw [if_pos hyes]
    refine dword_modEq (x := hi.toNat + 1 + bHi.toNat) ?_ ?_
    · rw [BitVec.toNat_add, BitVec.toNat_add]
      refine (Nat.mod_modEq ..).trans (Nat.ModEq.add_right _ ?_)
      refine (Nat.mod_modEq ..).trans (Nat.ModEq.add_left _ ?_)
      rw [BitVec.toNat_ofNat]
      exact Nat.mod_modEq ..
    · rw [dword, dword]
      calc (hi.toNat + 1 + bHi.toNat) * 2 ^ w + (lo + bLo).toNat
          = (hi.toNat + bHi.toNat) * 2 ^ w + ((lo + bLo).toNat + 2 ^ w) := by ring
        _ = hi.toNat * 2 ^ w + lo.toNat + (bHi.toNat * 2 ^ w + bLo.toNat) := by
          rw [hwrap]
          ring

/-- **Doubling.** The bit that leaves the low word enters the high one. -/
theorem dword_shift (hi lo : BitVec w) :
    dword (if lo.msb then (hi <<< 1) ||| 1#w else hi <<< 1) (lo <<< 1)
      ≡ 2 * dword hi lo [MOD 2 ^ w * 2 ^ w] := by
  have hlo := lo.isLt
  have hdouble : ∀ x : BitVec w, (x <<< 1).toNat = 2 * x.toNat % 2 ^ w := by
    intro x
    rw [BitVec.toNat_shiftLeft, Nat.shiftLeft_eq, pow_one, Nat.mul_comm]
  by_cases hmsb : lo.msb = true
  · have hge := BitVec.msb_eq_true_iff_two_mul_ge.mp hmsb
    have hshift : (lo <<< 1).toNat + 2 ^ w = 2 * lo.toNat := by
      rw [hdouble, Nat.mod_eq_sub_mod hge, Nat.mod_eq_of_lt (by omega)]
      omega
    -- The lowest bit of the shifted word is free.
    have hfree : (hi <<< 1) &&& 1#w = 0#w := by
      ext i hi'
      by_cases h0 : i = 0
      · simp [h0]
      · simp [h0]
    rw [if_pos hmsb, ← BitVec.add_eq_or_of_and_eq_zero _ _ hfree]
    refine dword_modEq (x := 2 * hi.toNat + 1) ?_ ?_
    · rw [BitVec.toNat_add, hdouble, BitVec.toNat_ofNat]
      exact (Nat.mod_modEq ..).trans ((Nat.mod_modEq ..).add (Nat.mod_modEq ..))
    · rw [dword]
      calc (2 * hi.toNat + 1) * 2 ^ w + (lo <<< 1).toNat
          = 2 * hi.toNat * 2 ^ w + ((lo <<< 1).toNat + 2 ^ w) := by ring
        _ = 2 * (hi.toNat * 2 ^ w + lo.toNat) := by
          rw [hshift]
          ring
  · have hlt : 2 * lo.toNat < 2 ^ w := by
      by_contra hge
      exact hmsb (BitVec.msb_eq_true_iff_two_mul_ge.mpr (by omega))
    rw [if_neg hmsb]
    refine dword_modEq (x := 2 * hi.toNat) ?_ ?_
    · rw [hdouble]
      exact Nat.mod_modEq ..
    · rw [hdouble, Nat.mod_eq_of_lt hlt, dword]
      ring

/-- **Two's complement.** The carry of the low word goes into the high one. -/
theorem dword_neg (hi lo : BitVec w) :
    dword (if ~~~lo + 1#w = 0#w then ~~~hi + 1#w else ~~~hi) (~~~lo + 1#w) + dword hi lo
      ≡ 0 [MOD 2 ^ w * 2 ^ w] := by
  have hhi := hi.isLt
  have hlo := lo.isLt
  have hneg : ∀ x : BitVec w, ~~~x + 1#w = -x := fun x => (BitVec.neg_eq_not_add x).symm
  rw [hneg, hneg]
  by_cases h0 : lo = 0#w
  · subst h0
    rw [BitVec.neg_zero, if_pos rfl]
    have hsum : (-hi).toNat + hi.toNat ≡ 0 [MOD 2 ^ w] := by
      rw [BitVec.toNat_neg]
      refine ((Nat.mod_modEq ..).add_right _).trans ?_
      rw [Nat.sub_add_cancel hhi.le]
      exact (Nat.modEq_zero_iff_dvd.mpr dvd_rfl)
    have hprod := hsum.mul_right' (2 ^ w)
    rw [zero_mul, add_mul] at hprod
    rw [dword, dword, BitVec.toNat_ofNat, Nat.zero_mod, add_zero, add_zero]
    exact hprod
  · have hne : ¬ -lo = 0#w := fun h => h0 (BitVec.neg_eq_zero_iff.mp h)
    have hpos : 0 < lo.toNat := Nat.pos_of_ne_zero fun h =>
      h0 (BitVec.eq_of_toNat_eq (by simpa using h))
    rw [if_neg hne, dword, dword, BitVec.toNat_neg, Nat.mod_eq_of_lt (by omega), BitVec.toNat_not]
    have hall : (2 ^ w - 1 - hi.toNat) * 2 ^ w + (2 ^ w - lo.toNat) + (hi.toNat * 2 ^ w + lo.toNat)
        = 2 ^ w * 2 ^ w := by
      calc (2 ^ w - 1 - hi.toNat) * 2 ^ w + (2 ^ w - lo.toNat) + (hi.toNat * 2 ^ w + lo.toNat)
          = (2 ^ w - 1 - hi.toNat + hi.toNat) * 2 ^ w + (2 ^ w - lo.toNat + lo.toNat) := by ring
        _ = (2 ^ w - 1) * 2 ^ w + 2 ^ w := by
          rw [Nat.sub_add_cancel (by omega), Nat.sub_add_cancel hlo.le]
        _ = (2 ^ w - 1 + 1) * 2 ^ w := by ring
        _ = 2 ^ w * 2 ^ w := by rw [Nat.sub_add_cancel (by omega)]
    rw [hall]
    exact Nat.modEq_zero_iff_dvd.mpr dvd_rfl

end Nachos.Base
