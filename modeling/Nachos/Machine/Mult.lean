import Nachos.Base.DoubleWord
import Nachos.Machine.MipsSim

namespace Nachos.Machine

open Base

/-!
# Machine — multiplication

`Mult` multiplies by shifting and adding: in each round the lowest bit of `a` decides whether the
shifted `b` is added to the sum, both in two words. The variable `a` is an `int`, so its shift drags
the sign along; the bits that come in this way are never tested in the 32 rounds. The loop is left
early when no bit is left.

* `multLoop_modEq` — what the rounds that are left add to the sum;
* `mult_exact` — the product of two numbers, signed and unsigned.
-/

/-! ### The bits of the multiplier -/

theorem and_one_ne_zero_iff (a : BitVec 32) : a &&& 1#32 ≠ 0 ↔ a.toNat % 2 = 1 := by
  rw [Ne, ← BitVec.toNat_inj, BitVec.toNat_and, show (1#32).toNat = 2 ^ 1 - 1 from rfl,
    Nat.and_two_pow_sub_one_eq_mod]
  show ¬ a.toNat % 2 = 0 ↔ _
  omega

/-- No bit is left but the lowest one. -/
theorem toNat_lt_two_of_and {a : BitVec 32} (h : a &&& 0xfffffffe#32 = 0) : a.toNat < 2 := by
  have hmask : ∀ i : Fin 32, 1 ≤ i.val → (0xfffffffe#32).getLsbD i = true := by decide
  have hrest : a >>> 1 = 0#32 := by
    apply BitVec.eq_of_getLsbD_eq
    intro i hi
    rw [BitVec.getLsbD_ushiftRight, BitVec.getLsbD_zero]
    by_cases hlt : 1 + i < 32
    · have hbit : (a &&& 0xfffffffe#32).getLsbD (1 + i) = false := by
        rw [h]
        exact BitVec.getLsbD_zero
      rwa [BitVec.getLsbD_and, hmask ⟨1 + i, hlt⟩ (Nat.le_add_right 1 i), Bool.and_true] at hbit
    · exact BitVec.getLsbD_of_ge a _ (by omega)
  have hhalf : a.toNat / 2 = 0 := by
    have hnat := congrArg BitVec.toNat hrest
    rwa [BitVec.toNat_ushiftRight, Nat.shiftRight_eq_div_pow] at hnat
  omega

/-- The sign that is shifted in does not reach the lowest `n` bits. -/
theorem sshiftRight_mod {n : ℕ} (hn : n ≤ 31) (a : BitVec 32) :
    (a.sshiftRight 1).toNat % 2 ^ n = a.toNat / 2 % 2 ^ n := by
  have hlt := a.isLt
  rw [BitVec.toNat_sshiftRight]
  split
  · rename_i hmsb
    have hdvd : 2 ^ n ∣ 2 ^ 31 := pow_dvd_pow 2 hn
    have hval : 2 ^ 32 - 1 - (2 ^ 32 - 1 - a.toNat) >>> 1 = a.toNat / 2 + 2 ^ 31 := by
      rw [Nat.shiftRight_eq_div_pow]
      omega
    rw [hval, Nat.add_mod, Nat.mod_eq_zero_of_dvd hdvd, add_zero, Nat.mod_mod]
  · rw [Nat.shiftRight_eq_div_pow, pow_one]

theorem and_signBit_ne_zero_iff (b : BitVec 32) : b &&& signBit ≠ 0 ↔ b.msb = true := by
  have hpow : signBit = BitVec.twoPow 32 31 := by decide
  rw [hpow, BitVec.and_twoPow, BitVec.msb_eq_getLsbD_last]
  cases b.getLsbD 31 <;> decide

/-! ### The loop -/

/-- **The loop of `Mult`.** With `n` rounds left it adds the product of the lowest `n` bits of `a`
and the shifted `b`. -/
theorem multLoop_modEq {n : ℕ} (hn : n ≤ 32) (a bHi bLo hi lo : BitVec 32) :
    dword (multLoop n a bHi bLo hi lo).1 (multLoop n a bHi bLo hi lo).2
      ≡ dword hi lo + a.toNat % 2 ^ n * dword bHi bLo [MOD 2 ^ 32 * 2 ^ 32] := by
  induction n generalizing a bHi bLo hi lo with
  | zero =>
    rw [pow_zero, Nat.mod_one, zero_mul, add_zero]
    exact Nat.ModEq.rfl
  | succ n ih =>
    have hshift := dword_shift bHi bLo
    simp only [← and_signBit_ne_zero_iff] at hshift
    have hsplit : a.toNat % 2 ^ (n + 1) = a.toNat % 2 + 2 * (a.toNat / 2 % 2 ^ n) := by
      rw [pow_succ', Nat.mod_mul]
    -- The rounds behind this one start from the halved multiplier and the doubled `b`.
    have hrest : ∀ hi lo, dword (multLoop n (a.sshiftRight 1)
          (if bLo &&& signBit ≠ 0 then (bHi <<< 1) ||| 1#32 else bHi <<< 1) (bLo <<< 1) hi lo).1
        (multLoop n (a.sshiftRight 1)
          (if bLo &&& signBit ≠ 0 then (bHi <<< 1) ||| 1#32 else bHi <<< 1) (bLo <<< 1) hi lo).2
        ≡ dword hi lo + 2 * (a.toNat / 2 % 2 ^ n) * dword bHi bLo [MOD 2 ^ 32 * 2 ^ 32] := by
      intro hi lo
      refine (ih (by omega) ..).trans (Nat.ModEq.add_left _ ?_)
      rw [sshiftRight_mod (by omega), Nat.mul_comm 2, Nat.mul_assoc]
      exact hshift.mul_left _
    unfold multLoop
    by_cases hodd : a &&& 1#32 ≠ 0
    · have hone := (and_one_ne_zero_iff a).mp hodd
      have hadd := dword_add hi lo bHi bLo
      rw [if_pos hodd]
      by_cases hlast : a &&& 0xfffffffe#32 = 0
      · have hlt := toNat_lt_two_of_and hlast
        simp only [if_pos hlast]
        refine hadd.trans ?_
        rw [Nat.mod_eq_of_lt (hlt.trans_le (Nat.le_self_pow (Nat.succ_ne_zero n) 2)),
          show a.toNat = 1 by omega, one_mul]
      · simp only [if_neg hlast]
        refine (hrest ..).trans ?_
        rw [hsplit, hone, add_mul, one_mul, ← add_assoc]
        exact hadd.add_right _
    · have heven : a.toNat % 2 = 0 := by
        by_contra hne
        exact hodd ((and_one_ne_zero_iff a).mpr (by omega))
      rw [if_neg hodd, hsplit, heven, zero_add]
      exact hrest hi lo

/-! ### The product -/

/-- The number without its sign, as the loop gets it; the smallest `int` is its own negation. -/
theorem toNat_magnitude (a : BitVec 32) : (if a.slt 0 then -a else a).toNat = a.toInt.natAbs := by
  have hlt := a.isLt
  show (if a.slt 0#32 then -a else a).toNat = _
  rw [BitVec.slt_zero_eq_msb, BitVec.toInt_eq_msb_cond]
  by_cases hmsb : a.msb = true
  · have hge := BitVec.msb_eq_true_iff_two_mul_ge.mp hmsb
    rw [if_pos hmsb, if_pos hmsb, BitVec.toNat_neg]
    omega
  · rw [if_neg hmsb, if_neg hmsb]
    rfl

/-- The loop computes the product of two words. -/
theorem multLoop_eq (a b : BitVec 32) :
    dword (multLoop 32 a 0 b 0 0).1 (multLoop 32 a 0 b 0 0).2 = a.toNat * b.toNat := by
  have hmod := multLoop_modEq le_rfl a 0 b 0 0
  have hzero : dword (0 : BitVec 32) 0 = 0 := by decide
  have hb : dword 0 b = b.toNat := by
    rw [dword, show (0 : BitVec 32).toNat = 0 from rfl, zero_mul, zero_add]
  rw [hzero, hb, zero_add, Nat.mod_eq_of_lt a.isLt] at hmod
  refine hmod.eq_of_lt_of_lt (dword_lt ..) ?_
  exact Nat.mul_lt_mul'' a.isLt b.isLt

/-- The sign that `Mult` computes is the one of the product. -/
theorem toInt_mul_eq (a b : BitVec 32) : a.toInt * b.toInt =
    if (a.slt 0 != b.slt 0) = true then -(a.toInt.natAbs * b.toInt.natAbs : Int)
    else (a.toInt.natAbs * b.toInt.natAbs : Int) := by
  have hsign : ∀ x : BitVec 32, x.slt 0 = decide (x.toInt < 0) := fun x => rfl
  rw [hsign, hsign]
  rcases lt_or_ge a.toInt 0 with ha | ha <;> rcases lt_or_ge b.toInt 0 with hb | hb
  · rw [Int.ofNat_natAbs_of_nonpos ha.le, Int.ofNat_natAbs_of_nonpos hb.le]
    simp [ha, hb]
  · rw [Int.ofNat_natAbs_of_nonpos ha.le, Int.natAbs_of_nonneg hb]
    simp [ha, hb.not_gt]
  · rw [Int.natAbs_of_nonneg ha, Int.ofNat_natAbs_of_nonpos hb.le]
    simp [ha.not_gt, hb]
  · rw [Int.natAbs_of_nonneg ha, Int.natAbs_of_nonneg hb]
    simp [ha.not_gt, hb.not_gt]

/-- **`Mult` is exact.** The two words are the signed product modulo `2 ^ 64`, or the unsigned
product. -/
theorem mult_exact (a b : BitVec 32) :
    (dword (mult a b true).1 (mult a b true).2 : Int) = a.toInt * b.toInt % 2 ^ 64 ∧
      dword (mult a b false).1 (mult a b false).2 = a.toNat * b.toNat := by
  by_cases hzero : a = 0 ∨ b = 0
  · have hmult : ∀ signedArith, mult a b signedArith = (0, 0) := fun _ => if_pos hzero
    rw [hmult, hmult]
    rcases hzero with rfl | rfl <;> simp [dword]
  · constructor
    · have hloop := multLoop_eq (if a.slt 0 then -a else a) (if b.slt 0 then -b else b)
      rw [toNat_magnitude, toNat_magnitude] at hloop
      rw [toInt_mul_eq]
      unfold mult
      rw [if_neg hzero]
      simp only [Bool.true_and]
      generalize multLoop 32 _ 0 _ 0 0 = p at hloop ⊢
      obtain ⟨hi, lo⟩ := p
      by_cases hneg : (a.slt 0 != b.slt 0) = true
      · obtain ⟨k, hk⟩ := Nat.modEq_zero_iff_dvd.mp (dword_neg hi lo)
        have hlt := dword_lt (if ~~~lo + 1#32 = 0#32 then ~~~hi + 1#32 else ~~~hi) (~~~lo + 1#32)
        rw [if_pos hneg, if_pos hneg, ← Nat.cast_mul, ← hloop]
        show (dword (if ~~~lo + 1#32 = 0#32 then ~~~hi + 1#32 else ~~~hi) (~~~lo + 1#32) : Int)
          = -(dword hi lo) % 2 ^ 64
        omega
      · have hlt := dword_lt hi lo
        rw [if_neg hneg, if_neg hneg, ← Nat.cast_mul, ← hloop]
        show (dword hi lo : Int) = dword hi lo % 2 ^ 64
        omega
    · unfold mult
      rw [if_neg hzero]
      exact multLoop_eq a b

end Nachos.Machine
