import BinderIdl.Compiler.OverflowGuard
import Mathlib.Tactic.Common

/-! When the patched compiler computes a constant exactly: the result is checked and stored with 32 bits, and the rest of
    the returned value is what the local variable happened to hold. -/

namespace BinderIdl.Compiler

/-- The number is one of `int64_t`. -/
def FitsLong (n : Int) : Prop := -2 ^ 63 ≤ n ∧ n < 2 ^ 63

/-- The number is one of `int`. -/
def FitsInt (n : Int) : Prop := -2 ^ 31 ≤ n ∧ n < 2 ^ 31

/-- The result of an operator is the exact one, or an overflow is flagged when that does not fit. -/
structure Exact (exact : Int) (result : BitVec 64 × OverflowGuard) : Prop where
  fits : FitsLong exact → result.1.toInt = exact ∧ result.2.overflowed = false
  overflows : ¬FitsLong exact → result.2.overflowed = true

/-- The upper half of a 64-bit variable that holds an `int` of this sign. -/
def signHalf (n : Int) : BitVec 32 := if n < 0 then -1 else 0

theorem fitsInt_iff {n : Int} : FitsInt n ↔ (BitVec.ofInt 32 n).toInt = n := by
  rw [BitVec.toInt_ofInt, FitsInt]
  constructor
  · rintro ⟨low, high⟩
    exact Int.bmod_eq_of_le (by omega) (by omega)
  · intro same
    have := Int.le_bmod (x := n) (m := 2 ^ 32) (by decide)
    have := Int.bmod_lt (x := n) (m := 2 ^ 32) (by decide)
    omega

theorem FitsInt.fitsLong {n : Int} (fits : FitsInt n) : FitsLong n := by
  rw [FitsInt] at fits
  rw [FitsLong]
  omega

theorem overflowed_apply (op : Operator) (g : OverflowGuard) (o out : BitVec 64) :
    (g.apply op o out).2.overflowed = false ↔ FitsInt (op.exact g.value.toInt o.toInt) := by
  rw [fitsInt_iff]
  exact bne_eq_false_iff_eq

theorem toInt_storeInt (out : BitVec 64) (v : BitVec 32) :
    (storeInt out v).toInt = 2 ^ 32 * (out.extractLsb' 32 32).toInt + v.toNat := by
  rw [storeInt, BitVec.toInt_append]
  rfl

/-- An `int` comes back only from a variable whose upper half had its sign already. -/
theorem toInt_storeInt_eq_iff {n : Int} (fits : FitsInt n) (out : BitVec 64) :
    (storeInt out (BitVec.ofInt 32 n)).toInt = n ↔ out.extractLsb' 32 32 = signHalf n := by
  have low : ((BitVec.ofInt 32 n).toNat : Int) = n % 2 ^ 32 := by
    rw [BitVec.toNat_ofInt, Int.toNat_of_nonneg (Int.emod_nonneg _ (by decide))]
    rfl
  have sign : (signHalf n).toInt = if n < 0 then -1 else 0 := by
    rw [signHalf]
    split
    · rfl
    · rfl
  rw [toInt_storeInt, low, ← BitVec.toInt_inj, sign]
  rw [FitsInt] at fits
  split
  · omega
  · omega

/-- For every operator, operands and content of the local variable, the patched compiler is exact if and only if the
    result does not fit 64 bits, or fits 32 bits and the upper half of the variable happened to hold its sign. -/
theorem operators_exact_iff (op : Operator) (g : OverflowGuard) (o out : BitVec 64) :
    Exact (op.exact g.value.toInt o.toInt) (g.apply op o out) ↔
      ¬FitsLong (op.exact g.value.toInt o.toInt) ∨
        FitsInt (op.exact g.value.toInt o.toInt) ∧
          out.extractLsb' 32 32 = signHalf (op.exact g.value.toInt o.toInt) := by
  constructor
  · intro exact
    by_cases long : FitsLong (op.exact g.value.toInt o.toInt)
    · obtain ⟨same, clear⟩ := exact.fits long
      have int := (overflowed_apply op g o out).mp clear
      exact .inr ⟨int, (toInt_storeInt_eq_iff int out).mp same⟩
    · exact .inl long
  · rintro (large | ⟨int, half⟩)
    · refine ⟨fun fits => absurd fits large, fun _ => ?_⟩
      refine eq_true_of_ne_false fun clear => ?_
      exact large ((overflowed_apply op g o out).mp clear).fitsLong
    · refine ⟨fun _ => ⟨?_, (overflowed_apply op g o out).mpr int⟩, fun large => absurd int.fitsLong large⟩
      exact (toInt_storeInt_eq_iff int out).mpr half

/-- `2^31 + 2^31` and `-1 + 0`: an overflow is flagged that there is not, and a wrong sum is returned with the
    flag clear. -/
theorem sum_inexact :
    (OverflowGuard.add ⟨0x80000000, false⟩ 0x80000000 0).2.overflowed = true ∧
      FitsLong (Operator.exact .add (0x80000000 : BitVec 64).toInt (0x80000000 : BitVec 64).toInt) ∧
      OverflowGuard.add ⟨-1, false⟩ 0 0 = (0xFFFFFFFF, ⟨-1, false⟩) ∧
      ¬Exact (Operator.exact .add (0x80000000 : BitVec 64).toInt (0x80000000 : BitVec 64).toInt)
        (OverflowGuard.add ⟨0x80000000, false⟩ 0x80000000 0) ∧
      ¬Exact (Operator.exact .add (-1 : BitVec 64).toInt (0 : BitVec 64).toInt) (OverflowGuard.add ⟨-1, false⟩ 0 0) := by
  have flagged : (OverflowGuard.add ⟨0x80000000, false⟩ 0x80000000 0).2.overflowed = true := by decide
  have fits : FitsLong (Operator.exact .add (0x80000000 : BitVec 64).toInt (0x80000000 : BitVec 64).toInt) := by
    rw [FitsLong]
    decide
  have wrong : OverflowGuard.add ⟨-1, false⟩ 0 0 = (0xFFFFFFFF, ⟨-1, false⟩) := by decide
  have small : FitsLong (Operator.exact .add (-1 : BitVec 64).toInt (0 : BitVec 64).toInt) := by
    rw [FitsLong]
    decide
  refine ⟨flagged, fits, wrong, fun exact => ?_, fun exact => ?_⟩
  · cases flagged.symm.trans (exact.fits fits).2
  · have same := (exact.fits small).1
    rw [wrong] at same
    revert same
    decide

end BinderIdl.Compiler
