/-
# Brindle.Exact — the rationals that floats stand for.

Where the source computes with floats what is meant as real arithmetic, the results are stated of the
exact values: `F64.toRat` is the rational a finite `f64` is.
-/
import Brindle.Float
import Mathlib.Algebra.Order.Field.Power
import Mathlib.Algebra.Order.Field.Rat
import Mathlib.Algebra.Field.Rat

namespace Brindle

open Ieee754 (binary64)

namespace F64

/-- The rational a finite value is; zero for an infinity or a NaN. -/
def toRat (x : F64) : ℚ :=
  match binary64.decode x.bits.toNat with
  | .finite neg m e => (if neg then -1 else 1) * (m * 2 ^ e)
  | _ => 0

/-- A finite value that is not below zero is no negative rational. -/
theorem toRat_nonneg {x : F64} (hfinite : x.isFinite) (hsign : x.lt zero = false) : 0 ≤ x.toRat := by
  unfold toRat
  cases hvalue : binary64.decode x.bits.toNat with
  | nan => exact le_rfl
  | inf neg => exact le_rfl
  | finite neg m e =>
    cases neg with
    | false =>
      dsimp only
      rw [if_neg Bool.false_ne_true, one_mul]
      exact mul_nonneg (Nat.cast_nonneg m) (zpow_nonneg (by norm_num) e)
    | true =>
      -- the sign bit is set, so a value that is not below zero has no other bit set
      have hword : x.bits.toNat < 2 ^ 64 := x.bits.toNat_lt
      have hbit : x.bits.toNat / 2 ^ 63 % 2 = 1 := by
        simp only [Ieee754.Format.decode] at hvalue
        split_ifs at hvalue <;> simp_all [Ieee754.Format.signBit, binary64]
      have hneg : x.isNeg = true := by
        rw [isNeg, decide_eq_true_eq]
        omega
      have hmag : x.mag = 0 := by
        have hnumber : x.isNan = false := by
          rw [isFinite, decide_eq_true_eq] at hfinite
          rw [isNan, decide_eq_false_iff_not]
          omega
        have hsigned : ¬ x.signed < zero.signed := by
          have hzero : zero.isNan = false := by decide
          simpa [lt, hnumber, hzero] using hsign
        rw [signed, if_pos hneg, show zero.signed = 0 from rfl] at hsigned
        omega
      have hbits : x.bits.toNat = 2 ^ 63 := by
        rw [mag] at hmag
        omega
      have hzero : binary64.decode (2 ^ 63) = .finite true 0 binary64.minExp := rfl
      rw [hbits, hzero] at hvalue
      cases hvalue
      simp

end F64

end Brindle
