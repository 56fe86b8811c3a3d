/-
# Brindle.Float — the `f32` and `f64` values the index computes with.

A float is its bit pattern. Everything the source does to a float *without* rounding (the `<` and
`==` comparisons, `total_cmp`, negation, `is_finite`, `clamp`, the casts to and from integers) is
defined here on the bits, exactly. The rounded operations are fields of `Arith`: Rust fixes their
value for every operand except the sign and payload of a computed NaN, so results proved for every
`Arith` hold whatever NaNs the platform produces. `Arith.ieee` is the concrete choice in which every
computed NaN is the canonical one; concrete runs are evaluated in it.
-/
import Brindle.Lib.Ieee754

namespace Brindle

open Ieee754

/-- An `f32`, as its bit pattern. -/
structure F32 where
  bits : UInt32
  deriving DecidableEq, Repr

/-- An `f64`, as its bit pattern. -/
structure F64 where
  bits : UInt64
  deriving DecidableEq, Repr

namespace F32

def ofNatBits (n : Nat) : F32 := ⟨UInt32.ofNat n⟩

/-- `f32::INFINITY`. -/
def infinity : F32 := ⟨0x7F800000⟩

/-- `f32::NAN`. -/
def nan : F32 := ⟨0x7FC00000⟩

def zero : F32 := ⟨0⟩
def negZero : F32 := ⟨0x80000000⟩
def one : F32 := ⟨0x3F800000⟩

/-- The bits below the sign. -/
def mag (x : F32) : Nat := x.bits.toNat % 0x80000000

def isNeg (x : F32) : Bool := 0x80000000 ≤ x.bits.toNat

def isNan (x : F32) : Bool := 0x7F800000 < x.mag

def isFinite (x : F32) : Bool := x.mag < 0x7F800000

/-- The position of a non-NaN value on the line; both zeros are at `0`. -/
def signed (x : F32) : Int := if x.isNeg then -(x.mag : Int) else x.mag

/-- `a < b`: false as soon as either side is NaN. -/
def lt (a b : F32) : Bool := !a.isNan && !b.isNan && decide (a.signed < b.signed)

/-- `a > b`. -/
def gt (a b : F32) : Bool := b.lt a

/-- `a <= b`. -/
def le (a b : F32) : Bool := !a.isNan && !b.isNan && decide (a.signed ≤ b.signed)

/-- `a == b`: zeros are equal to each other, a NaN to nothing. -/
def feq (a b : F32) : Bool := !a.isNan && !b.isNan && decide (a.signed = b.signed)

/-- The key `f32::total_cmp` compares by: below the sign the order is reversed, so that it runs
`-NaN < -∞ < … < -0 < 0 < … < ∞ < NaN`. -/
def totalKey (x : F32) : Int := if x.isNeg then -(x.mag : Int) - 1 else x.mag

/-- `-x`. -/
def neg (x : F32) : F32 := ofNatBits (binary32.neg x.bits.toNat)

/-- `f32::clamp`. A NaN passes through. -/
def clamp (x lo hi : F32) : F32 := if x.lt lo then lo else if x.gt hi then hi else x

/-- `n as f32`. -/
def ofUsize (n : Nat) : F32 := ofNatBits (binary32.ofNat n)

/-- `f32::round`: halves go away from zero. -/
def round (x : F32) : F32 := ofNatBits (binary32.roundInt x.bits.toNat)

/-- `x as usize`, saturating. -/
def toUsize (x : F32) : Nat := binary32.truncNat (2 ^ 64 - 1) x.bits.toNat

theorem totalKey_injective : Function.Injective totalKey := by
  intro a b h
  have ha : a.bits.toNat < 2 ^ 32 := a.bits.toNat_lt
  have hb : b.bits.toNat < 2 ^ 32 := b.bits.toNat_lt
  have hbits : a.bits.toNat = b.bits.toNat := by
    simp only [totalKey, isNeg, mag, decide_eq_true_eq] at h
    split at h <;> split at h <;> omega
  cases a
  cases b
  exact congrArg F32.mk (UInt32.toNat_inj.mp hbits)

/-- Nothing is above `+∞` in the partial order, NaN included: an empty result heap, whose farthest
distance reads as `+∞`, never cuts a walk short. -/
theorem not_infinity_lt (x : F32) : infinity.lt x = false := by
  have hinf : infinity.signed = 0x7F800000 := by decide
  by_contra h
  rw [Bool.not_eq_false] at h
  simp only [lt, hinf, Bool.and_eq_true, Bool.not_eq_true', decide_eq_true_eq, isNan,
    decide_eq_false_iff_not] at h
  obtain ⟨⟨-, hx⟩, hlt⟩ := h
  simp only [signed] at hlt
  split at hlt <;> omega

end F32

namespace F64

def ofNatBits (n : Nat) : F64 := ⟨UInt64.ofNat n⟩

def zero : F64 := ⟨0⟩
def one : F64 := ⟨0x3FF0000000000000⟩

/-- `f64::MIN_POSITIVE`. -/
def minPositive : F64 := ⟨0x0010000000000000⟩

def mag (x : F64) : Nat := x.bits.toNat % 0x8000000000000000

def isNeg (x : F64) : Bool := 0x8000000000000000 ≤ x.bits.toNat

def isNan (x : F64) : Bool := 0x7FF0000000000000 < x.mag

def isFinite (x : F64) : Bool := x.mag < 0x7FF0000000000000

def signed (x : F64) : Int := if x.isNeg then -(x.mag : Int) else x.mag

/-- `a < b`: false as soon as either side is NaN. -/
def lt (a b : F64) : Bool := !a.isNan && !b.isNan && decide (a.signed < b.signed)

/-- `a > b`. -/
def gt (a b : F64) : Bool := b.lt a

/-- `a <= b`: false as soon as either side is NaN. -/
def le (a b : F64) : Bool := !a.isNan && !b.isNan && decide (a.signed ≤ b.signed)

/-- `a.partial_cmp(&b)`: `none` exactly when a side is NaN. -/
def partialCmp (a b : F64) : Option Ordering :=
  if a.isNan || b.isNan then none else some (compare a.signed b.signed)

/-- `-x`. -/
def neg (x : F64) : F64 := ofNatBits (binary64.neg x.bits.toNat)

/-- `n as f64`. -/
def ofUsize (n : Nat) : F64 := ofNatBits (binary64.ofNat n)

/-- `f64::from` an `i32`. -/
def ofI32 (n : Int32) : F64 := ofNatBits (binary64.roundRat (n < 0) n.toInt.natAbs 1)

/-- `n as f64 / (1 << 53) as f64`. Both conversions and the quotient are exact for the 53-bit draws
this is applied to, so one rounding of the exact quotient is the value. -/
def ofDraw (n : Nat) : F64 := ofNatBits (binary64.roundRat false n (2 ^ 53))

/-- `x.floor() as usize`, saturating. -/
def floorToUsize (x : F64) : Nat := binary64.truncNat (2 ^ 64 - 1) (binary64.floor x.bits.toNat)

end F64

/-- `x as f64`, which is exact; of a NaN only that it is one is kept. -/
def F32.toF64 (x : F32) : F64 :=
  match binary32.decode x.bits.toNat with
  | .nan => F64.ofNatBits binary64.nanBits
  | .inf s => F64.ofNatBits (binary64.withSign s binary64.infBits)
  | .finite s m e => F64.ofNatBits (binary64.roundDyadic s m e)

/-- `x as f32`, rounded to nearest; of a NaN only that it is one is kept. -/
def F64.toF32 (x : F64) : F32 :=
  match binary64.decode x.bits.toNat with
  | .nan => F32.nan
  | .inf s => F32.ofNatBits (binary32.withSign s binary32.infBits)
  | .finite s m e => F32.ofNatBits (binary32.roundDyadic s m e)

/-- The rounded float operations. -/
class Arith where
  f32Add : F32 → F32 → F32
  f32Sub : F32 → F32 → F32
  f32Mul : F32 → F32 → F32
  f32Div : F32 → F32 → F32
  f32Sqrt : F32 → F32
  f64Mul : F64 → F64 → F64
  f64Div : F64 → F64 → F64
  f64Ln : F64 → F64

/-- Round to nearest, ties to even; every computed NaN is the canonical quiet NaN. -/
@[reducible] def Arith.ieee : Arith where
  f32Add a b := .ofNatBits (binary32.add a.bits.toNat b.bits.toNat)
  f32Sub a b := .ofNatBits (binary32.sub a.bits.toNat b.bits.toNat)
  f32Mul a b := .ofNatBits (binary32.mul a.bits.toNat b.bits.toNat)
  f32Div a b := .ofNatBits (binary32.div a.bits.toNat b.bits.toNat)
  f32Sqrt a := .ofNatBits (binary32.sqrt a.bits.toNat)
  f64Mul a b := .ofNatBits (binary64.mul a.bits.toNat b.bits.toNat)
  f64Div a b := .ofNatBits (binary64.div a.bits.toNat b.bits.toNat)
  f64Ln a := .ofNatBits (binary64.ln a.bits.toNat)

/-- The platform's product is the rounded one wherever that is not a NaN, as the language promises. -/
class Arith.Rounds [Arith] : Prop where
  f32Mul_eq : ∀ a b, (Arith.ieee.f32Mul a b).isNan = false →
    Arith.f32Mul a b = Arith.ieee.f32Mul a b

instance : @Arith.Rounds Arith.ieee := @Arith.Rounds.mk Arith.ieee fun _ _ _ => rfl

/-- And so is its product of two `f64`s. -/
class Arith.Rounds64 [Arith] : Prop where
  f64Mul_eq : ∀ a b, (Arith.ieee.f64Mul a b).isNan = false →
    Arith.f64Mul a b = Arith.ieee.f64Mul a b

instance : @Arith.Rounds64 Arith.ieee := @Arith.Rounds64.mk Arith.ieee fun _ _ _ => rfl

end Brindle
