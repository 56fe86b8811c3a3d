/-
# Brindle.Distance — the distance kernels and the metric an index ranks by.

`distance.rs` and the `Metric` enum of `vector.rs`. Each kernel checks that its operands have one
length and then folds over the zipped components, in the source's order of operations; every metric
is normalised so that smaller is nearer.
-/
import Brindle.Float

namespace Brindle

/-- Distance metric an index is built and queried with. -/
inductive Metric where
  | l2
  | cosine
  | innerProduct
  deriving DecidableEq, Repr

namespace Metric

/-- Stable on-disk discriminant. -/
def code : Metric → UInt8
  | .l2 => 0
  | .cosine => 1
  | .innerProduct => 2

/-- Inverse of `Metric.code`; `none` for an unknown discriminant. -/
def fromCode (code : UInt8) : Option Metric :=
  if code = 0 then some .l2
  else if code = 1 then some .cosine
  else if code = 2 then some .innerProduct
  else none

theorem fromCode_code (metric : Metric) : fromCode metric.code = some metric := by
  cases metric <;> rfl

theorem code_of_fromCode {c : UInt8} {metric : Metric} (h : fromCode c = some metric) :
    metric.code = c := by
  unfold fromCode at h
  split at h
  · cases h; simp_all [code]
  · split at h
    · cases h; simp_all [code]
    · split at h
      · cases h; simp_all [code]
      · cases h

end Metric

variable [Arith]

/-- Error returned by distance kernels for malformed input. -/
inductive DistanceError where
  | dimensionMismatch (left right : Nat)
  deriving DecidableEq, Repr

def checkDims (a b : List F32) : Except DistanceError Unit :=
  if a.length ≠ b.length then .error (.dimensionMismatch a.length b.length) else .ok ()

/-- Dot product of equal-length slices. Rust's float `Sum` starts from `-0.0`. -/
def dot (a b : List F32) : F32 :=
  (a.zip b).foldl (fun acc p => Arith.f32Add acc (Arith.f32Mul p.1 p.2)) F32.negZero

/-- Squared Euclidean distance. -/
def l2Squared (a b : List F32) : Except DistanceError F32 := do
  checkDims a b
  return (a.zip b).foldl (fun acc p =>
    let d := Arith.f32Sub p.1 p.2
    Arith.f32Add acc (Arith.f32Mul d d)) F32.zero

/-- Cosine distance; NaN when either operand has zero magnitude. -/
def cosineDistance (a b : List F32) : Except DistanceError F32 := do
  checkDims a b
  let sums := (a.zip b).foldl (fun (acc : F32 × F32 × F32) p =>
    (Arith.f32Add acc.1 (Arith.f32Mul p.1 p.2),
     Arith.f32Add acc.2.1 (Arith.f32Mul p.1 p.1),
     Arith.f32Add acc.2.2 (Arith.f32Mul p.2 p.2))) (F32.zero, F32.zero, F32.zero)
  let denom := Arith.f32Sqrt (Arith.f32Mul sums.2.1 sums.2.2)
  if denom.feq F32.zero then return F32.nan
  return Arith.f32Sub F32.one (Arith.f32Div sums.1 denom)

/-- Inner product. -/
def innerProduct (a b : List F32) : Except DistanceError F32 := do
  checkDims a b
  return dot a b

/-- Negative inner product, so that smaller is nearer here too. -/
def negativeInnerProduct (a b : List F32) : Except DistanceError F32 := do
  return (← innerProduct a b).neg

namespace Metric

/-- Distance between two equal-length vectors under this metric. -/
def distance : Metric → List F32 → List F32 → Except DistanceError F32
  | .l2, a, b => l2Squared a b
  | .cosine, a, b => cosineDistance a b
  | .innerProduct, a, b => negativeInnerProduct a b

/-- The value of the kernel, dimensions aside. -/
def value (metric : Metric) (a b : List F32) : F32 :=
  match metric.distance a b with
  | .ok d => d
  | .error _ => F32.nan

/-- A kernel fails only on operands of different lengths. -/
theorem distance_eq (metric : Metric) {a b : List F32} (h : a.length = b.length) :
    metric.distance a b = .ok (metric.value a b) := by
  have hdims : checkDims a b = .ok () := if_neg (not_not.mpr h)
  unfold value
  cases metric with
  | l2 => simp only [distance, l2Squared, hdims]; rfl
  | cosine =>
    simp only [distance, cosineDistance, hdims]
    generalize (a.zip b).foldl _ _ = sums
    simp only [bind, Except.bind]
    split <;> rfl
  | innerProduct => simp only [distance, negativeInnerProduct, Brindle.innerProduct, hdims]; rfl

/-- And it does fail on them. -/
theorem distance_ne (metric : Metric) {a b : List F32} (h : a.length ≠ b.length) :
    metric.distance a b = .error (.dimensionMismatch a.length b.length) := by
  have hdims : checkDims a b = .error (.dimensionMismatch a.length b.length) := if_pos h
  cases metric with
  | l2 => simp only [distance, l2Squared, hdims]; rfl
  | cosine => simp only [distance, cosineDistance, hdims]; rfl
  | innerProduct => simp only [distance, negativeInnerProduct, Brindle.innerProduct, hdims]; rfl

end Metric

end Brindle
