/-
# Brindle.Operators — the distance operators of SQL, and the metric an index ranks by.

`distance.rs`, `pg_vector.rs` and `opclass.rs`: each metric has an operator, each shipped operator class
an ordering operator and support functions that name its metric and the type it indexes. The operators
are declared to be their own commutators, so a planner may swap their operands; the index computes the
distance with the query first, and for L2 without the square root. That neither changes the value, up to
which NaN an undefined one is, is a fact about rounded arithmetic: a difference and the one the other way
around round to mirror images, which have one square.
-/
import Brindle.Distance
import Brindle.Lib.Signs
import Brindle.Lib.SquareRoot
import Mathlib.Data.List.Zip

namespace Brindle

open Ieee754 (binary32)
open Ieee754.Format (decode_nan decode_finite decode_withSign decode_inf)

/-! ## Equal but for the NaN -/

namespace F32

/-- Equal, or both a NaN. -/
def Same (a b : F32) : Prop := a = b ∨ (a.isNan = true ∧ b.isNan = true)

/-- A number from zero up, the infinity included. -/
def Nonneg (a : F32) : Prop := a.bits.toNat ≤ binary32.infBits

/-- What the pattern denotes. -/
def datum (a : F32) : Ieee754.Datum := binary32.decode a.bits.toNat

variable {a b c : F32}

theorem Same.refl (a : F32) : Same a a := .inl rfl

theorem Same.symm (h : Same a b) : Same b a :=
  h.imp Eq.symm And.symm

theorem Same.trans (h : Same a b) (h' : Same b c) : Same a c := by
  rcases h with rfl | ⟨ha, hb⟩
  · exact h'
  · rcases h' with rfl | ⟨-, hc⟩
    · exact .inr ⟨ha, hb⟩
    · exact .inr ⟨ha, hc⟩

theorem Same.isNan_eq (h : Same a b) : a.isNan = b.isNan := by
  rcases h with rfl | ⟨ha, hb⟩
  · rfl
  · rw [ha, hb]

/-- A number has no other pattern. -/
theorem Same.eq_of_number (h : Same a b) (hb : b.isNan = false) : a = b := by
  rcases h with rfl | ⟨-, hnan⟩
  · rfl
  · simp [hb] at hnan

theorem bits_eq (a : F32) : a.bits.toNat = binary32.withSign a.isNeg a.mag := by
  have hlt : a.bits.toNat < 2 ^ 32 := a.bits.toNat_lt
  have hsign : binary32.signBit = 0x80000000 := by decide
  simp only [Ieee754.Format.withSign, isNeg, mag, decide_eq_true_eq, hsign]
  split_ifs <;> omega

theorem mag_lt (a : F32) : a.mag < binary32.signBit :=
  Nat.mod_lt _ (by decide)

theorem bits_lt (a : F32) : a.bits.toNat < 2 * binary32.signBit := a.bits.toNat_lt

theorem bits_ofNatBits {n : Nat} (hn : n < 2 * binary32.signBit) : (ofNatBits n).bits.toNat = n :=
  UInt32.toNat_ofNat_of_lt' hn

theorem datum_nan (h : a.isNan = true) : a.datum = .nan := by
  unfold datum
  rw [bits_eq]
  exact decode_nan (by decide) (by decide) _ (of_decide_eq_true h) a.mag_lt

theorem datum_number (h : a.isNan = false) : a.datum ≠ .nan := by
  have hmag : a.mag ≤ binary32.infBits := not_lt.mp (of_decide_eq_false h)
  unfold datum
  rw [bits_eq]
  rcases hmag.lt_or_eq with hlt | heq
  · simp [decode_withSign (by decide) (by decide) _ hlt]
  · simp [heq, decode_inf (f := binary32) (by decide) (by decide)]

theorem Same.datum_eq (h : Same a b) : a.datum = b.datum := by
  rcases h with rfl | ⟨ha, hb⟩
  · rfl
  · rw [datum_nan ha, datum_nan hb]

theorem Nonneg.isNan_eq (h : Nonneg a) : a.isNan = false := by
  have hinf : binary32.infBits = 0x7F800000 := by decide
  simp only [Nonneg, hinf] at h
  unfold isNan mag
  exact decide_eq_false (by omega)

theorem Nonneg.signed_eq (h : Nonneg a) : a.signed = a.bits.toNat := by
  have hinf : binary32.infBits = 0x7F800000 := by decide
  simp only [Nonneg, hinf] at h
  simp only [signed, isNeg, mag, decide_eq_true_eq]
  split_ifs <;> omega

theorem nonneg_ofNatBits {n : Nat} (hn : n ≤ binary32.infBits) : Nonneg (ofNatBits n) := by
  have hlt : n < 2 * binary32.signBit := hn.trans_lt (by decide)
  unfold Nonneg
  rwa [bits_ofNatBits hlt]

theorem isNan_neg (a : F32) : a.neg.isNan = a.isNan := by
  have hlt : a.bits.toNat < 2 ^ 32 := a.bits.toNat_lt
  have hsign : binary32.signBit = 0x80000000 := by decide
  have hbits : a.neg.bits.toNat = binary32.neg a.bits.toNat := by
    refine bits_ofNatBits ?_
    unfold Ieee754.Format.neg
    split_ifs <;> omega
  unfold isNan mag
  rw [hbits]
  unfold Ieee754.Format.neg
  rw [hsign]
  split_ifs
  · rw [Nat.add_mod_right]
  · rw [show (a.bits.toNat - 0x80000000) % 0x80000000 = a.bits.toNat % 0x80000000 by omega]

theorem Same.neg (h : Same a b) : Same a.neg b.neg := by
  rcases h with rfl | ⟨ha, hb⟩
  · exact .refl _
  · exact .inr ⟨(isNan_neg a).trans ha, (isNan_neg b).trans hb⟩

theorem Same.feq_eq (h : Same a b) (c : F32) : a.feq c = b.feq c := by
  rcases h with rfl | ⟨ha, hb⟩
  · rfl
  · simp [feq, ha, hb]

end F32

/-! ## What the language promises -/

/-- Every operation on `f32` is the rounded one, but for which NaN an undefined result is. -/
class Arith.Conforms [Arith] : Prop where
  f32Add_same : ∀ a b, F32.Same (Arith.f32Add a b) (Arith.ieee.f32Add a b)
  f32Sub_same : ∀ a b, F32.Same (Arith.f32Sub a b) (Arith.ieee.f32Sub a b)
  f32Mul_same : ∀ a b, F32.Same (Arith.f32Mul a b) (Arith.ieee.f32Mul a b)
  f32Div_same : ∀ a b, F32.Same (Arith.f32Div a b) (Arith.ieee.f32Div a b)
  f32Sqrt_same : ∀ a, F32.Same (Arith.f32Sqrt a) (Arith.ieee.f32Sqrt a)

instance : @Arith.Conforms Arith.ieee :=
  @Arith.Conforms.mk Arith.ieee (fun _ _ => .refl _) (fun _ _ => .refl _) (fun _ _ => .refl _)
    (fun _ _ => .refl _) fun _ => .refl _

namespace F32.Same

variable [Arith] [Arith.Conforms] {a a' b b' : F32}

/-! An operation does not look at which NaN it is given. -/

theorem add (ha : Same a a') (hb : Same b b') : Same (Arith.f32Add a b) (Arith.f32Add a' b') := by
  have hieee : Arith.ieee.f32Add a b = Arith.ieee.f32Add a' b' :=
    congrArg₂ (fun x y => ofNatBits (binary32.sum x y)) ha.datum_eq hb.datum_eq
  exact (Arith.Conforms.f32Add_same a b).trans (hieee ▸ (Arith.Conforms.f32Add_same a' b').symm)

theorem mul (ha : Same a a') (hb : Same b b') : Same (Arith.f32Mul a b) (Arith.f32Mul a' b') := by
  have hieee : Arith.ieee.f32Mul a b = Arith.ieee.f32Mul a' b' := by
    show ofNatBits (binary32.mul _ _) = ofNatBits (binary32.mul _ _)
    unfold Ieee754.Format.mul
    rw [show binary32.decode a.bits.toNat = _ from ha.datum_eq,
      show binary32.decode b.bits.toNat = _ from hb.datum_eq]
    rfl
  exact (Arith.Conforms.f32Mul_same a b).trans (hieee ▸ (Arith.Conforms.f32Mul_same a' b').symm)

theorem sub (ha : Same a a') (hb : Same b b') : Same (Arith.f32Sub a b) (Arith.f32Sub a' b') := by
  have hieee : Arith.ieee.f32Sub a b = Arith.ieee.f32Sub a' b' := by
    have hdecode : ∀ x : F32, binary32.decode (binary32.neg x.bits.toNat) = x.datum.neg :=
      fun x => Ieee754.Format.decode_neg (by decide) (by decide) x.bits_lt
    show ofNatBits (binary32.sum a.datum _) = ofNatBits (binary32.sum a'.datum _)
    rw [hdecode, hdecode, ha.datum_eq, hb.datum_eq]
  exact (Arith.Conforms.f32Sub_same a b).trans (hieee ▸ (Arith.Conforms.f32Sub_same a' b').symm)

theorem div (ha : Same a a') (hb : Same b b') : Same (Arith.f32Div a b) (Arith.f32Div a' b') := by
  have hieee : Arith.ieee.f32Div a b = Arith.ieee.f32Div a' b' := by
    show ofNatBits (binary32.div _ _) = ofNatBits (binary32.div _ _)
    unfold Ieee754.Format.div
    rw [show binary32.decode a.bits.toNat = _ from ha.datum_eq,
      show binary32.decode b.bits.toNat = _ from hb.datum_eq]
    rfl
  exact (Arith.Conforms.f32Div_same a b).trans (hieee ▸ (Arith.Conforms.f32Div_same a' b').symm)

theorem sqrt (ha : Same a a') : Same (Arith.f32Sqrt a) (Arith.f32Sqrt a') := by
  have hieee : Arith.ieee.f32Sqrt a = Arith.ieee.f32Sqrt a' := by
    show ofNatBits (binary32.sqrt _) = ofNatBits (binary32.sqrt _)
    unfold Ieee754.Format.sqrt
    rw [show binary32.decode a.bits.toNat = _ from ha.datum_eq]
    rfl
  exact (Arith.Conforms.f32Sqrt_same a).trans (hieee ▸ (Arith.Conforms.f32Sqrt_same a').symm)

theorem mul_comm (a b : F32) : Same (Arith.f32Mul a b) (Arith.f32Mul b a) := by
  have hieee : Arith.ieee.f32Mul a b = Arith.ieee.f32Mul b a :=
    congrArg ofNatBits (Ieee754.Format.mul_comm ..)
  exact (Arith.Conforms.f32Mul_same a b).trans (hieee ▸ (Arith.Conforms.f32Mul_same b a).symm)

/-- The square of a difference is the square of the one the other way around. -/
theorem square_sub (a b : F32) :
    Same (Arith.f32Mul (Arith.f32Sub a b) (Arith.f32Sub a b))
      (Arith.f32Mul (Arith.f32Sub b a) (Arith.f32Sub b a)) := by
  have hbits : ∀ x y : F32, (Arith.ieee.f32Sub x y).bits.toNat = binary32.sub x.bits.toNat y.bits.toNat :=
    fun x y => bits_ofNatBits (Ieee754.Format.sum_lt (by decide) (by decide) _ _)
  have hsquare : Arith.ieee.f32Mul (Arith.ieee.f32Sub a b) (Arith.ieee.f32Sub a b) =
      Arith.ieee.f32Mul (Arith.ieee.f32Sub b a) (Arith.ieee.f32Sub b a) := by
    show ofNatBits (binary32.mul _ _) = ofNatBits (binary32.mul _ _)
    rw [hbits, hbits, Ieee754.Format.mul_self_congr
      (Ieee754.Format.abs_sub_comm (by decide) (by decide) a.bits_lt b.bits_lt)]
  have hieee : ∀ x y : F32, Same (Arith.f32Mul (Arith.f32Sub x y) (Arith.f32Sub x y))
      (Arith.ieee.f32Mul (Arith.ieee.f32Sub x y) (Arith.ieee.f32Sub x y)) := by
    intro x y
    have hsub := Arith.Conforms.f32Sub_same x y
    exact (hsub.mul hsub).trans (Arith.Conforms.f32Mul_same _ _)
  exact (hieee a b).trans (hsquare ▸ (hieee b a).symm)

end F32.Same

/-! ## The operands the other way around -/

/-- A result with the operands swapped: the same number, or the same two dimensions. -/
def Swapped : Except DistanceError F32 → Except DistanceError F32 → Prop
  | .ok x, .ok y => x.Same y
  | .error (.dimensionMismatch left right), .error e => e = .dimensionMismatch right left
  | _, _ => False

/-- A fold over pairs, and over the pairs swapped. -/
theorem foldl_swapped {β : Type} (R : β → β → Prop) {f : β → F32 × F32 → β} {z : β} (hz : R z z)
    (hstep : ∀ x y p, R x y → R (f x p) (f y p.swap)) (a b : List F32) :
    R ((a.zip b).foldl f z) ((b.zip a).foldl f z) := by
  rw [← List.zip_swap a b, List.foldl_map]
  exact List.foldl_rel hz fun p _ x y hxy => hstep x y p hxy

/-- A kernel that checks the dimensions first. -/
theorem swapped_of_dims {kernel : List F32 → List F32 → Except DistanceError F32}
    (value : List F32 → List F32 → F32)
    (hkernel : ∀ a b, kernel a b = (do checkDims a b; return value a b))
    (hvalue : ∀ a b, (value a b).Same (value b a)) (a b : List F32) :
    Swapped (kernel a b) (kernel b a) := by
  rw [hkernel, hkernel]
  by_cases hdims : a.length = b.length
  · simp [checkDims, hdims, Swapped, hvalue]
  · simp [checkDims, hdims, Ne.symm hdims, Swapped]

section Symmetry

variable [Arith]

/-- Euclidean distance. -/
def l2Distance (a b : List F32) : Except DistanceError F32 := do
  return Arith.f32Sqrt (← l2Squared a b)

variable [Arith.Conforms]

theorem l2Squared_swapped (a b : List F32) : Swapped (l2Squared a b) (l2Squared b a) := by
  refine swapped_of_dims (fun a b => (a.zip b).foldl (fun acc p =>
    Arith.f32Add acc (Arith.f32Mul (Arith.f32Sub p.1 p.2) (Arith.f32Sub p.1 p.2))) F32.zero)
    (fun _ _ => rfl) (fun a b => ?_) a b
  exact foldl_swapped F32.Same (.refl _) (fun x y p hxy => hxy.add (.square_sub p.1 p.2)) a b

theorem l2Distance_swapped (a b : List F32) : Swapped (l2Distance a b) (l2Distance b a) := by
  have hsquared := l2Squared_swapped a b
  unfold l2Distance
  rcases hx : l2Squared a b with e | x <;> rcases hy : l2Squared b a with e' | y <;>
    rw [hx, hy] at hsquared
  · exact hsquared
  · rcases e
    exact hsquared.elim
  · exact hsquared.elim
  · exact F32.Same.sqrt hsquared

theorem cosineDistance_swapped (a b : List F32) :
    Swapped (cosineDistance a b) (cosineDistance b a) := by
  refine swapped_of_dims (fun a b =>
    let sums := (a.zip b).foldl (fun (acc : F32 × F32 × F32) p =>
      (Arith.f32Add acc.1 (Arith.f32Mul p.1 p.2),
       Arith.f32Add acc.2.1 (Arith.f32Mul p.1 p.1),
       Arith.f32Add acc.2.2 (Arith.f32Mul p.2 p.2))) (F32.zero, F32.zero, F32.zero)
    let denom := Arith.f32Sqrt (Arith.f32Mul sums.2.1 sums.2.2)
    if denom.feq F32.zero then F32.nan else Arith.f32Sub F32.one (Arith.f32Div sums.1 denom))
    ?_ ?_ a b
  · intro a b
    unfold cosineDistance
    simp only
    generalize (a.zip b).foldl _ _ = sums
    split_ifs <;> rfl
  · intro a b
    -- the products change places with the operands, and the two norms with each other
    have hsums := foldl_swapped (fun (x y : F32 × F32 × F32) =>
        x.1.Same y.1 ∧ x.2.1.Same y.2.2 ∧ x.2.2.Same y.2.1)
      (f := fun acc p => (Arith.f32Add acc.1 (Arith.f32Mul p.1 p.2),
        Arith.f32Add acc.2.1 (Arith.f32Mul p.1 p.1), Arith.f32Add acc.2.2 (Arith.f32Mul p.2 p.2)))
      (z := (F32.zero, F32.zero, F32.zero)) ⟨.refl _, .refl _, .refl _⟩
      (fun x y p h => ⟨h.1.add (.mul_comm _ _), h.2.1.add (.refl _), h.2.2.add (.refl _)⟩) a b
    simp only
    generalize (a.zip b).foldl _ _ = sums, (b.zip a).foldl _ _ = sums' at hsums ⊢
    obtain ⟨hdot, hleft, hright⟩ := hsums
    have hdenom := ((hleft.mul hright).trans (.mul_comm _ _)).sqrt
    rw [hdenom.feq_eq]
    split_ifs
    · exact .refl _
    · exact (F32.Same.refl _).sub (hdot.div hdenom)

theorem negativeInnerProduct_swapped (a b : List F32) :
    Swapped (negativeInnerProduct a b) (negativeInnerProduct b a) := by
  refine swapped_of_dims (fun a b => (dot a b).neg) (fun a b => ?_) (fun a b => ?_) a b
  · unfold negativeInnerProduct innerProduct
    rcases checkDims a b with e | _ <;> rfl
  · exact (foldl_swapped F32.Same (.refl _) (fun x y p hxy => hxy.add (.mul_comm p.1 p.2)) a b).neg

theorem Metric.distance_swapped (metric : Metric) (a b : List F32) :
    Swapped (metric.distance a b) (metric.distance b a) := by
  rcases metric with _ | _ | _
  · exact l2Squared_swapped a b
  · exact cosineDistance_swapped a b
  · exact negativeInnerProduct_swapped a b

end Symmetry

/-! ## The sign of a squared distance -/

namespace F32

variable [Arith] [Arith.Conforms] {a b : F32}

theorem isNan_add_of_left (ha : a.isNan = true) (b : F32) : (Arith.f32Add a b).isNan = true := by
  have hieee : Arith.ieee.f32Add a b = F32.nan := by
    show ofNatBits (binary32.sum a.datum _) = F32.nan
    rw [datum_nan ha]
    rfl
  rw [(Arith.Conforms.f32Add_same a b).isNan_eq, hieee]
  rfl

theorem isNan_add_of_right (a : F32) (hb : b.isNan = true) : (Arith.f32Add a b).isNan = true := by
  have hieee : Arith.ieee.f32Add a b = F32.nan := by
    show ofNatBits (binary32.sum _ b.datum) = F32.nan
    rw [datum_nan hb, Ieee754.Format.sum_comm]
    rfl
  rw [(Arith.Conforms.f32Add_same a b).isNan_eq, hieee]
  rfl

theorem isNan_sqrt (ha : a.isNan = true) : (Arith.f32Sqrt a).isNan = true := by
  have hieee : Arith.ieee.f32Sqrt a = F32.nan := by
    show ofNatBits (binary32.sqrt _) = F32.nan
    unfold Ieee754.Format.sqrt
    rw [show binary32.decode a.bits.toNat = _ from datum_nan ha]
    rfl
  rw [(Arith.Conforms.f32Sqrt_same a).isNan_eq, hieee]
  rfl

theorem isNan_mul_self (ha : a.isNan = true) : (Arith.f32Mul a a).isNan = true := by
  have hieee : Arith.ieee.f32Mul a a = F32.nan := by
    show ofNatBits (binary32.mul _ _) = F32.nan
    unfold Ieee754.Format.mul
    rw [show binary32.decode a.bits.toNat = _ from datum_nan ha]
    rfl
  rw [(Arith.Conforms.f32Mul_same a a).isNan_eq, hieee]
  rfl

theorem Nonneg.add (ha : Nonneg a) (hb : Nonneg b) : Nonneg (Arith.f32Add a b) := by
  have hieee : Nonneg (Arith.ieee.f32Add a b) :=
    nonneg_ofNatBits (Ieee754.Format.add_le_infBits (by decide) (by decide) ha hb)
  rwa [(Arith.Conforms.f32Add_same a b).eq_of_number hieee.isNan_eq]

theorem nonneg_mul_self (ha : a.isNan = false) : Nonneg (Arith.f32Mul a a) := by
  have hieee : Nonneg (Arith.ieee.f32Mul a a) :=
    nonneg_ofNatBits (Ieee754.Format.mul_self_le_infBits (by decide) (datum_number ha))
  rwa [(Arith.Conforms.f32Mul_same a a).eq_of_number hieee.isNan_eq]

/-- The difference of finite values is a number. -/
theorem isNan_sub (ha : a.isFinite = true) (hb : b.isFinite = true) :
    (Arith.f32Sub a b).isNan = false := by
  have hfinite : ∀ x : F32, x.isFinite = true → x.mag < binary32.infBits :=
    fun x hx => of_decide_eq_true hx
  obtain ⟨u, low, hlow, hsub⟩ := Ieee754.Format.exists_sub (f := binary32) (s := a.isNeg)
    (t := b.isNeg) (by decide) (by decide) (hfinite a ha) (hfinite b hb)
  rw [← bits_eq, ← bits_eq] at hsub
  have hinf : binary32.infBits = 0x7F800000 := by decide
  have hsign : binary32.signBit = 0x80000000 := by decide
  have hbits : (Arith.ieee.f32Sub a b).bits.toNat = binary32.withSign u low := by
    rw [← hsub]
    exact bits_ofNatBits (Ieee754.Format.sum_lt (by decide) (by decide) _ _)
  rw [(Arith.Conforms.f32Sub_same a b).isNan_eq]
  unfold isNan mag
  rw [hbits]
  unfold Ieee754.Format.withSign
  exact decide_eq_false (by split_ifs <;> omega)

theorem sub_self (ha : a.isFinite = true) : Arith.f32Sub a a = zero := by
  have hbits : binary32.sub a.bits.toNat a.bits.toNat = 0 := by
    rw [bits_eq]
    exact Ieee754.Format.sub_self (by decide) (by decide) (of_decide_eq_true ha)
  have hieee : Arith.ieee.f32Sub a a = zero := by
    show ofNatBits (binary32.sub _ _) = zero
    rw [hbits]
    rfl
  have hsame := Arith.Conforms.f32Sub_same a a
  rw [hieee] at hsame
  exact hsame.eq_of_number rfl

/-- The square root keeps order. -/
theorem sqrt_mono (hab : a.bits.toNat ≤ b.bits.toNat) (hb : Nonneg b) :
    Nonneg (Arith.f32Sqrt b) ∧ (Arith.f32Sqrt a).bits.toNat ≤ (Arith.f32Sqrt b).bits.toNat := by
  have hroot : ∀ {x : F32}, Nonneg x → Nonneg (Arith.f32Sqrt x) ∧
      (Arith.f32Sqrt x).bits.toNat = binary32.sqrt x.bits.toNat := by
    intro x hx
    have hle : binary32.sqrt x.bits.toNat ≤ binary32.infBits :=
      Ieee754.Format.sqrt_le_infBits (by decide) (by decide) hx
    have hieee : Nonneg (Arith.ieee.f32Sqrt x) := nonneg_ofNatBits hle
    rw [(Arith.Conforms.f32Sqrt_same x).eq_of_number hieee.isNan_eq]
    exact ⟨hieee, bits_ofNatBits (hle.trans_lt (by decide))⟩
  obtain ⟨hnonneg, hrb⟩ := hroot hb
  rw [(hroot (hab.trans hb)).2, hrb]
  exact ⟨hnonneg, Ieee754.Format.sqrt_mono (by decide) (by decide) hab hb⟩

end F32

section Squares

variable [Arith] [Arith.Conforms]

/-- A squared distance is a number from zero up, or a NaN. -/
theorem l2Squared_magnitude {a b : List F32} {d : F32} (h : l2Squared a b = .ok d) :
    d.isNan = true ∨ d.Nonneg := by
  by_cases hdims : a.length = b.length
  · simp only [l2Squared, checkDims, hdims, ne_eq, not_true, if_false] at h
    cases h
    refine List.foldlRecOn (motive := fun d : F32 => d.isNan = true ∨ d.Nonneg) _ _
      (.inr (Nat.zero_le _)) fun acc hacc p _ => ?_
    rcases hacc with hnan | hacc
    · exact .inl (F32.isNan_add_of_left hnan _)
    · rcases hd : (Arith.f32Sub p.1 p.2).isNan with _ | _
      · exact .inr (hacc.add (F32.nonneg_mul_self hd))
      · exact .inl (F32.isNan_add_of_right _ (F32.isNan_mul_self hd))
  · simp [l2Squared, checkDims, hdims, bind, Except.bind] at h

/-- And a number where the components are. -/
theorem l2Squared_nonneg {a b : List F32} {d : F32} (ha : ∀ x ∈ a, x.isFinite = true)
    (hb : ∀ x ∈ b, x.isFinite = true) (h : l2Squared a b = .ok d) : d.Nonneg := by
  by_cases hdims : a.length = b.length
  · simp only [l2Squared, checkDims, hdims, ne_eq, not_true, if_false] at h
    cases h
    refine List.foldlRecOn (motive := F32.Nonneg) _ _ (Nat.zero_le _) fun acc hacc p hp => ?_
    obtain ⟨hleft, hright⟩ := List.of_mem_zip hp
    exact hacc.add (F32.nonneg_mul_self (F32.isNan_sub (ha _ hleft) (hb _ hright)))
  · simp [l2Squared, checkDims, hdims, bind, Except.bind] at h

/-- **A vector of numbers is at distance zero from itself**, exactly. -/
theorem l2Squared_self {a : List F32} (ha : ∀ x ∈ a, x.isFinite = true) :
    l2Squared a a = .ok F32.zero := by
  have hfold : (a.zip a).foldl (fun acc p =>
      Arith.f32Add acc (Arith.f32Mul (Arith.f32Sub p.1 p.2) (Arith.f32Sub p.1 p.2))) F32.zero =
        F32.zero := by
    refine List.foldlRecOn (motive := (· = F32.zero)) _ _ rfl fun acc hacc p hp => ?_
    have hsame : p.1 = p.2 := by
      rw [List.zip_eq_zipWith, List.zipWith_self] at hp
      obtain ⟨x, -, rfl⟩ := List.mem_map.mp hp
      rfl
    have hmul := Arith.Conforms.f32Mul_same F32.zero F32.zero
    have hadd := Arith.Conforms.f32Add_same F32.zero F32.zero
    rw [hacc, ← hsame, F32.sub_self (ha _ (List.of_mem_zip hp).1), hmul.eq_of_number (by decide +kernel),
      show Arith.ieee.f32Mul F32.zero F32.zero = F32.zero by decide +kernel,
      hadd.eq_of_number (by decide +kernel)]
    decide +kernel
  simp only [l2Squared, checkDims, ne_eq, not_true, if_false]
  exact congrArg Except.ok hfold

end Squares

/-! ## The operator classes -/

/-- The type an indexed column holds. -/
inductive VectorKind where
  | realArray
  | vector
  deriving DecidableEq, Repr

namespace VectorKind

/-- The code an operator class reports. -/
def code : VectorKind → Int
  | .realArray => 0
  | .vector => 1

/-- Inverse of `VectorKind.code`; `none` for an unknown code. -/
def fromCode (code : Int) : Option VectorKind :=
  if code = 0 then some .realArray
  else if code = 1 then some .vector
  else none

theorem fromCode_code (kind : VectorKind) : fromCode kind.code = some kind := by
  rcases kind with _ | _ <;> rfl

end VectorKind

def metricProcNum : Nat := 2
def kindProcNum : Nat := 3

/-- Why an operator class cannot be used. -/
inductive OpclassError where
  | declaresNo (describes : String) (procnum : Nat)
  | unknownMetric
  | unknownIndexedType
  | typeMismatch
  deriving DecidableEq, Repr

/-- An operator class: its ordering operator and that operator's strategy number, support function 1,
what the other support functions report, and whether it is declared for `real[]`. -/
structure OperatorClass where
  strategy : Nat
  orderBy : List F32 → List F32 → Except DistanceError F32
  rank : List F32 → List F32 → Except DistanceError F32
  /-- By number: not declared, or what a call returns. A call that returns null raises in Postgres. -/
  support : Nat → Option Int
  declaredForArray : Bool

namespace OperatorClass

/-- Call one of the descriptive support functions. -/
def supportCode (c : OperatorClass) (procnum : Nat) (describes : String) : Except OpclassError Int :=
  match c.support procnum with
  | none => .error (.declaresNo describes procnum)
  | some code => .ok code

/-- The metric the operator class selects. -/
def indexMetric (c : OperatorClass) : Except OpclassError Metric := do
  let code ← c.supportCode metricProcNum "metric"
  -- a code that is no `u8` is unknown too
  match if 0 ≤ code ∧ code < 256 then Metric.fromCode (UInt8.ofNat code.toNat) else none with
  | some metric => .ok metric
  | none => .error .unknownMetric

/-- The type the operator class is declared for. -/
def indexKind (c : OperatorClass) : Except OpclassError VectorKind := do
  let code ← c.supportCode kindProcNum "indexed type"
  match VectorKind.fromCode code with
  | none => .error .unknownIndexedType
  | some kind =>
    if c.declaredForArray ≠ decide (kind = .realArray) then .error .typeMismatch else .ok kind

/-- Support functions 2 and 3 of a class this extension ships. -/
def reports (metric : Metric) (kind : VectorKind) : Nat → Option Int
  | 2 => some metric.code.toNat
  | 3 => some kind.code
  | _ => none

variable [Arith]

/-- `real_array_l2_ops` -/
def realArrayL2Ops : OperatorClass where
  strategy := 1
  orderBy := l2Distance
  rank := l2Squared
  support := reports .l2 .realArray
  declaredForArray := true

/-- `brindle_vector_l2_ops` -/
def vectorL2Ops : OperatorClass where
  strategy := 1
  orderBy := l2Distance
  rank := l2Squared
  support := reports .l2 .vector
  declaredForArray := false

/-- `brindle_vector_ip_ops` -/
def vectorIpOps : OperatorClass where
  strategy := 2
  orderBy := negativeInnerProduct
  rank := negativeInnerProduct
  support := reports .innerProduct .vector
  declaredForArray := false

/-- `brindle_vector_cosine_ops` -/
def vectorCosineOps : OperatorClass where
  strategy := 3
  orderBy := cosineDistance
  rank := cosineDistance
  support := reports .cosine .vector
  declaredForArray := false

/-- The operator classes shipped. -/
def shipped : List OperatorClass := [realArrayL2Ops, vectorL2Ops, vectorIpOps, vectorCosineOps]

/-- A shipped class has a metric and a type, ranks by the metric's distance, and orders by it or, for
L2, by its square root. -/
theorem shipped_consistent : ∀ c ∈ shipped, ∃ metric kind, c.indexMetric = .ok metric ∧
    c.indexKind = .ok kind ∧ c.rank = metric.distance ∧
      (metric = .l2 ∧ c.orderBy = l2Distance ∨ metric ≠ .l2 ∧ c.orderBy = metric.distance) := by
  have hreports : ∀ (c : OperatorClass) (metric : Metric) (kind : VectorKind),
      c.support = reports metric kind → c.declaredForArray = decide (kind = .realArray) →
      c.indexMetric = .ok metric ∧ c.indexKind = .ok kind := by
    intro c metric kind hsupport harray
    have hmetric : c.supportCode metricProcNum "metric" = .ok (metric.code.toNat : Int) := by
      simp [supportCode, hsupport, reports, metricProcNum]
    have hkind : c.supportCode kindProcNum "indexed type" = .ok kind.code := by
      simp [supportCode, hsupport, reports, kindProcNum]
    have hcode : (0 : Int) ≤ metric.code.toNat ∧ (metric.code.toNat : Int) < 256 :=
      ⟨by positivity, by exact_mod_cast metric.code.toNat_lt⟩
    constructor
    · simp [indexMetric, hmetric, hcode, bind, Except.bind, Metric.fromCode_code]
    · simp [indexKind, hkind, harray, bind, Except.bind, VectorKind.fromCode_code]
  intro c hc
  simp only [shipped, List.mem_cons, List.not_mem_nil, or_false] at hc
  rcases hc with rfl | rfl | rfl | rfl
  · exact ⟨.l2, .realArray, (hreports _ _ _ rfl rfl).1, (hreports _ _ _ rfl rfl).2, rfl, .inl ⟨rfl, rfl⟩⟩
  · exact ⟨.l2, .vector, (hreports _ _ _ rfl rfl).1, (hreports _ _ _ rfl rfl).2, rfl, .inl ⟨rfl, rfl⟩⟩
  · exact ⟨.innerProduct, .vector, (hreports _ _ _ rfl rfl).1, (hreports _ _ _ rfl rfl).2, rfl,
      .inr ⟨nofun, rfl⟩⟩
  · exact ⟨.cosine, .vector, (hreports _ _ _ rfl rfl).1, (hreports _ _ _ rfl rfl).2, rfl,
      .inr ⟨nofun, rfl⟩⟩

/-- **The operators are their own commutators.** The support functions of a shipped class agree, and
swapping the operands of its ordering operator, or of its ranking function, changes neither a number
nor, of what is undefined, that it is. -/
theorem shipped_swapped [Arith.Conforms] : ∀ c ∈ shipped,
    (∃ metric kind, c.indexMetric = .ok metric ∧ c.indexKind = .ok kind ∧ c.rank = metric.distance ∧
      (metric = .l2 ∧ c.orderBy = l2Distance ∨ metric ≠ .l2 ∧ c.orderBy = metric.distance)) ∧
    ∀ a b, Swapped (c.orderBy a b) (c.orderBy b a) ∧ Swapped (c.rank a b) (c.rank b a) := by
  intro c hc
  refine ⟨shipped_consistent c hc, fun a b => ?_⟩
  obtain ⟨metric, kind, -, -, hrank, horder⟩ := shipped_consistent c hc
  rw [hrank]
  rcases horder with ⟨-, horder⟩ | ⟨-, horder⟩ <;> rw [horder]
  · exact ⟨l2Distance_swapped a b, metric.distance_swapped a b⟩
  · exact ⟨metric.distance_swapped a b, metric.distance_swapped a b⟩

end OperatorClass

open OperatorClass in
/-- Two vectors whose cosine rounds, and whose squared distance overflows. -/
theorem shipped_swapped_sample :
    Swapped (@cosineDistance Arith.ieee [F32.one, ⟨0x7F7FFFFF⟩] [⟨0xFF7FFFFF⟩, F32.one])
        (@cosineDistance Arith.ieee [⟨0xFF7FFFFF⟩, F32.one] [F32.one, ⟨0x7F7FFFFF⟩]) ∧
      Swapped (@l2Distance Arith.ieee [F32.one, ⟨0x7F7FFFFF⟩] [⟨0xFF7FFFFF⟩, F32.one])
        (@l2Distance Arith.ieee [⟨0xFF7FFFFF⟩, F32.one] [F32.one, ⟨0x7F7FFFFF⟩]) :=
  ⟨((@shipped_swapped Arith.ieee _ (@vectorCosineOps Arith.ieee) (by simp [shipped])).2 _ _).1,
    ((@shipped_swapped Arith.ieee _ (@vectorL2Ops Arith.ieee) (by simp [shipped])).2 _ _).1⟩

end Brindle
