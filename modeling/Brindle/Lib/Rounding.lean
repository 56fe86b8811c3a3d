/-
# Brindle.Lib.Rounding — rounding keeps order, and keeps what needs no rounding.

Below the sign bit, the bit patterns of an interchange format run in the order of their values, in
whole units of the last place of a subnormal: `units` reads a pattern off in those units. A positive
rational has one exponent at which its significand fits, `roundRat` finds it, and rounds the
significand there to nearest, ties to even. Both steps keep order, so rounding does, and a value that
has a pattern is rounded to that pattern.
-/
import Brindle.Lib.Ieee754
import Mathlib.Algebra.Order.Floor.Semifield
import Mathlib.Algebra.Order.Field.Power
import Mathlib.Data.Rat.Floor
import Mathlib.Tactic.Positivity
import Mathlib.Tactic.Linarith
import Mathlib.Tactic.Ring
import Mathlib.Tactic.FieldSimp
import Mathlib.Tactic.NormNum

namespace Ieee754

/-! ## To nearest, ties to even -/

/-- The integer nearest to `x`, the even one of two. -/
def roundHalfEven (x : ℚ) : Nat :=
  if 1 < 2 * (x - ⌊x⌋₊) ∨ (2 * (x - ⌊x⌋₊) = 1 ∧ ⌊x⌋₊ % 2 = 1) then ⌊x⌋₊ + 1 else ⌊x⌋₊

theorem roundHalfEven_natCast (n : Nat) : roundHalfEven n = n := by
  simp [roundHalfEven]

theorem floor_le_roundHalfEven (x : ℚ) : ⌊x⌋₊ ≤ roundHalfEven x := by
  unfold roundHalfEven
  split_ifs
  · exact Nat.le_succ _
  · exact le_rfl

theorem roundHalfEven_le (x : ℚ) : roundHalfEven x ≤ ⌊x⌋₊ + 1 := by
  unfold roundHalfEven
  split_ifs
  · exact le_rfl
  · exact Nat.le_succ _

theorem roundHalfEven_mono {x y : ℚ} (hxy : x ≤ y) : roundHalfEven x ≤ roundHalfEven y := by
  rcases (Nat.floor_mono hxy).lt_or_eq with hlt | heq
  · exact (roundHalfEven_le x).trans (hlt.trans_le (floor_le_roundHalfEven y))
  · -- between the same two integers, whatever takes `x` up takes `y` up
    unfold roundHalfEven
    rw [heq]
    split_ifs with hx hy hy
    · exact le_rfl
    · refine absurd ?_ hy
      rcases hx with hx | ⟨hx, hodd⟩
      · exact .inl (by linarith)
      · rcases hxy.lt_or_eq with hlt | rfl
        · exact .inl (by linarith)
        · exact .inr ⟨hx, hodd⟩
    · exact Nat.le_succ _
    · exact le_rfl

/-- The quotient of two naturals, rounded by its remainder. -/
theorem roundHalfEven_div (a : Nat) {b : Nat} (hb : b ≠ 0) :
    roundHalfEven ((a : ℚ) / b) =
      if 2 * (a % b) > b || (2 * (a % b) == b && a / b % 2 == 1) then a / b + 1 else a / b := by
  have hfloor : ⌊(a : ℚ) / b⌋₊ = a / b := Nat.floor_div_eq_div a b
  have hb' : (b : ℚ) ≠ 0 := Nat.cast_ne_zero.mpr hb
  have hpos : (0 : ℚ) < b := Nat.cast_pos.mpr (Nat.pos_of_ne_zero hb)
  have hrest : 2 * ((a : ℚ) / b - (a / b : Nat)) = (2 * (a % b) : Nat) / b := by
    have hsplit : (a : ℚ) = b * (a / b : Nat) + (a % b : Nat) := by
      exact_mod_cast (Nat.div_add_mod a b).symm
    rw [eq_div_iff hb']
    push_cast
    field_simp
    linarith
  have hup : (1 < 2 * ((a : ℚ) / b - (a / b : Nat))) ↔ b < 2 * (a % b) := by
    rw [hrest, lt_div_iff₀ hpos, one_mul, Nat.cast_lt]
  have htie : (2 * ((a : ℚ) / b - (a / b : Nat)) = 1) ↔ 2 * (a % b) = b := by
    rw [hrest, div_eq_iff hb', one_mul, Nat.cast_inj]
  unfold roundHalfEven
  rw [hfloor]
  simp only [hup, htie, gt_iff_lt, Bool.or_eq_true, decide_eq_true_eq, Bool.and_eq_true, beq_iff_eq]

namespace Format

variable (f : Format)

/-! ## Patterns in order -/

/-- The exponent field of a pattern below the sign bit. -/
def field (bits : Nat) : Nat := bits / 2 ^ (f.prec - 1)

/-- The significand, with the hidden bit of a normal number. -/
def significand (bits : Nat) : Nat :=
  bits % 2 ^ (f.prec - 1) + if f.field bits = 0 then 0 else 2 ^ (f.prec - 1)

/-- The value of a pattern, in units of the last place of a subnormal. -/
def units (bits : Nat) : Nat := f.significand bits * 2 ^ (f.field bits - 1)

variable {f}

theorem significand_lt (hprec : 0 < f.prec) (bits : Nat) : f.significand bits < 2 ^ f.prec := by
  have hlt : bits % 2 ^ (f.prec - 1) < 2 ^ (f.prec - 1) := Nat.mod_lt _ (Nat.two_pow_pos _)
  have hdouble : 2 ^ f.prec = 2 ^ (f.prec - 1) + 2 ^ (f.prec - 1) := by
    rw [← Nat.two_mul, ← Nat.pow_succ', Nat.succ_eq_add_one, Nat.sub_add_cancel hprec]
  unfold significand
  split_ifs <;> omega

/-- A pattern is its field less one, and its significand. -/
theorem field_significand (bits : Nat) :
    (f.field bits - 1) * 2 ^ (f.prec - 1) + f.significand bits = bits := by
  have hsplit := Nat.div_add_mod' bits (2 ^ (f.prec - 1))
  unfold significand
  split_ifs with hzero
  · rw [hzero]
    unfold field at hzero
    rw [hzero] at hsplit
    omega
  · have hstep : f.field bits * 2 ^ (f.prec - 1) =
        (f.field bits - 1) * 2 ^ (f.prec - 1) + 2 ^ (f.prec - 1) := by
      rw [← Nat.succ_mul, Nat.succ_eq_add_one, Nat.sub_add_cancel (Nat.pos_of_ne_zero hzero)]
    unfold field at hstep ⊢
    omega

/-- Patterns run in the order of their values. -/
theorem units_strictMono : StrictMono f.units := by
  refine strictMono_nat_of_lt_succ fun n => ?_
  have hpos := Nat.two_pow_pos (f.prec - 1)
  unfold units significand field
  generalize hw : 2 ^ (f.prec - 1) = w at hpos ⊢
  rcases Nat.lt_or_ge (n % w + 1) w with hin | hout
  · -- within one field the significand goes up by one
    have hdiv : (n + 1) / w = n / w := by
      rw [Nat.succ_div_of_not_dvd]
      intro hdvd
      have hmod : (n + 1) % w = n % w + 1 := by
        rw [Nat.add_mod, Nat.mod_eq_of_lt (a := 1) (by omega), Nat.mod_eq_of_lt hin]
      rw [Nat.mod_eq_zero_of_dvd hdvd] at hmod
      omega
    have hmod : (n + 1) % w = n % w + 1 := by
      have h1 := Nat.div_add_mod n w
      have h2 := Nat.div_add_mod (n + 1) w
      rw [hdiv] at h2
      omega
    rw [hdiv, hmod]
    exact Nat.mul_lt_mul_of_pos_right (by omega) (Nat.two_pow_pos _)
  · -- the next field starts where this one ends
    have hlast : n % w = w - 1 := by
      have hlt := Nat.mod_lt n hpos
      omega
    have hnext : n + 1 = w * (n / w + 1) := by
      have h1 := Nat.div_add_mod n w
      rw [Nat.mul_succ]
      omega
    have hdiv : (n + 1) / w = n / w + 1 := by
      rw [hnext, Nat.mul_div_cancel_left _ hpos]
    have hmod : (n + 1) % w = 0 := by
      rw [hnext, Nat.mul_mod_right]
    rw [hdiv, hmod, hlast, if_neg (Nat.succ_ne_zero _), Nat.zero_add, Nat.add_sub_cancel]
    rcases Nat.eq_zero_or_pos (n / w) with hzero | hfield
    · rw [hzero]
      simp only [if_true, Nat.zero_sub, Nat.pow_zero]
      omega
    · rw [if_neg (by omega)]
      have hstep : 2 ^ (n / w) = 2 * 2 ^ (n / w - 1) := by
        rw [← Nat.pow_succ', Nat.succ_eq_add_one, Nat.sub_add_cancel hfield]
      rw [hstep, Nat.mul_left_comm, ← Nat.mul_assoc]
      exact Nat.mul_lt_mul_of_pos_right (by omega) (Nat.two_pow_pos _)

theorem significand_ne_zero {bits : Nat} (hpos : 0 < bits) : f.significand bits ≠ 0 := by
  intro hzero
  have hunits : f.units 0 < f.units bits := units_strictMono hpos
  rw [units, units, hzero, Nat.zero_mul] at hunits
  omega

theorem infBits_lt_signBit (hprec : 0 < f.prec) (hexp : 0 < f.expBits) : f.infBits < f.signBit := by
  have hsplit : f.prec + f.expBits - 1 = f.expBits + (f.prec - 1) := by omega
  unfold infBits signBit
  rw [hsplit, Nat.pow_add]
  exact Nat.mul_lt_mul_of_pos_right (Nat.sub_lt (Nat.two_pow_pos _) Nat.one_pos)
    (Nat.two_pow_pos _)

/-- What a finite pattern denotes. -/
theorem decode_withSign (hprec : 0 < f.prec) (hexp : 0 < f.expBits) (neg : Bool) {bits : Nat}
    (hbits : bits < f.infBits) : f.decode (f.withSign neg bits) =
      .finite neg (f.significand bits) (f.minExp + (f.field bits - 1 : Nat)) := by
  have hsign : f.signBit = 2 ^ f.expBits * 2 ^ (f.prec - 1) := by
    rw [← Nat.pow_add, signBit]
    congr 1
    omega
  have hlt : bits < f.signBit := hbits.trans (infBits_lt_signBit hprec hexp)
  have hw := Nat.two_pow_pos (f.prec - 1)
  have hfield : f.field bits < 2 ^ f.expBits - 1 := Nat.div_lt_of_lt_mul (by
    rw [Nat.mul_comm]
    exact hbits)
  have hhead : f.withSign neg bits / f.signBit = if neg then 1 else 0 := by
    unfold withSign
    cases neg with
    | false => exact Nat.div_eq_of_lt hlt
    | true =>
      rw [if_pos rfl, if_pos rfl, Nat.add_div_left _ (show 0 < f.signBit from Nat.two_pow_pos _),
        Nat.div_eq_of_lt hlt]
  have hfrac : f.withSign neg bits % 2 ^ (f.prec - 1) = bits % 2 ^ (f.prec - 1) := by
    unfold withSign
    cases neg with
    | false => rfl
    | true => rw [if_pos rfl, hsign, Nat.add_comm, Nat.add_mul_mod_self_right]
  have hmid : f.withSign neg bits / 2 ^ (f.prec - 1) % 2 ^ f.expBits = f.field bits := by
    have hsmall : f.field bits % 2 ^ f.expBits = f.field bits := Nat.mod_eq_of_lt (by omega)
    unfold withSign
    cases neg with
    | false => exact hsmall
    | true =>
      rw [if_pos rfl, hsign, Nat.add_comm, Nat.add_mul_div_right _ _ hw, Nat.add_mod_right]
      exact hsmall
  unfold decode
  simp only [hhead, hfrac, hmid]
  rw [if_neg (by omega)]
  have hneg : ((if neg then 1 else 0) % 2 == 1) = neg := by cases neg <;> rfl
  rw [hneg]
  unfold significand
  split_ifs with hzero
  · simp [hzero]
  · congr 1
    push_cast [Nat.cast_sub (Nat.one_le_iff_ne_zero.mpr hzero)]
    ring

theorem decode_inf (hprec : 1 < f.prec) (hexp : 0 < f.expBits) (neg : Bool) :
    f.decode (f.withSign neg f.infBits) = .inf neg := by
  have hlt := infBits_lt_signBit (f := f) (by omega) hexp
  have hsign : f.signBit = 2 ^ f.expBits * 2 ^ (f.prec - 1) := by
    rw [← Nat.pow_add, signBit]
    congr 1
    omega
  have hw := Nat.two_pow_pos (f.prec - 1)
  have hall : 2 ^ f.expBits - 1 < 2 ^ f.expBits := Nat.sub_lt (Nat.two_pow_pos _) Nat.one_pos
  cases neg with
  | false =>
    have hhead : f.infBits / f.signBit = 0 := Nat.div_eq_of_lt hlt
    have hfrac : f.infBits % 2 ^ (f.prec - 1) = 0 := Nat.mul_mod_left ..
    have hmid : f.infBits / 2 ^ (f.prec - 1) % 2 ^ f.expBits = 2 ^ f.expBits - 1 := by
      rw [infBits, Nat.mul_div_cancel _ hw, Nat.mod_eq_of_lt hall]
    simp [decode, withSign, hhead, hfrac, hmid]
  | true =>
    have hhead : (f.signBit + f.infBits) / f.signBit = 1 := by
      rw [Nat.add_div_left _ (show 0 < f.signBit from Nat.two_pow_pos _), Nat.div_eq_of_lt hlt]
    have hfrac : (f.signBit + f.infBits) % 2 ^ (f.prec - 1) = 0 := by
      rw [hsign, infBits, ← Nat.add_mul, Nat.mul_mod_left]
    have hmid : (f.signBit + f.infBits) / 2 ^ (f.prec - 1) % 2 ^ f.expBits = 2 ^ f.expBits - 1 := by
      rw [hsign, infBits, ← Nat.add_mul, Nat.mul_div_cancel _ hw, Nat.add_mod_left,
        Nat.mod_eq_of_lt hall]
    simp [decode, withSign, hhead, hfrac, hmid]

/-! ## Where a significand is placed -/

/-- The value of a pattern. -/
theorem value_eq (bits : Nat) : (f.significand bits : ℚ) *
    2 ^ (f.minExp + (f.field bits - 1 : Nat)) = f.units bits * 2 ^ f.minExp := by
  rw [zpow_add₀ two_ne_zero, zpow_natCast, units]
  push_cast
  ring

/-- At exponent `e` the significand of `x` fits, and has all its bits unless `e` is the least. -/
structure Placed (f : Format) (e : Int) (x : ℚ) : Prop where
  minExp_le : f.minExp ≤ e
  lt : x * 2 ^ (-e) < 2 ^ f.prec
  full : e = f.minExp ∨ 2 ^ (f.prec - 1) ≤ x * 2 ^ (-e)

/-- The pattern of `x` rounded at exponent `e`. -/
def roundedAt (f : Format) (e : Int) (x : ℚ) : Nat :=
  (e - f.minExp).toNat * 2 ^ (f.prec - 1) + roundHalfEven (x * 2 ^ (-e))

theorem Placed.le_of_le {e d : Int} {x y : ℚ} (hprec : 0 < f.prec) (hx : Placed f e x)
    (hy : Placed f d y) (hxy : x ≤ y) : e ≤ d := by
  by_contra hlt
  rw [not_le] at hlt
  have hfull : (2 : ℚ) ^ (f.prec - 1) ≤ x * 2 ^ (-e) := by
    rcases hx.full with rfl | hfull
    · exact absurd hy.minExp_le (not_le.mpr hlt)
    · exact hfull
  have hshift : x * 2 ^ (-e) * 2 ≤ y * 2 ^ (-d) := by
    have hpow : (2 : ℚ) ^ (-e) * 2 ≤ 2 ^ (-d) := by
      rw [← zpow_add_one₀ two_ne_zero]
      exact zpow_le_zpow_right₀ one_le_two (by omega)
    have hnonneg : 0 ≤ x := by
      by_contra hneg
      have hpos : (0 : ℚ) < 2 ^ (-e) := by positivity
      have hbad := mul_neg_of_neg_of_pos (not_le.mp hneg) hpos
      have hpos' : (0 : ℚ) < 2 ^ (f.prec - 1) := by positivity
      linarith
    calc x * 2 ^ (-e) * 2 = x * (2 ^ (-e) * 2) := by ring
      _ ≤ y * 2 ^ (-d) := mul_le_mul hxy hpow (by positivity) (hnonneg.trans hxy)
  have hdouble : (2 : ℚ) ^ f.prec = 2 ^ (f.prec - 1) * 2 := by
    rw [← pow_succ, Nat.sub_add_cancel hprec]
  have hlt' := hy.lt
  linarith

/-- A rounded significand stays below the next exponent's. -/
theorem Placed.roundHalfEven_le {e : Int} {x : ℚ} (hx : Placed f e x) :
    roundHalfEven (x * 2 ^ (-e)) ≤ 2 ^ f.prec := by
  have hlt : x * 2 ^ (-e) ≤ ((2 ^ f.prec : Nat) : ℚ) := by
    push_cast
    exact hx.lt.le
  exact (roundHalfEven_mono hlt).trans_eq (roundHalfEven_natCast _)

theorem roundedAt_mono {e d : Int} {x y : ℚ} (hprec : 0 < f.prec) (hx : Placed f e x)
    (hy : Placed f d y) (hxy : x ≤ y) : f.roundedAt e x ≤ f.roundedAt d y := by
  rcases (hx.le_of_le hprec hy hxy).lt_or_eq with hlt | rfl
  · -- the lower exponent's significands all come before the higher one's
    have hfull : (2 : ℚ) ^ (f.prec - 1) ≤ y * 2 ^ (-d) := by
      rcases hy.full with rfl | hfull
      · exact absurd hx.minExp_le (not_le.mpr hlt)
      · exact hfull
    have hq : 2 ^ (f.prec - 1) ≤ roundHalfEven (y * 2 ^ (-d)) := by
      have hcast : ((2 ^ (f.prec - 1) : Nat) : ℚ) ≤ y * 2 ^ (-d) := by
        push_cast
        exact hfull
      exact (roundHalfEven_natCast _).symm.trans_le (roundHalfEven_mono hcast)
    have hr := hx.roundHalfEven_le
    have hdouble : 2 ^ f.prec = 2 * 2 ^ (f.prec - 1) := by
      rw [← Nat.pow_succ', Nat.succ_eq_add_one, Nat.sub_add_cancel hprec]
    have hle := hx.minExp_le
    have hstep : (e - f.minExp).toNat + 1 ≤ (d - f.minExp).toNat := by omega
    have hmul := Nat.mul_le_mul_right (2 ^ (f.prec - 1)) hstep
    rw [Nat.succ_mul] at hmul
    unfold roundedAt
    omega
  · refine Nat.add_le_add_left (roundHalfEven_mono ?_) _
    exact mul_le_mul_of_nonneg_right hxy (by positivity)

/-- A pattern's value is placed at the pattern's own exponent. -/
theorem placed_units (hprec : 0 < f.prec) (bits : Nat) :
    Placed f (f.minExp + (f.field bits - 1 : Nat)) (f.units bits * 2 ^ f.minExp) := by
  have hsig : (f.units bits * 2 ^ f.minExp : ℚ) *
      2 ^ (-(f.minExp + (f.field bits - 1 : Nat))) = f.significand bits := by
    rw [← value_eq, mul_assoc, ← zpow_add₀ two_ne_zero, add_neg_cancel, zpow_zero, mul_one]
  refine ⟨by omega, ?_, ?_⟩
  · rw [hsig]
    exact_mod_cast significand_lt hprec bits
  · rw [hsig]
    rcases Nat.eq_zero_or_pos (f.field bits - 1) with hzero | hpos
    · left
      rw [hzero]
      simp
    · right
      have hge : 2 ^ (f.prec - 1) ≤ f.significand bits := by
        unfold significand
        rw [if_neg (by omega)]
        omega
      exact_mod_cast hge

theorem roundedAt_units (bits : Nat) :
    f.roundedAt (f.minExp + (f.field bits - 1 : Nat)) (f.units bits * 2 ^ f.minExp) = bits := by
  have hsig : (f.units bits * 2 ^ f.minExp : ℚ) *
      2 ^ (-(f.minExp + (f.field bits - 1 : Nat))) = f.significand bits := by
    rw [← value_eq, mul_assoc, ← zpow_add₀ two_ne_zero, add_neg_cancel, zpow_zero, mul_one]
  unfold roundedAt
  rw [hsig, roundHalfEven_natCast]
  have hexp : (f.minExp + (f.field bits - 1 : Nat) - f.minExp).toNat = f.field bits - 1 := by omega
  rw [hexp, field_significand]

/-! ## Rounding -/

theorem scaled (num den : Nat) (e : Int) :
    ((num * 2 ^ (-e).toNat : Nat) : ℚ) / (den * 2 ^ e.toNat : Nat) = num / den * 2 ^ (-e) := by
  have hpow : (2 : ℚ) ^ (-e) = 2 ^ (-e).toNat / 2 ^ e.toNat := by
    rw [eq_div_iff (by positivity), ← zpow_natCast, ← zpow_natCast, ← zpow_add₀ two_ne_zero]
    congr 1
    omega
  rw [hpow]
  push_cast
  rw [div_mul_div_comm]

/-- The logarithms place a quotient within a factor of four: below. -/
theorem two_zpow_log2_lt_div {num den : Nat} (hnum : num ≠ 0) (hden : den ≠ 0) :
    (2 : ℚ) ^ ((Nat.log2 num : Int) - Nat.log2 den - 1) < num / den := by
  have hden_pos : (0 : ℚ) < den := Nat.cast_pos.mpr (Nat.pos_of_ne_zero hden)
  have hn : (2 : ℚ) ^ (Nat.log2 num) ≤ num := by exact_mod_cast Nat.log2_self_le hnum
  have hd : (den : ℚ) < 2 ^ (Nat.log2 den + 1) := by exact_mod_cast Nat.lt_log2_self
  rw [lt_div_iff₀ hden_pos]
  calc (2 : ℚ) ^ ((Nat.log2 num : Int) - Nat.log2 den - 1) * den
      < 2 ^ ((Nat.log2 num : Int) - Nat.log2 den - 1) * 2 ^ (Nat.log2 den + 1) := by
        gcongr
    _ = 2 ^ (Nat.log2 num) := by
        rw [← zpow_natCast, ← zpow_add₀ two_ne_zero, ← zpow_natCast]
        congr 1
        push_cast
        ring
    _ ≤ num := hn

/-- And above. -/
theorem div_lt_two_zpow_log2 (num : Nat) {den : Nat} (hden : den ≠ 0) :
    (num : ℚ) / den < 2 ^ ((Nat.log2 num : Int) - Nat.log2 den + 1) := by
  have hden_pos : (0 : ℚ) < den := Nat.cast_pos.mpr (Nat.pos_of_ne_zero hden)
  have hn : (num : ℚ) < 2 ^ (Nat.log2 num + 1) := by exact_mod_cast Nat.lt_log2_self
  have hd : (2 : ℚ) ^ (Nat.log2 den) ≤ den := by exact_mod_cast Nat.log2_self_le hden
  rw [div_lt_iff₀ hden_pos]
  calc (num : ℚ) < 2 ^ (Nat.log2 num + 1) := hn
    _ = 2 ^ ((Nat.log2 num : Int) - Nat.log2 den + 1) * 2 ^ (Nat.log2 den) := by
        rw [← zpow_natCast, ← zpow_natCast, ← zpow_add₀ two_ne_zero]
        congr 1
        push_cast
        ring
    _ ≤ 2 ^ ((Nat.log2 num : Int) - Nat.log2 den + 1) * den := by gcongr

/-- The exponent found is where the significand is placed, and the result is rounded there. -/
theorem roundRat_placed (hprec : 0 < f.prec) (num : Nat) {den : Nat} (hden : den ≠ 0) :
    ∃ e, Placed f e (num / den) ∧
      f.roundRat false num den = min (f.roundedAt e (num / den)) f.infBits := by
  by_cases hnum : num = 0
  · refine ⟨f.minExp, ⟨le_rfl, ?_, .inl rfl⟩, ?_⟩
    · rw [hnum]
      simp
    · have hzero : roundHalfEven 0 = 0 := by exact_mod_cast roundHalfEven_natCast 0
      simp [roundRat, hnum, withSign, roundedAt, hzero]
  set x : ℚ := num / den with hx
  have hlow : (2 : ℚ) ^ ((Nat.log2 num : Int) - Nat.log2 den - 1) < x :=
    two_zpow_log2_lt_div hnum hden
  have hhigh : x < (2 : ℚ) ^ ((Nat.log2 num : Int) - Nat.log2 den + 1) :=
    div_lt_two_zpow_log2 num hden
  set guess : Int := max f.minExp ((Nat.log2 num : Int) - Nat.log2 den - f.prec) with hguess
  set e : Int := if num * 2 ^ (-guess).toNat / (den * 2 ^ guess.toNat) < 2 ^ f.prec then guess
    else guess + 1 with he
  have hround : f.roundRat false num den = min (f.roundedAt e x) f.infBits := by
    have hscale : den * 2 ^ e.toNat ≠ 0 := Nat.mul_ne_zero hden (Nat.two_pow_pos _).ne'
    have hdiv := roundHalfEven_div (num * 2 ^ (-e).toNat) hscale
    rw [scaled] at hdiv
    unfold roundRat roundedAt
    rw [if_neg hnum, hdiv]
    rfl
  refine ⟨e, ?_, hround⟩
  have hfloor : (num * 2 ^ (-guess).toNat / (den * 2 ^ guess.toNat) < 2 ^ f.prec) ↔
      x * 2 ^ (-guess) < 2 ^ f.prec := by
    rw [hx, ← scaled, ← Nat.floor_div_eq_div (K := ℚ), Nat.floor_lt (by positivity)]
    push_cast
    rfl
  have hprec_pow : (2 : ℚ) ^ f.prec = 2 ^ (f.prec - 1) * 2 := by
    rw [← pow_succ, Nat.sub_add_cancel hprec]
  by_cases hfits : x * 2 ^ (-guess) < 2 ^ f.prec
  · rw [he, if_pos (hfloor.mpr hfits)]
    refine ⟨le_max_left _ _, hfits, ?_⟩
    rcases max_choice f.minExp ((Nat.log2 num : Int) - Nat.log2 den - f.prec) with hmin | hmax
    · exact .inl (hguess.trans hmin)
    · right
      have hmax' : guess = (Nat.log2 num : Int) - Nat.log2 den - f.prec := hguess.trans hmax
      have hpow : (2 : ℚ) ^ (f.prec - 1) =
          2 ^ ((Nat.log2 num : Int) - Nat.log2 den - 1) * 2 ^ (-guess) := by
        rw [← zpow_add₀ two_ne_zero, ← zpow_natCast]
        congr 1
        omega
      rw [hpow]
      exact mul_le_mul_of_nonneg_right hlow.le (by positivity)
  · -- one bit too many: the exponent goes up, and the significand is halved
    rw [he, if_neg (fun hlt => hfits (hfloor.mp hlt))]
    have hhalf : x * 2 ^ (-guess) = x * 2 ^ (-(guess + 1)) * 2 := by
      rw [mul_assoc, ← zpow_add_one₀ two_ne_zero]
      congr 2
      ring
    refine ⟨(le_max_left _ _).trans (Int.le_add_one le_rfl), ?_, .inr ?_⟩
    · have hge : (Nat.log2 num : Int) - Nat.log2 den - f.prec ≤ guess := le_max_right _ _
      calc x * 2 ^ (-(guess + 1))
          < 2 ^ ((Nat.log2 num : Int) - Nat.log2 den + 1) * 2 ^ (-(guess + 1)) := by gcongr
        _ = 2 ^ ((Nat.log2 num : Int) - Nat.log2 den - guess) := by
          rw [← zpow_add₀ two_ne_zero]
          congr 1
          ring
        _ ≤ 2 ^ f.prec := by
          rw [← zpow_natCast]
          exact zpow_le_zpow_right₀ one_le_two (by omega)
    · rw [hhalf] at hfits
      rw [not_lt] at hfits
      linarith

/-- **Rounding keeps order.** -/
theorem roundRat_mono (hprec : 0 < f.prec) {num den num' den' : Nat} (hden : den ≠ 0)
    (hden' : den' ≠ 0) (hle : (num : ℚ) / den ≤ num' / den') :
    f.roundRat false num den ≤ f.roundRat false num' den' := by
  obtain ⟨e, hplaced, hround⟩ := roundRat_placed hprec num hden
  obtain ⟨d, hplaced', hround'⟩ := roundRat_placed hprec num' hden'
  rw [hround, hround']
  exact min_le_min_right _ (roundedAt_mono hprec hplaced hplaced' hle)

/-- **A value that has a pattern is rounded to it.** -/
theorem roundRat_exact (hprec : 0 < f.prec) {num den : Nat} (hden : den ≠ 0) {bits : Nat}
    (hbits : bits < f.infBits) (hvalue : (num : ℚ) / den = f.units bits * 2 ^ f.minExp) :
    f.roundRat false num den = bits := by
  obtain ⟨e, hplaced, hround⟩ := roundRat_placed hprec num hden
  rw [hvalue] at hplaced hround
  have hown := placed_units hprec bits
  have he : e = f.minExp + (f.field bits - 1 : Nat) :=
    le_antisymm (hplaced.le_of_le hprec hown le_rfl) (hown.le_of_le hprec hplaced le_rfl)
  rw [hround, he, roundedAt_units]
  exact min_eq_left hbits.le

theorem roundRat_le_infBits (hprec : 0 < f.prec) (num : Nat) {den : Nat} (hden : den ≠ 0) :
    f.roundRat false num den ≤ f.infBits := by
  obtain ⟨e, -, hround⟩ := roundRat_placed hprec num hden
  rw [hround]
  exact min_le_right _ _

/-! ## The operations -/

theorem dyadic (m : Nat) (e : Int) :
    ((m * 2 ^ e.toNat : Nat) : ℚ) / (2 ^ (-e).toNat : Nat) = m * 2 ^ e := by
  have hscaled := scaled m 1 (-e)
  rw [neg_neg, one_mul, Nat.cast_one, div_one] at hscaled
  exact hscaled

theorem roundDyadic_mono (hprec : 0 < f.prec) {m m' : Nat} {e e' : Int}
    (hle : (m : ℚ) * 2 ^ e ≤ m' * 2 ^ e') :
    f.roundDyadic false m e ≤ f.roundDyadic false m' e' := by
  refine roundRat_mono hprec (Nat.two_pow_pos _).ne' (Nat.two_pow_pos _).ne' ?_
  rw [dyadic, dyadic]
  exact hle

theorem roundDyadic_le_infBits (hprec : 0 < f.prec) (m : Nat) (e : Int) :
    f.roundDyadic false m e ≤ f.infBits :=
  roundRat_le_infBits hprec _ (Nat.two_pow_pos _).ne'

theorem ofNat_mono (hprec : 0 < f.prec) {a b : Nat} (hab : a ≤ b) : f.ofNat a ≤ f.ofNat b := by
  refine roundRat_mono hprec one_ne_zero one_ne_zero ?_
  rw [Nat.cast_one, div_one, div_one]
  exact_mod_cast hab

theorem ofNat_le_infBits (hprec : 0 < f.prec) (n : Nat) : f.ofNat n ≤ f.infBits :=
  roundRat_le_infBits hprec n one_ne_zero

section Positive

variable (hprec : 1 < f.prec) (hexp : 0 < f.expBits)
include hprec hexp

theorem decode_finite {bits : Nat} (hbits : bits < f.infBits) : f.decode bits =
    .finite false (f.significand bits) (f.minExp + (f.field bits - 1 : Nat)) :=
  decode_withSign (Nat.zero_lt_of_lt hprec) hexp false hbits

theorem decode_infBits : f.decode f.infBits = .inf false := decode_inf hprec hexp false

omit hprec hexp in
theorem value_mono {a b : Nat} (hab : a ≤ b) :
    (f.significand a : ℚ) * 2 ^ (f.minExp + (f.field a - 1 : Nat)) ≤
      f.significand b * 2 ^ (f.minExp + (f.field b - 1 : Nat)) := by
  rw [value_eq, value_eq]
  have hunits : (f.units a : ℚ) ≤ f.units b := by exact_mod_cast units_strictMono.monotone hab
  gcongr

theorem mul_le_infBits {a g : Nat} (ha : a ≤ f.infBits) (hg : g < f.infBits) (hpos : 0 < g) :
    f.mul a g ≤ f.infBits := by
  have hsig := significand_ne_zero (f := f) hpos
  unfold mul
  rw [decode_finite hprec hexp hg]
  rcases ha.lt_or_eq with ha | rfl
  · rw [decode_finite hprec hexp ha]
    exact roundDyadic_le_infBits (Nat.zero_lt_of_lt hprec) _ _
  · rw [decode_infBits hprec hexp]
    simp [hsig, withSign]

/-- The product by a positive finite factor keeps order. -/
theorem mul_mono {a b g : Nat} (hab : a ≤ b) (hb : b ≤ f.infBits) (hg : g < f.infBits)
    (hpos : 0 < g) : f.mul a g ≤ f.mul b g := by
  rcases hb.lt_or_eq with hb | rfl
  · unfold mul
    rw [decode_finite hprec hexp hg, decode_finite hprec hexp hb,
      decode_finite hprec hexp (hab.trans_lt hb)]
    refine roundDyadic_mono (Nat.zero_lt_of_lt hprec) ?_
    have hvalue := mul_le_mul_of_nonneg_right (value_mono (f := f) hab)
      (show (0 : ℚ) ≤ f.significand g * 2 ^ (f.minExp + (f.field g - 1 : Nat)) by positivity)
    rw [zpow_add₀ two_ne_zero (f.minExp + _), zpow_add₀ two_ne_zero (f.minExp + _)]
    push_cast
    linarith
  · refine (mul_le_infBits hprec hexp hab hg hpos).trans_eq ?_
    have hsig := significand_ne_zero (f := f) hpos
    unfold mul
    rw [decode_finite hprec hexp hg, decode_infBits hprec hexp]
    simp [hsig, withSign]

omit hprec hexp in
theorem mul_comm (a b : Nat) : f.mul a b = f.mul b a := by
  unfold mul
  cases f.decode a <;> cases f.decode b <;>
    simp [Nat.mul_comm, Int.add_comm, bne_comm]

/-- A value of this format, rounded to the format `g`, keeps order. -/
theorem narrow_mono {g : Format} (hg : 0 < g.prec) {a b : Nat} (hab : a ≤ b) (hb : b < f.infBits)
    {neg neg' : Bool} {m m' : Nat} {e e' : Int} (ha' : f.decode a = .finite neg m e)
    (hb' : f.decode b = .finite neg' m' e') :
    g.roundDyadic false m e ≤ g.roundDyadic false m' e' := by
  rw [decode_finite hprec hexp (hab.trans_lt hb)] at ha'
  rw [decode_finite hprec hexp hb] at hb'
  cases ha'
  cases hb'
  exact roundDyadic_mono hg (value_mono hab)

theorem roundInt_le_infBits {a : Nat} (ha : a ≤ f.infBits) : f.roundInt a ≤ f.infBits := by
  unfold roundInt
  rcases ha.lt_or_eq with ha | rfl
  · rw [decode_finite hprec hexp ha]
    exact ofNat_le_infBits (Nat.zero_lt_of_lt hprec) _
  · rw [decode_infBits hprec hexp]
    exact le_rfl

theorem roundInt_mono {a b : Nat} (hab : a ≤ b) (hb : b ≤ f.infBits) :
    f.roundInt a ≤ f.roundInt b := by
  rcases hb.lt_or_eq with hb | rfl
  · unfold roundInt
    rw [decode_finite hprec hexp hb, decode_finite hprec hexp (hab.trans_lt hb)]
    refine ofNat_mono (Nat.zero_lt_of_lt hprec) ?_
    -- half up is the floor of the value and a half
    have hhalf : ∀ (m : Nat) (e : Int), (2 * m * 2 ^ e.toNat + 2 ^ (-e).toNat) /
        (2 * 2 ^ (-e).toNat) = ⌊(m : ℚ) * 2 ^ e + 1 / 2⌋₊ := by
      intro m e
      rw [← dyadic, ← Nat.floor_div_eq_div (K := ℚ)]
      congr 1
      push_cast
      field_simp
    rw [hhalf, hhalf]
    exact Nat.floor_mono (by linarith [value_mono (f := f) hab])
  · refine (roundInt_le_infBits hprec hexp hab).trans_eq ?_
    unfold roundInt
    rw [decode_infBits hprec hexp]
    rfl

theorem truncNat_mono (cap : Nat) {a b : Nat} (hab : a ≤ b) (hb : b ≤ f.infBits) :
    f.truncNat cap a ≤ f.truncNat cap b := by
  have htrunc : ∀ bits < f.infBits, f.truncNat cap bits =
      min cap ⌊(f.significand bits : ℚ) * 2 ^ (f.minExp + (f.field bits - 1 : Nat))⌋₊ := by
    intro bits hbits
    unfold truncNat
    rw [decode_finite hprec hexp hbits, ← dyadic, Nat.floor_div_eq_div]
    rfl
  rcases hb.lt_or_eq with hb | rfl
  · rw [htrunc a (hab.trans_lt hb), htrunc b hb]
    exact min_le_min_left _ (Nat.floor_mono (value_mono hab))
  · have hcap : f.truncNat cap f.infBits = cap := by
      unfold truncNat
      rw [decode_infBits hprec hexp]
      rfl
    rw [hcap]
    rcases hab.lt_or_eq with ha | rfl
    · rw [htrunc a ha]
      exact min_le_left _ _
    · exact hcap.le

end Positive

theorem roundRat_sign (neg : Bool) (num den : Nat) :
    f.roundRat neg num den = f.withSign neg (f.roundRat false num den) := by
  unfold roundRat
  split_ifs
  · rfl
  · rfl

end Format

end Ieee754
