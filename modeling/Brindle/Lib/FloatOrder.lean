/-
# Brindle.Lib.FloatOrder — floats in a total order that knows their values.

`Datum.rank` places what a bit pattern denotes on one line: the negative infinity, the rationals, the
positive infinity, and above them all a single place for every NaN. The two zeros share a place. Ranks
of different formats compare, since a rank no longer mentions the format. Within a format they run as
the signed patterns do, and a conversion to a wider format leaves the rank alone.
-/
import Brindle.Lib.Rounding
import Mathlib.Data.Prod.Lex

namespace Ieee754

namespace Datum

/-- The place of a value on the line. -/
def rank : Datum → ℤ ×ₗ ℚ
  | .nan => toLex (2, 0)
  | .inf true => toLex (-1, 0)
  | .inf false => toLex (1, 0)
  | .finite neg m e => toLex (0, (if neg then -1 else 1) * (m * 2 ^ e))

end Datum

namespace Format

variable {f : Format}

/-- The rank read off a signed pattern. -/
def lineRank (f : Format) (z : Int) : ℤ ×ₗ ℚ :=
  if z ≤ -(f.infBits : Int) then toLex (-1, 0)
  else if (f.infBits : Int) ≤ z then toLex (1, 0)
  else toLex (0, (if z < 0 then -1 else 1) * (f.units z.natAbs * 2 ^ f.minExp))

/-- Signed patterns run in the order of their ranks. -/
theorem lineRank_lt {z w : Int} (hzw : z < w) (hz : -(f.infBits : Int) ≤ z)
    (hw : w ≤ f.infBits) : f.lineRank z < f.lineRank w := by
  have hunits : ∀ {a b : Nat}, a < b → (f.units a : ℚ) * 2 ^ f.minExp < f.units b * 2 ^ f.minExp := by
    intro a b hab
    have hlt : (f.units a : ℚ) < f.units b := by exact_mod_cast units_strictMono hab
    gcongr
  have hnonneg : ∀ a : Nat, (0 : ℚ) ≤ f.units a * 2 ^ f.minExp := fun a => by positivity
  unfold lineRank
  rcases hz.lt_or_eq with hz' | rfl
  · rw [if_neg (not_le.mpr hz'), if_neg (not_le.mpr (hzw.trans_le hw)),
      if_neg (not_le.mpr (hz'.trans hzw))]
    rcases hw.lt_or_eq with hw' | rfl
    · rw [if_neg (not_le.mpr hw'), Prod.Lex.toLex_lt_toLex]
      refine .inr ⟨rfl, ?_⟩
      split_ifs with hzneg hwneg hwneg
      · have hlt := hunits (show w.natAbs < z.natAbs by omega)
        linarith
      · have hlt := hunits (show 0 < z.natAbs by omega)
        have hge := hnonneg w.natAbs
        have hzero := hnonneg 0
        linarith
      · omega
      · have hlt := hunits (show z.natAbs < w.natAbs by omega)
        linarith
    · rw [if_pos le_rfl, Prod.Lex.toLex_lt_toLex]
      exact .inl one_pos
  · rw [if_pos le_rfl, if_neg (not_le.mpr hzw)]
    split_ifs
    · exact Prod.Lex.toLex_lt_toLex.mpr (.inl (by norm_num))
    · exact Prod.Lex.toLex_lt_toLex.mpr (.inl (by norm_num))
    · exact Prod.Lex.toLex_lt_toLex.mpr (.inl (by norm_num))

theorem lineRank_compare {z w : Int} (hz : -(f.infBits : Int) ≤ z) (hz' : z ≤ f.infBits)
    (hw : -(f.infBits : Int) ≤ w) (hw' : w ≤ f.infBits) :
    compare (f.lineRank z) (f.lineRank w) = compare z w := by
  rcases lt_trichotomy z w with hlt | rfl | hgt
  · rw [compare_lt_iff_lt.mpr hlt, compare_lt_iff_lt.mpr (lineRank_lt hlt hz hw')]
  · rw [compare_eq_iff_eq.mpr rfl, compare_eq_iff_eq.mpr rfl]
  · rw [compare_gt_iff_gt.mpr hgt, compare_gt_iff_gt.mpr (lineRank_lt hgt hw hz')]

theorem lineRank_lt_nan (z : Int) : f.lineRank z < Datum.nan.rank := by
  unfold lineRank Datum.rank
  split_ifs <;> exact Prod.Lex.toLex_lt_toLex.mpr (.inl (by norm_num))

section Patterns

variable (hprec : 1 < f.prec) (hexp : 0 < f.expBits)
include hprec hexp

/-- What a signed pattern up to the infinities denotes. -/
theorem rank_decode (neg : Bool) {bits : Nat} (hbits : bits ≤ f.infBits) :
    (f.decode (f.withSign neg bits)).rank =
      f.lineRank (if neg then -(bits : Int) else bits) := by
  have hinf : 0 < f.infBits := by
    have hone : 1 < 2 ^ f.expBits := Nat.one_lt_two_pow hexp.ne'
    exact Nat.mul_pos (by omega) (Nat.two_pow_pos _)
  rcases hbits.lt_or_eq with hlt | rfl
  · rw [decode_withSign (Nat.zero_lt_of_lt hprec) hexp neg hlt]
    unfold Datum.rank
    dsimp only
    rw [value_eq]
    unfold lineRank
    cases neg with
    | false =>
      simp only [Bool.false_eq_true, if_false]
      rw [if_neg (by omega), if_neg (by omega), if_neg (by omega), Int.natAbs_natCast]
    | true =>
      simp only [if_true]
      rw [if_neg (by omega), if_neg (by omega), Int.natAbs_neg, Int.natAbs_natCast]
      split_ifs with hneg
      · rfl
      · -- the zeros share a place
        have hzero : bits = 0 := by omega
        simp [hzero, units, significand, field]
  · rw [decode_inf hprec hexp]
    unfold lineRank Datum.rank
    cases neg with
    | true => simp
    | false =>
      simp only [Bool.false_eq_true, if_false]
      rw [if_neg (by omega), if_pos le_rfl]

/-- Past the infinity's pattern every pattern is a NaN. -/
theorem decode_nan (neg : Bool) {bits : Nat} (hlow : f.infBits < bits) (hhigh : bits < f.signBit) :
    f.decode (f.withSign neg bits) = .nan := by
  have hsign : f.signBit = 2 ^ f.expBits * 2 ^ (f.prec - 1) := by
    rw [← Nat.pow_add, signBit]
    congr 1
    omega
  have hw := Nat.two_pow_pos (f.prec - 1)
  have hall : 0 < 2 ^ f.expBits := Nat.two_pow_pos _
  have hstep : f.signBit = f.infBits + 2 ^ (f.prec - 1) := by
    rw [hsign, infBits, ← Nat.succ_mul, Nat.succ_eq_add_one, Nat.sub_add_cancel hall]
  obtain ⟨frac, rfl⟩ := Nat.exists_eq_add_of_lt hlow
  have hfrac : f.withSign neg (f.infBits + frac + 1) % 2 ^ (f.prec - 1) = frac + 1 := by
    have hmod : (f.infBits + frac + 1) % 2 ^ (f.prec - 1) = frac + 1 := by
      rw [Nat.add_assoc, infBits, Nat.add_comm, Nat.add_mul_mod_self_right]
      exact Nat.mod_eq_of_lt (by omega)
    unfold withSign
    cases neg with
    | false => exact hmod
    | true =>
      rw [if_pos rfl, hsign, Nat.add_comm, Nat.add_mul_mod_self_right]
      exact hmod
  have hfield : f.withSign neg (f.infBits + frac + 1) / 2 ^ (f.prec - 1) % 2 ^ f.expBits =
      2 ^ f.expBits - 1 := by
    have hdiv : (f.infBits + frac + 1) / 2 ^ (f.prec - 1) = 2 ^ f.expBits - 1 := by
      rw [Nat.add_assoc, infBits, Nat.add_comm, Nat.add_mul_div_right _ _ hw,
        Nat.div_eq_of_lt (by omega), Nat.zero_add]
    unfold withSign
    cases neg with
    | false =>
      show (f.infBits + frac + 1) / 2 ^ (f.prec - 1) % 2 ^ f.expBits = _
      rw [hdiv]
      exact Nat.mod_eq_of_lt (by omega)
    | true =>
      rw [if_pos rfl, hsign, Nat.add_comm, Nat.add_mul_div_right _ _ hw, Nat.add_mod_right, hdiv]
      exact Nat.mod_eq_of_lt (by omega)
  simp [decode, hfrac, hfield]

end Patterns

/-! ## To a wider format -/

/-- What a finite value of the format may be. -/
theorem finite_of_decode (hprec : 0 < f.prec) {bits : Nat} {neg : Bool} {m : Nat} {e : Int}
    (hdec : f.decode bits = .finite neg m e) :
    m < 2 ^ f.prec ∧ f.minExp ≤ e ∧ e + 2 ≤ f.minExp + 2 ^ f.expBits := by
  have hfrac : bits % 2 ^ (f.prec - 1) < 2 ^ (f.prec - 1) := Nat.mod_lt _ (Nat.two_pow_pos _)
  have hfield : bits / 2 ^ (f.prec - 1) % 2 ^ f.expBits < 2 ^ f.expBits :=
    Nat.mod_lt _ (Nat.two_pow_pos _)
  have hdouble : 2 ^ f.prec = 2 ^ (f.prec - 1) + 2 ^ (f.prec - 1) := by
    rw [← Nat.two_mul, ← Nat.pow_succ', Nat.succ_eq_add_one, Nat.sub_add_cancel hprec]
  have hcast : ((2 ^ f.expBits : Nat) : Int) = 2 ^ f.expBits := by push_cast; rfl
  have hone := Nat.two_pow_pos f.expBits
  unfold decode at hdec
  dsimp only at hdec
  split at hdec
  · split at hdec <;> cases hdec
  · split at hdec
    · cases hdec
      omega
    · cases hdec
      omega

/-- A significand that fits has a pattern, whatever its exponent, as long as the field holds it. -/
theorem exists_units (hprec : 0 < f.prec) {m : Nat} (hm : m < 2 ^ f.prec) {k : Nat}
    (hk : k + 2 < 2 ^ f.expBits) : ∃ bits < f.infBits, f.units bits = m * 2 ^ k := by
  have hw := Nat.two_pow_pos (f.prec - 1)
  have hdouble : 2 ^ f.prec = 2 * 2 ^ (f.prec - 1) := by
    rw [← Nat.pow_succ', Nat.succ_eq_add_one, Nat.sub_add_cancel hprec]
  -- below the second normal binade a pattern is its own value
  have hsmall : ∀ u < 2 ^ f.prec, f.units u = u := by
    intro u hu
    have hfield : f.field u - 1 = 0 := by
      have hlt : f.field u < 2 := Nat.div_lt_of_lt_mul (by omega)
      omega
    have hsig := field_significand (f := f) u
    rw [hfield, Nat.zero_mul, Nat.zero_add] at hsig
    rw [units, hfield, hsig, Nat.pow_zero, Nat.mul_one]
  have hroom : (k + 2) * 2 ^ (f.prec - 1) ≤ f.infBits := Nat.mul_le_mul_right _ (by omega)
  have hroom' : 2 ^ f.prec ≤ f.infBits := by
    refine le_trans ?_ hroom
    rw [hdouble]
    exact Nat.mul_le_mul_right _ (by omega)
  rcases Nat.eq_zero_or_pos m with rfl | hpos
  · exact ⟨0, by omega, by rw [hsmall 0 (by omega), Nat.zero_mul]⟩
  · -- shift the significand up to where its top bit is the hidden one
    set j := f.prec - 1 - Nat.log2 m with hj
    have hlog : Nat.log2 m ≤ f.prec - 1 := by
      have hlt : Nat.log2 m < f.prec := (Nat.log2_lt hpos.ne').mpr hm
      omega
    have hlow : 2 ^ (f.prec - 1) ≤ m * 2 ^ j := by
      have hself := Nat.mul_le_mul_right (2 ^ j) (Nat.log2_self_le hpos.ne')
      rw [← Nat.pow_add, hj, Nat.add_sub_cancel' hlog] at hself
      exact hself
    have hhigh : m * 2 ^ j < 2 ^ f.prec := by
      have hlt := Nat.mul_lt_mul_of_pos_right (Nat.lt_log2_self (n := m)) (Nat.two_pow_pos j)
      rw [← Nat.pow_add, show Nat.log2 m + 1 + j = f.prec by omega] at hlt
      exact hlt
    rcases Nat.lt_or_ge k j with hkj | hjk
    · have hle : m * 2 ^ k ≤ m * 2 ^ j :=
        Nat.mul_le_mul_left _ (Nat.pow_le_pow_right (by omega) hkj.le)
      exact ⟨m * 2 ^ k, by omega, hsmall _ (by omega)⟩
    · obtain ⟨d, rfl⟩ := Nat.exists_eq_add_of_le hjk
      obtain ⟨frac, hfrac⟩ := Nat.exists_eq_add_of_le hlow
      have hfrac_lt : frac < 2 ^ (f.prec - 1) := by omega
      have hfield : f.field ((d + 1) * 2 ^ (f.prec - 1) + frac) = d + 1 := by
        unfold field
        rw [Nat.add_comm, Nat.add_mul_div_right _ _ hw, Nat.div_eq_of_lt hfrac_lt, Nat.zero_add]
      have hsig : f.significand ((d + 1) * 2 ^ (f.prec - 1) + frac) = m * 2 ^ j := by
        unfold significand
        rw [hfield, if_neg (Nat.succ_ne_zero d), Nat.add_comm ((d + 1) * _),
          Nat.add_mul_mod_self_right, Nat.mod_eq_of_lt hfrac_lt]
        omega
      refine ⟨(d + 1) * 2 ^ (f.prec - 1) + frac, ?_, ?_⟩
      · have hle : (d + 2) * 2 ^ (f.prec - 1) ≤ f.infBits :=
          (Nat.mul_le_mul_right _ (by omega)).trans hroom
        rw [Nat.succ_mul] at hle
        omega
      · rw [units, hfield, hsig, Nat.add_sub_cancel, Nat.mul_assoc, ← Nat.pow_add]

/-- **A conversion to a format that has the value leaves the rank alone.** -/
theorem rank_roundDyadic (hprec : 1 < f.prec) (hexp : 0 < f.expBits) (neg : Bool) {m : Nat}
    (hm : m < 2 ^ f.prec) {e : Int} (hlow : f.minExp ≤ e)
    (hhigh : e - f.minExp + 2 < 2 ^ f.expBits) :
    (f.decode (f.roundDyadic neg m e)).rank = (Datum.finite neg m e).rank := by
  have hk : (e - f.minExp).toNat + 2 < 2 ^ f.expBits := by
    have hcast : ((2 ^ f.expBits : Nat) : Int) = 2 ^ f.expBits := by push_cast; rfl
    omega
  obtain ⟨bits, hbits, hunits⟩ := exists_units (Nat.zero_lt_of_lt hprec) hm hk
  have hvalue : (m : ℚ) * 2 ^ e = f.units bits * 2 ^ f.minExp := by
    rw [hunits]
    push_cast
    rw [mul_assoc, ← zpow_natCast, ← zpow_add₀ two_ne_zero]
    congr 2
    omega
  have hround : f.roundDyadic neg m e = f.withSign neg bits := by
    unfold roundDyadic
    rw [roundRat_sign, roundRat_exact (Nat.zero_lt_of_lt hprec) (Nat.two_pow_pos _).ne' hbits]
    rw [dyadic]
    exact hvalue
  rw [hround, decode_withSign (Nat.zero_lt_of_lt hprec) hexp neg hbits]
  unfold Datum.rank
  dsimp only
  rw [value_eq, hvalue]

end Format

end Ieee754
