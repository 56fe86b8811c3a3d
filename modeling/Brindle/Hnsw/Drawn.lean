/-
# Brindle.Hnsw.Drawn — the levels the generator can draw.

`random_level` takes the logarithm of a uniform draw. Here it is read in exact arithmetic: the draw
is the rational its float stands for, and the level is the largest `L` with `m ^ L * r ≤ 1`. A draw
with a bit set is at least `2⁻⁵³`, and its level at most 53. A draw of zero is replaced by the least
normal float, `2⁻¹⁰²²`, and its level is past what the decoder accepts for every `m` it accepts; the
states that draw it are the predecessors of the words below `2¹¹`.
-/
import Brindle.Hnsw.Configured
import Brindle.Hnsw.Frame
import Brindle.Lib.FloatOrder
import Brindle.Exact
import Mathlib.Analysis.SpecialFunctions.Log.Basic
import Mathlib.Data.FinEnum

namespace Brindle

open Ieee754 (binary64)
open Run (After)

/-! ## The draw -/

namespace F64

theorem toRat_minPositive : minPositive.toRat = 2 ^ (-1022 : ℤ) := by
  have hdec : binary64.decode minPositive.bits.toNat = .finite false (2 ^ 52) (-1074) := rfl
  have hpower : (2 : ℚ) ^ 52 * 2 ^ (-1074 : ℤ) = 2 ^ (-1022 : ℤ) := by
    rw [← zpow_natCast, ← zpow_add₀ two_ne_zero]
    rfl
  rw [toRat, hdec]
  dsimp only
  rw [if_neg Bool.false_ne_true, one_mul, Nat.cast_pow, Nat.cast_ofNat, hpower]

/-- A draw of 53 bits is exact, and zero only if it has no bit set. -/
theorem ofDraw_spec {n : Nat} (hn : n < 2 ^ 53) :
    (ofDraw n).toRat = n / 2 ^ 53 ∧ ((ofDraw n).le zero = true ↔ n = 0) := by
  have hmin : binary64.minExp = -1074 := by decide
  have hinf : binary64.infBits = 0x7FF0000000000000 := by decide
  -- the exponent is kept a name: its power is too large to compute with
  obtain ⟨k, hk⟩ : ∃ k : Nat, k = 1021 := ⟨_, rfl⟩
  obtain ⟨bits, hbits, hunits⟩ := Ieee754.Format.exists_units (f := binary64) (m := n) (k := k)
    (by decide) hn (by rw [hk]; decide)
  have hvalue : (n : ℚ) / (2 ^ 53 : Nat) = binary64.units bits * 2 ^ binary64.minExp := by
    have hpower : (2 : ℚ) ^ k * 2 ^ (-1074 : ℤ) = (2 ^ 53)⁻¹ := by
      rw [hk, ← zpow_natCast, ← zpow_add₀ two_ne_zero, ← zpow_natCast, ← zpow_neg]
      rfl
    rw [hunits, hmin, Nat.cast_mul, Nat.cast_pow, Nat.cast_pow, Nat.cast_ofNat, mul_assoc, hpower,
      div_eq_mul_inv]
  have hround : binary64.roundRat false n (2 ^ 53) = bits :=
    Ieee754.Format.roundRat_exact (by decide) (by decide) hbits hvalue
  have hword : (ofDraw n).bits.toNat = bits := by
    rw [ofDraw, hround]
    exact UInt64.toNat_ofNat_of_lt' (show bits < 2 ^ 64 by omega)
  refine ⟨?_, ?_⟩
  · rw [toRat, hword, Ieee754.Format.decode_finite (by decide) (by decide) hbits]
    dsimp only
    rw [if_neg Bool.false_ne_true, one_mul, Ieee754.Format.value_eq, ← hvalue]
    norm_num
  · have hzero : bits = 0 ↔ n = 0 := by
      have hunits₀ : binary64.units 0 = 0 := by decide
      rw [← Ieee754.Format.units_strictMono.injective.eq_iff (f := binary64.units), hunits, hunits₀]
      exact Nat.mul_eq_zero.trans (or_iff_left (Nat.two_pow_pos k).ne')
    have hsigned : (ofDraw n).signed = bits := by
      simp only [signed, isNeg, mag, hword]
      rw [if_neg (by simp; omega), Nat.mod_eq_of_lt (by omega)]
    have hnan : (ofDraw n).isNan = false := by
      simp only [isNan, mag, hword, decide_eq_false_iff_not]
      omega
    rw [← hzero, le, hnan, hsigned, show zero.isNan = false from rfl, show zero.signed = 0 from rfl]
    simp

end F64

/-- The value a level is drawn from: the draw, or `f64::MIN_POSITIVE` in place of zero. -/
def drawFrom (state : UInt64) : F64 :=
  let draw := nextF64 (xorshift64 state)
  if draw.le F64.zero then F64.minPositive else draw

/-- The states that draw zero: the predecessors of the words whose 53 high bits are clear. -/
def zeroDraws : List UInt64 := (List.range (2 ^ 11)).map fun word => unxorshift64 (UInt64.ofNat word)

theorem xorshift64_unxorshift64 (word : UInt64) : xorshift64 (unxorshift64 word) = word := by
  obtain ⟨state, rfl⟩ := Finite.surjective_of_injective xorshift64_injective word
  rw [unxorshift64_xorshift64]

theorem mem_zeroDraws {state : UInt64} :
    state ∈ zeroDraws ↔ (xorshift64 state).toNat < 2 ^ 11 := by
  unfold zeroDraws
  rw [List.mem_map]
  constructor
  · rintro ⟨word, hword, rfl⟩
    have hlt := List.mem_range.mp hword
    rw [xorshift64_unxorshift64, UInt64.toNat_ofNat_of_lt' (show word < 2 ^ 64 by omega)]
    exact hlt
  · intro hlt
    refine ⟨(xorshift64 state).toNat, List.mem_range.mpr hlt, ?_⟩
    rw [UInt64.ofNat_toNat, unxorshift64_xorshift64]

theorem drawFrom_toRat (state : UInt64) : (drawFrom state).toRat =
    if state ∈ zeroDraws then 2 ^ (-1022 : ℤ)
    else (((xorshift64 state).toNat / 2 ^ 11 : Nat) : ℚ) / 2 ^ 53 := by
  have hshift : (xorshift64 state >>> 11).toNat = (xorshift64 state).toNat / 2 ^ 11 := by
    rw [UInt64.toNat_shiftRight, Nat.shiftRight_eq_div_pow]
    rfl
  have hword : (xorshift64 state).toNat < 2 ^ 64 := UInt64.toNat_lt _
  obtain ⟨hvalue, hle⟩ := F64.ofDraw_spec (n := (xorshift64 state).toNat / 2 ^ 11) (by omega)
  have hzero : (xorshift64 state).toNat / 2 ^ 11 = 0 ↔ state ∈ zeroDraws := by
    rw [mem_zeroDraws]
    omega
  simp only [drawFrom, nextF64, hshift]
  by_cases hin : state ∈ zeroDraws
  · rw [if_pos (hle.mpr (hzero.mpr hin)), if_pos hin, F64.toRat_minPositive]
  · rw [if_neg (fun h => hin (hzero.mp (hle.mp h))), if_neg hin, hvalue]

theorem drawFrom_bounds (state : UInt64) : 0 < (drawFrom state).toRat ∧ (drawFrom state).toRat ≤ 1 := by
  rw [drawFrom_toRat]
  split_ifs with hin
  · exact ⟨by positivity, zpow_le_one_of_nonpos₀ (by norm_num) (by decide)⟩
  · have hword : (xorshift64 state).toNat < 2 ^ 64 := UInt64.toNat_lt _
    rw [mem_zeroDraws] at hin
    have hpos : 0 < (xorshift64 state).toNat / 2 ^ 11 := by omega
    have hlt : (xorshift64 state).toNat / 2 ^ 11 ≤ 2 ^ 53 := by omega
    refine ⟨div_pos (by exact_mod_cast hpos) (by positivity), ?_⟩
    rw [div_le_one (by positivity)]
    exact_mod_cast hlt

/-! ## The level -/

/-- The level drawn from `state`, with the logarithms and the product taken in exact arithmetic. -/
noncomputable def exactLevel (m : Nat) (state : UInt64) : Nat :=
  ⌊-Real.log (drawFrom state).toRat * (1 / Real.log m)⌋₊

theorem le_exactLevel_iff {m : Nat} (hm : 2 ≤ m) (state : UInt64) (level : Nat) :
    level ≤ exactLevel m state ↔ (m : ℚ) ^ level * (drawFrom state).toRat ≤ 1 := by
  obtain ⟨hpos, hle⟩ := drawFrom_bounds state
  unfold exactLevel
  generalize (drawFrom state).toRat = r at hpos hle
  have hm' : (0 : ℝ) < m := by exact_mod_cast Nat.zero_lt_of_lt hm
  have hr : (0 : ℝ) < r := by exact_mod_cast hpos
  have hlog : 0 < Real.log m := Real.log_pos (by exact_mod_cast hm)
  have hlogr : Real.log r ≤ 0 := Real.log_nonpos hr.le (by exact_mod_cast hle)
  have hsum : Real.log ((m : ℝ) ^ level * r) = level * Real.log m + Real.log r := by
    rw [Real.log_mul (pow_pos hm' level).ne' hr.ne', Real.log_pow]
  calc level ≤ ⌊-Real.log r * (1 / Real.log m)⌋₊
      ↔ (level : ℝ) ≤ -Real.log r / Real.log m := by
        rw [mul_one_div]
        exact Nat.le_floor_iff (div_nonneg (neg_nonneg.mpr hlogr) hlog.le)
    _ ↔ Real.log ((m : ℝ) ^ level * r) ≤ 0 := by
        rw [le_div_iff₀ hlog, hsum]
        constructor <;> intro h <;> linarith
    _ ↔ (m : ℝ) ^ level * r ≤ 1 := Real.log_nonpos_iff (by positivity)
    _ ↔ (m : ℚ) ^ level * r ≤ 1 := by exact_mod_cast Iff.rfl

/-- The level is the one the draw's logarithm to base `m` stands for. -/
theorem exactLevel_isGreatest {m : Nat} (hm : 2 ≤ m) (state : UInt64) :
    IsGreatest {level : Nat | (m : ℚ) ^ level * (drawFrom state).toRat ≤ 1} (exactLevel m state) :=
  ⟨(le_exactLevel_iff hm state _).mp le_rfl, fun level hlevel => (le_exactLevel_iff hm state level).mpr hlevel⟩

/-- A draw with a bit set gives a level of at most 53. -/
theorem exactLevel_le {m : Nat} (hm : 2 ≤ m) {state : UInt64} (hdraw : state ∉ zeroDraws) :
    exactLevel m state ≤ 53 := by
  by_contra hover
  have hpower := (le_exactLevel_iff hm state 54).mp (by omega)
  have hword : 1 ≤ (xorshift64 state).toNat / 2 ^ 11 := by
    rw [mem_zeroDraws] at hdraw
    omega
  have hword' : (1 : ℚ) ≤ ((xorshift64 state).toNat / 2 ^ 11 : Nat) := by exact_mod_cast hword
  have hbase : (2 : ℚ) ^ 54 ≤ (m : ℚ) ^ 54 := by
    have hm' : (2 : ℚ) ≤ m := by exact_mod_cast hm
    gcongr
  rw [drawFrom_toRat, if_neg hdraw] at hpower
  have hlow : (2 : ℚ) ^ 54 * (1 / 2 ^ 53) ≤ 1 :=
    le_trans (by gcongr) hpower
  norm_num at hlow

/-- The substitute for a zero draw gives a level of at least 146, for every `m` the decoder accepts. -/
theorem le_exactLevel {m : Nat} (hm : 2 ≤ m) (hm' : m ≤ HnswParams.maxM) {state : UInt64}
    (hdraw : state ∈ zeroDraws) : 146 ≤ exactLevel m state := by
  rw [le_exactLevel_iff hm, drawFrom_toRat, if_pos hdraw]
  have hbase : (m : ℚ) ≤ 2 ^ (7 : ℤ) := by
    have hcast : (m : ℚ) ≤ (HnswParams.maxM : Nat) := by exact_mod_cast hm'
    exact hcast.trans (by norm_num [HnswParams.maxM])
  calc (m : ℚ) ^ 146 * 2 ^ (-1022 : ℤ) ≤ (2 ^ (7 : ℤ)) ^ 146 * 2 ^ (-1022 : ℤ) := by gcongr
    _ = 2 ^ (0 : ℤ) := by
      rw [← zpow_natCast, ← zpow_mul, ← zpow_add₀ two_ne_zero]
      rfl
    _ ≤ 1 := le_of_eq (zpow_zero _)

namespace Hnsw

variable [Arith]

/-- **The top layer.** The level drawn in exact arithmetic is one the decoder accepts, and so is the
top layer of every graph whose insert draws it, exactly when the state does not draw zero. -/
theorem exactLevel_accepted_iff (m : Nat) (hm : 2 ≤ m) (hm' : m ≤ 128) (state : UInt64) :
    IsGreatest {level : Nat | (m : ℚ) ^ level * (drawFrom state).toRat ≤ 1} (exactLevel m state) ∧
      ((exactLevel m state ≤ HnswParams.maxLayer ∧
          ∀ (h : Hnsw) (vector : List F32) (attrs : List AttrValue),
            h.m = m → h.rng = state → h.maxLayer ≤ HnswParams.maxLayer →
              After (fun r => r.1.maxLayer ≤ HnswParams.maxLayer)
                (h.insertDrawn vector attrs (exactLevel m state))) ↔
        state ∉ zeroDraws) := by
  refine ⟨exactLevel_isGreatest hm state, ?_, fun hdraw => ?_⟩
  · rintro ⟨hle, -⟩ hdraw
    have hge := le_exactLevel hm hm' hdraw
    have hmax : HnswParams.maxLayer = 64 := rfl
    omega
  · have hle : exactLevel m state ≤ HnswParams.maxLayer :=
      (exactLevel_le hm hdraw).trans (by decide)
    refine ⟨hle, fun h vector attrs _ _ htop => ?_⟩
    refine (after_insertDrawn h vector attrs (exactLevel m state)).mono fun r A => ?_
    exact A.top_le.trans (max_le htop hle)

omit [Arith] in
theorem exactLevel_accepted_iff_sixteen :
    (2 ≤ 16 ∧ 16 ≤ 128) ∧ defaultSeed ∉ zeroDraws ∧ exactLevel 16 defaultSeed ≤ 64 := by
  have hdraw : defaultSeed ∉ zeroDraws := by
    rw [mem_zeroDraws]
    decide
  exact ⟨by decide, hdraw,
    ((@exactLevel_accepted_iff Arith.ieee 16 (by decide) (by decide) defaultSeed).2.mpr hdraw).1⟩

omit [Arith] in
/-- The state whose successor is 1 draws zero, and a level above 64 whatever `m` is. -/
theorem exactLevel_not_accepted :
    ¬ ∀ m : Nat, 2 ≤ m → m ≤ 128 → ∀ state : UInt64, state ≠ 0 →
      exactLevel m state ≤ HnswParams.maxLayer := by
  intro hall
  have hdraw : (13721891023265367629 : UInt64) ∈ zeroDraws := by
    rw [mem_zeroDraws]
    decide
  have hlow := hall 2 (by decide) (by decide) 13721891023265367629 (by decide)
  have hhigh := le_exactLevel (m := 2) (by decide) (by decide) hdraw
  have hmax : HnswParams.maxLayer = 64 := rfl
  omega

-- the same state in floating point
example : (@drawnLevel Arith.ieee { @Hnsw.new Arith.ieee { HnswParams.default with m := 2 } with
    rng := 13721891023265367629 }) = 1022 := by decide +kernel

end Hnsw

end Brindle
