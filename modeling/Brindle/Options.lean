/-
# Brindle.Options — what a `WITH` clause may ask for.

`options.rs`: the range Postgres holds each option to, the limit on what `m` and `gamma` ask for
together, and the parameters a build reads back. The limit is tested in `f64` when the index is created;
the graph derives its degree caps in `f32`, and whoever decodes it tests those. What the first test
lets through the second does: the one factor that is rounded twice is rounded monotonically, and at the
largest `gamma` the first test admits for each `m` the second holds.
-/
import Brindle.Hnsw.Readable
import Brindle.Lib.Rounding

namespace Brindle

open Hnsw (Encodable EditLegal Legal editStep)
open Ieee754 (binary32 binary64)
open Outcome (Ensures ensures_pure)
open Run (Along run)

/-! ## The options -/

/-- The parsed `WITH (...)` clause. -/
structure BrindleOptions where
  m : Int32
  efConstruction : Int32
  gamma : F64
  deriving DecidableEq, Repr

namespace BrindleOptions

def minM : Int32 := 2
def maxM : Int32 := 128
def minEfConstruction : Int32 := 4
def maxEfConstruction : Int32 := 1000

/-- `MAX_LAYER0_DEGREE`, `2048.0`. -/
def maxLayer0Degree : F64 := ⟨0x40A0000000000000⟩

/-- `2.0`. -/
def two : F64 := ⟨0x4000000000000000⟩

/-- `x as usize`. -/
def asUsize (x : Int32) : Nat := (x.toInt % 2 ^ 64).toNat

/-- What `build_reloptions` holds each option to, by the bounds `init` registers. -/
structure InRange (options : BrindleOptions) : Prop where
  minM_le : minM ≤ options.m
  le_maxM : options.m ≤ maxM
  minEf_le : minEfConstruction ≤ options.efConstruction
  le_maxEf : options.efConstruction ≤ maxEfConstruction
  one_le : F64.one.le options.gamma = true
  le_maxGamma : options.gamma.le HnswParams.maxGamma.toF64 = true

instance (options : BrindleOptions) : Decidable options.InRange :=
  decidable_of_iff (minM ≤ options.m ∧ options.m ≤ maxM ∧
    minEfConstruction ≤ options.efConstruction ∧ options.efConstruction ≤ maxEfConstruction ∧
    F64.one.le options.gamma = true ∧ options.gamma.le HnswParams.maxGamma.toF64 = true)
    ⟨fun ⟨h₁, h₂, h₃, h₄, h₅, h₆⟩ => ⟨h₁, h₂, h₃, h₄, h₅, h₆⟩,
      fun h => ⟨h.1, h.2, h.3, h.4, h.5, h.6⟩⟩

/-- "brindle: m = {} with gamma = {} would give each node up to {} neighbors" -/
structure ExcessiveDegree where
  m : Int32
  gamma : F64
  /-- `layer0_degree as u64`. -/
  neighbors : Nat
  deriving DecidableEq, Repr

/-- Raise when `m` and `gamma` together ask for more neighbors per node than allowed. -/
def rejectExcessiveDegree [Arith] (options : BrindleOptions) : Except ExcessiveDegree Unit :=
  let layer0Degree := Arith.f64Mul (Arith.f64Mul two (F64.ofI32 options.m)) options.gamma
  if layer0Degree.gt maxLayer0Degree then
    .error ⟨options.m, options.gamma, binary64.truncNat (2 ^ 64 - 1) layer0Degree.bits.toNat⟩
  else .ok ()

/-- `amoptions`, of what `build_reloptions` parsed: an index already on disk is not validated. -/
def amoptions [Arith] (parsed : Option BrindleOptions) (validate : Bool) :
    Except ExcessiveDegree (Option BrindleOptions) := do
  if validate then
    if let some options := parsed then rejectExcessiveDegree options
  return parsed

/-- Build parameters for an index whose operator class ranks by `metric`. -/
def buildParams (metric : Metric) (options : Option BrindleOptions) : HnswParams :=
  let defaults := { HnswParams.default with metric }
  match options with
  | none => defaults
  | some options =>
    { defaults with
      m := asUsize options.m
      efConstruction := asUsize options.efConstruction
      gamma := options.gamma.toF32 }

/-! ## The two tests -/

/-- The pattern of the `f32` a positive `f64` pattern is rounded to. -/
def narrow (bits : Nat) : Nat :=
  match binary64.decode bits with
  | .finite _ m e => binary32.roundDyadic false m e
  | _ => binary32.infBits

/-- No `gamma` the first test admits for `n` links a node is above this pattern. -/
def gammaLimit (n : Nat) : Nat :=
  binary64.div maxLayer0Degree.bits.toNat (binary64.ofNat (2 * n)) + 1

/-- `MAX_GAMMA` as `f64`. -/
theorem maxGamma_toF64 : HnswParams.maxGamma.toF64.signed = 0x4090000000000000 ∧
    HnswParams.maxGamma.toF64.bits.toNat = 0x4090000000000000 ∧
    HnswParams.maxGamma.toF64.bits.toNat < binary64.infBits := by
  decide +kernel

/-- The ends of the range of `gamma` are narrowed exactly. -/
theorem narrow_ends : narrow F64.one.bits.toNat = F32.one.bits.toNat ∧
    narrow HnswParams.maxGamma.toF64.bits.toNat = HnswParams.maxGamma.bits.toNat := by
  decide +kernel

theorem ofNat_finite : ∀ n ≤ 128, 2 ≤ n →
    (0 < binary64.ofNat (2 * n) ∧ binary64.ofNat (2 * n) < binary64.infBits) ∧
      0 < binary32.ofNat (n * 2) ∧ binary32.ofNat (n * 2) < binary32.infBits := by
  decide +kernel

theorem two_mul_ofNat : ∀ n ≤ 128, 2 ≤ n →
    binary64.mul two.bits.toNat (binary64.ofNat n) = binary64.ofNat (2 * n) := by
  decide +kernel

/-- At the limit nothing is infinite, one step past it the first test rejects, and up to it the second
test holds. -/
theorem gammaLimit_spec : ∀ n ≤ 128, 2 ≤ n →
    gammaLimit n < binary64.infBits ∧ narrow (gammaLimit n) ≤ binary32.infBits ∧
      maxLayer0Degree.bits.toNat < binary64.mul (gammaLimit n + 1) (binary64.ofNat (2 * n)) ∧
      binary32.truncNat (2 ^ 64 - 1) (binary32.roundInt
        (binary32.mul (narrow (gammaLimit n)) (binary32.ofNat (n * 2)))) ≤
      HnswParams.maxLayer0Degree := by
  decide +kernel

/-- A pattern between those of one and of `MAX_GAMMA` is one of a positive finite value. -/
theorem bits_of_range {x : F64} (hone : F64.one.le x = true)
    (hmax : x.le HnswParams.maxGamma.toF64 = true) :
    F64.one.bits.toNat ≤ x.bits.toNat ∧ x.bits.toNat ≤ HnswParams.maxGamma.toF64.bits.toNat := by
  have hword : x.bits.toNat < 2 ^ 64 := x.bits.toNat_lt
  have hunit : F64.one.signed = 0x3FF0000000000000 ∧
      F64.one.bits.toNat = 0x3FF0000000000000 := by decide
  have hcap := maxGamma_toF64
  simp only [F64.le, Bool.and_eq_true, decide_eq_true_eq] at hone hmax
  have hlow := hone.2
  have hhigh := hmax.2
  rw [hunit.1] at hlow
  rw [hcap.1] at hhigh
  rw [hunit.2, hcap.2.1]
  simp only [F64.signed, F64.isNeg, F64.mag, decide_eq_true_eq] at hlow hhigh
  split_ifs at hlow hhigh <;> omega

theorem narrow_mono {a b : Nat} (hab : a ≤ b) (hb : b < binary64.infBits) :
    narrow a ≤ narrow b := by
  have hprec : 1 < binary64.prec := by decide
  have hexp : 0 < binary64.expBits := by decide
  have ha := Ieee754.Format.decode_finite hprec hexp (hab.trans_lt hb)
  have hb' := Ieee754.Format.decode_finite hprec hexp hb
  have h := Ieee754.Format.narrow_mono hprec hexp (g := binary32) (by decide) hab hb ha hb'
  unfold narrow
  rw [ha, hb']
  exact h

section

variable {options : BrindleOptions} (h : options.InRange)
include h

theorem InRange.links : 2 ≤ asUsize options.m ∧ asUsize options.m ≤ 128 := by
  have hlow := Int32.le_iff_toInt_le.mp h.minM_le
  have hhigh := Int32.le_iff_toInt_le.mp h.le_maxM
  have hbounds : minM.toInt = 2 ∧ maxM.toInt = 128 := by decide
  unfold asUsize
  omega

theorem InRange.candidates :
    4 ≤ asUsize options.efConstruction ∧ asUsize options.efConstruction ≤ 1000 := by
  have hlow := Int32.le_iff_toInt_le.mp h.minEf_le
  have hhigh := Int32.le_iff_toInt_le.mp h.le_maxEf
  have hbounds : minEfConstruction.toInt = 4 ∧ maxEfConstruction.toInt = 1000 := by decide
  unfold asUsize
  omega

theorem InRange.ofI32_eq :
    F64.ofI32 options.m = F64.ofNatBits (binary64.ofNat (asUsize options.m)) := by
  have hlow := Int32.le_iff_toInt_le.mp h.minM_le
  have hbound : minM.toInt = 2 := by decide
  have hpos : ¬ options.m < 0 := by
    rw [Int32.lt_iff_toInt_lt]
    have hzero : (0 : Int32).toInt = 0 := by decide
    omega
  have habs : options.m.toInt.natAbs = asUsize options.m := by
    have hhigh := Int32.le_iff_toInt_le.mp h.le_maxM
    have hcap : maxM.toInt = 128 := by decide
    unfold asUsize
    omega
  unfold F64.ofI32 Ieee754.Format.ofNat
  rw [habs, decide_eq_false hpos]

/-- The pattern `gamma` is rounded to when the parameters are read. -/
theorem InRange.toF32_bits : options.gamma.toF32.bits.toNat = narrow options.gamma.bits.toNat ∧
    F32.one.bits.toNat ≤ narrow options.gamma.bits.toNat ∧
    narrow options.gamma.bits.toNat ≤ HnswParams.maxGamma.bits.toNat := by
  obtain ⟨hlow, hhigh⟩ := bits_of_range h.one_le h.le_maxGamma
  have hcap := maxGamma_toF64.2.2
  have hge := narrow_mono hlow (hhigh.trans_lt hcap)
  have hle := narrow_mono hhigh hcap
  rw [narrow_ends.1] at hge
  rw [narrow_ends.2] at hle
  refine ⟨?_, hge, hle⟩
  have hmax : HnswParams.maxGamma.bits.toNat = 0x44800000 := by decide
  have hfinite := Ieee754.Format.decode_finite (f := binary64) (by decide) (by decide)
    (hhigh.trans_lt hcap)
  unfold narrow at hle ⊢
  unfold F64.toF32
  rw [hfinite] at hle ⊢
  exact UInt32.toNat_ofNat_of_lt' (lt_of_le_of_lt hle (by rw [hmax]; decide))

end

/-- A pattern up to the infinity's stands on the line where it is. -/
theorem signed_ofNatBits {bits : Nat} (hbits : bits ≤ binary64.infBits) :
    (F64.ofNatBits bits).isNan = false ∧ (F64.ofNatBits bits).signed = bits := by
  have hinf : binary64.infBits = 0x7FF0000000000000 := by decide
  have hword : (F64.ofNatBits bits).bits.toNat = bits := UInt64.toNat_ofNat_of_lt' (show _ < 2 ^ 64 by omega)
  unfold F64.isNan F64.signed F64.isNeg F64.mag
  rw [hword, decide_eq_false_iff_not, if_neg (by rw [decide_eq_true_iff]; omega)]
  omega

section

variable [Arith] [Arith.Rounds64] {options : BrindleOptions} (h : options.InRange)
include h

/-- The degree the first test looks at. -/
theorem InRange.layer0Degree_eq :
    binary64.mul options.gamma.bits.toNat (binary64.ofNat (2 * asUsize options.m)) ≤
        binary64.infBits ∧
      Arith.f64Mul (Arith.f64Mul two (F64.ofI32 options.m)) options.gamma = F64.ofNatBits
        (binary64.mul options.gamma.bits.toNat (binary64.ofNat (2 * asUsize options.m))) := by
  obtain ⟨hlow, hhigh⟩ := h.links
  obtain ⟨⟨hpos, hfinite⟩, -⟩ := ofNat_finite _ hhigh hlow
  have hgamma := (bits_of_range h.one_le h.le_maxGamma).2.trans_lt maxGamma_toF64.2.2
  have hle : binary64.mul options.gamma.bits.toNat (binary64.ofNat (2 * asUsize options.m)) ≤
      binary64.infBits :=
    Ieee754.Format.mul_le_infBits (by decide) (by decide) hgamma.le hfinite hpos
  refine ⟨hle, ?_⟩
  have hinf : binary64.infBits = 0x7FF0000000000000 := by decide
  have hword : ∀ bits ≤ binary64.infBits, (F64.ofNatBits bits).bits.toNat = bits :=
    fun bits hbits => UInt64.toNat_ofNat_of_lt' (show _ < 2 ^ 64 by omega)
  have hn : binary64.ofNat (asUsize options.m) ≤ binary64.infBits :=
    Ieee754.Format.ofNat_le_infBits (by decide) _
  have hdouble : Arith.ieee.f64Mul two (F64.ofI32 options.m) =
      F64.ofNatBits (binary64.ofNat (2 * asUsize options.m)) := by
    rw [h.ofI32_eq, ← two_mul_ofNat _ hhigh hlow]
    show F64.ofNatBits (binary64.mul _ (F64.ofNatBits _).bits.toNat) = _
    rw [hword _ hn]
  have hproduct : Arith.ieee.f64Mul (F64.ofNatBits (binary64.ofNat (2 * asUsize options.m)))
      options.gamma = F64.ofNatBits
        (binary64.mul options.gamma.bits.toNat (binary64.ofNat (2 * asUsize options.m))) := by
    show F64.ofNatBits (binary64.mul (F64.ofNatBits _).bits.toNat _) = _
    rw [hword _ hfinite.le, Ieee754.Format.mul_comm]
  rw [Arith.Rounds64.f64Mul_eq two _ (by rw [hdouble]; exact (signed_ofNatBits hfinite.le).1),
    hdouble,
    Arith.Rounds64.f64Mul_eq _ _ (by rw [hproduct]; exact (signed_ofNatBits hle).1), hproduct]

/-- What the first test lets through. -/
theorem InRange.le_gammaLimit (haccepted : rejectExcessiveDegree options = .ok ()) :
    options.gamma.bits.toNat ≤ gammaLimit (asUsize options.m) := by
  obtain ⟨hlow, hhigh⟩ := h.links
  obtain ⟨⟨hpos, hfinite⟩, -⟩ := ofNat_finite _ hhigh hlow
  obtain ⟨hle, hproduct⟩ := h.layer0Degree_eq
  obtain ⟨hnumber, hsigned⟩ := signed_ofNatBits hle
  by_contra hgt
  rw [not_le] at hgt
  have hgamma := (bits_of_range h.one_le h.le_maxGamma).2.trans_lt maxGamma_toF64.2.2
  have hover : maxLayer0Degree.bits.toNat <
      binary64.mul options.gamma.bits.toNat (binary64.ofNat (2 * asUsize options.m)) :=
    (gammaLimit_spec _ hhigh hlow).2.2.1.trans_le
      (Ieee754.Format.mul_mono (by decide) (by decide) hgt hgamma.le hfinite hpos)
  have hmax : maxLayer0Degree.isNan = false ∧
      maxLayer0Degree.signed = maxLayer0Degree.bits.toNat := by decide
  have hrejected : (F64.ofNatBits (binary64.mul options.gamma.bits.toNat
      (binary64.ofNat (2 * asUsize options.m)))).gt maxLayer0Degree = true := by
    unfold F64.gt F64.lt
    rw [hmax.1, hmax.2, hnumber, hsigned]
    simpa using hover
  unfold rejectExcessiveDegree at haccepted
  rw [hproduct] at haccepted
  dsimp only at haccepted
  rw [if_pos hrejected] at haccepted
  cases haccepted

end

/-- Within the range a graph is clamped to, the clamp changes nothing. -/
theorem clampGamma_eq {gamma : F32} (hlow : F32.one.bits.toNat ≤ gamma.bits.toNat)
    (hhigh : gamma.bits.toNat ≤ HnswParams.maxGamma.bits.toNat) : clampGamma gamma = gamma := by
  have hone : F32.one.bits.toNat = 0x3F800000 ∧ F32.one.signed = 0x3F800000 := by decide
  have hmax : HnswParams.maxGamma.bits.toNat = 0x44800000 ∧
      HnswParams.maxGamma.signed = 0x44800000 := by decide
  have hsigned : gamma.signed = gamma.bits.toNat := by
    unfold F32.signed F32.isNeg F32.mag
    rw [if_neg (by rw [decide_eq_true_iff]; omega)]
    omega
  have hfinite : gamma.isFinite = true := by
    unfold F32.isFinite F32.mag
    rw [decide_eq_true_iff]
    omega
  unfold clampGamma F32.clamp F32.gt F32.lt
  rw [if_pos hfinite, hsigned, hone.2, hmax.2, if_neg, if_neg]
  · simp only [Bool.and_eq_true, decide_eq_true_eq]
    omega
  · simp only [Bool.and_eq_true, decide_eq_true_eq]
    omega

variable [Arith] [Arith.Rounds] [Arith.Rounds64]

/-- **What is accepted can be decoded**: a clause within range that the degree test lets through gives
parameters within the decoder's limits. -/
theorem legal_of_accepted {options : BrindleOptions} (h : options.InRange)
    (haccepted : rejectExcessiveDegree options = .ok ()) (metric : Metric) :
    Legal (buildParams metric (some options)) := by
  obtain ⟨hlow, hhigh⟩ := h.links
  obtain ⟨-, hpos, hfinite⟩ := ofNat_finite _ hhigh hlow
  obtain ⟨hbits, hone, hmax⟩ := h.toF32_bits
  refine ⟨hlow, hhigh, h.candidates.2.trans_lt (by decide), ?_⟩
  have hclamp : clampGamma options.gamma.toF32 = options.gamma.toF32 :=
    clampGamma_eq (hbits ▸ hone) (hbits ▸ hmax)
  obtain ⟨hlimit, htop, -, hdecodable⟩ := gammaLimit_spec _ hhigh hlow
  have hnarrow := narrow_mono (h.le_gammaLimit haccepted) hlimit
  have hinf : binary32.infBits = 0x7F800000 ∧ F32.one.bits.toNat = 0x3F800000 ∧
      HnswParams.maxGamma.bits.toNat = 0x44800000 := by decide
  show (Arith.f32Mul (F32.ofUsize (max (asUsize options.m) 2 * 2))
    (clampGamma options.gamma.toF32)).round.toUsize ≤ HnswParams.maxLayer0Degree
  rw [hclamp, max_eq_left hlow, Hnsw.cap_eq (by omega) (by omega), hbits,
    Ieee754.Format.mul_comm]
  refine le_trans ?_ hdecodable
  have hmul := Ieee754.Format.mul_mono (f := binary32) (by decide) (by decide) hnarrow htop hfinite
    hpos
  have hmul' := Ieee754.Format.mul_le_infBits (f := binary32) (by decide) (by decide) htop hfinite
    hpos
  have hround := Ieee754.Format.roundInt_mono (by decide) (by decide) hmul hmul'
  have hround' := Ieee754.Format.roundInt_le_infBits (by decide) (by decide) hmul'
  exact Ieee754.Format.truncNat_mono (by decide) (by decide) _ hround hround'

omit [Arith.Rounds64] in
theorem legal_default (metric : Metric) : Legal (buildParams metric none) := by
  have hbounds : 2 ≤ 16 ∧ 16 ≤ HnswParams.maxM ∧ 64 < 2 ^ 64 := by decide
  refine ⟨hbounds.1, hbounds.2.1, hbounds.2.2, ?_⟩
  have hclamp : clampGamma F32.one = F32.one := clampGamma_eq le_rfl (by decide)
  show (Arith.f32Mul (F32.ofUsize (max 16 2 * 2)) (clampGamma F32.one)).round.toUsize ≤
    HnswParams.maxLayer0Degree
  rw [hclamp, Hnsw.cap_eq (by decide) (by decide)]
  decide +kernel

/-- **No index that exists fails to decode for its parameters.** Whatever clause `CREATE INDEX`
accepts, every run of inserts and deletes on the index it creates gives a graph within the ceilings on
degrees, and its encoding decodes iff its reserved slots are within theirs. -/
theorem accepted_options_readable (parsed : Option BrindleOptions)
    (hrange : ∀ options ∈ parsed, options.InRange) (haccepted : amoptions parsed true = .ok parsed)
    (metric : Metric) (edits : List Edit)
    (hl : Along editStep EditLegal (Hnsw.new (buildParams metric parsed)) edits) :
    Ensures (run editStep (Hnsw.new (buildParams metric parsed)) edits) fun h =>
      h.mCap ≤ h.m0Cap ∧ h.m0Cap ≤ HnswParams.maxLayer0Degree ∧
        ∃ bytes, h.toBytes = .ok bytes ∧ ((∃ g, Hnsw.fromBytes bytes = .ok g) ↔ h.SlotsFit) := by
  have hlegal : Legal (buildParams metric parsed) := by
    cases parsed with
    | none => exact legal_default metric
    | some options =>
      refine legal_of_accepted (hrange options rfl) ?_ metric
      cases hreject : rejectExcessiveDegree options with
      | ok u => rfl
      | error e =>
        unfold amoptions at haccepted
        dsimp only at haccepted
        rw [hreject] at haccepted
        cases haccepted
  refine (Run.ensures_run (fun _ edit E hl => Encodable.editStep E edit hl) (Encodable.new hlegal)
    hl).mono fun h E => ?_
  exact ⟨E.configured.mCap_le_m0Cap, E.admissible.2.1,
    E.wellFormed.readable_iff E.configured E.admissible⟩

omit [Arith] [Arith.Rounds] [Arith.Rounds64] in
/-- Seven links a node, and the largest `gamma` accepted with them. The cast to `f32` takes it past
the limit, and rounding the cap brings it back. -/
def edgeOptions : BrindleOptions := ⟨7, 200, ⟨0x4062492492492492⟩⟩

omit [Arith] [Arith.Rounds] [Arith.Rounds64] in
theorem accepted_options_readable_edge :
    let params := buildParams .cosine (some edgeOptions)
    Ensures (run (@editStep Arith.ieee) (@Hnsw.new Arith.ieee params)
      [.insert [F32.one] [] 1, .delete 0]) fun h =>
      h.mCap ≤ h.m0Cap ∧ h.m0Cap ≤ HnswParams.maxLayer0Degree ∧
        ∃ bytes, h.toBytes = .ok bytes ∧
          ((∃ g, @Hnsw.fromBytes Arith.ieee bytes = .ok g) ↔ h.SlotsFit) := by
  let := Arith.ieee
  refine accepted_options_readable (some edgeOptions) ?_ (by decide +kernel) .cosine _
    (by decide +kernel)
  rintro options ⟨⟩
  decide +kernel

omit [Arith] [Arith.Rounds] [Arith.Rounds64] in
example : edgeOptions.gamma.lt edgeOptions.gamma.toF32.toF64 = true ∧
    (@Hnsw.new Arith.ieee (buildParams .cosine (some edgeOptions))).m0Cap = 2048 := by
  decide +kernel

end BrindleOptions

end Brindle
