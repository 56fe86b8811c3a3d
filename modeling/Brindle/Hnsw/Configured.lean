/-
# Brindle.Hnsw.Configured — the configuration a graph carries.

`new` clamps the parameters and derives the caps, the level normalizer and the ef floor from them;
the decoder derives them again from the `m` and the `gamma` it reads. The two agree because clamping
is idempotent. Inserts, deletes and compactions keep the configuration, and keep the generator's
state away from zero, where it would be stuck.
-/
import Brindle.Hnsw.Runs
import Brindle.Lib.Rounding

namespace Brindle

open Outcome (Ensures ensures_ok ensures_pure)
open Run (run Along After)
open Reader (Yields)

/-! ## The clamp -/

namespace F32

/-- A finite value neither below `lo` nor above `hi` lies between them. -/
theorem le_of_not_lt {a b : F32} (ha : a.isNan = false) (hb : b.isNan = false)
    (hlt : b.lt a = false) : a.le b = true := by
  simp only [lt, le, ha, hb, Bool.not_false, Bool.true_and, decide_eq_false_iff_not,
    decide_eq_true_eq] at hlt ⊢
  omega

theorem not_isNan_of_isFinite {a : F32} (ha : a.isFinite = true) : a.isNan = false := by
  simp only [isFinite, isNan, decide_eq_true_eq, decide_eq_false_iff_not] at ha ⊢
  omega

end F32

/-- The `gamma` a graph is built with. -/
def clampGamma (gamma : F32) : F32 :=
  if gamma.isFinite then gamma.clamp F32.one HnswParams.maxGamma else F32.one

theorem clampGamma_ok (gamma : F32) : (clampGamma gamma).isFinite = true ∧
    F32.one.le (clampGamma gamma) = true ∧ (clampGamma gamma).le HnswParams.maxGamma = true := by
  have hone : F32.one.isFinite = true ∧ F32.one.le F32.one = true ∧
      F32.one.le HnswParams.maxGamma = true := by decide
  have hmax : HnswParams.maxGamma.isFinite = true ∧ F32.one.le HnswParams.maxGamma = true ∧
      HnswParams.maxGamma.le HnswParams.maxGamma = true := by decide
  unfold clampGamma F32.clamp
  split_ifs with hfin hlow hhigh
  · exact hone
  · exact hmax
  · have hnan := F32.not_isNan_of_isFinite hfin
    rw [Bool.not_eq_true] at hlow hhigh
    exact ⟨hfin, F32.le_of_not_lt rfl hnan hlow, F32.le_of_not_lt hnan rfl hhigh⟩
  · exact hone

/-- Clamping a second time changes nothing. -/
theorem clampGamma_idem (gamma : F32) : clampGamma (clampGamma gamma) = clampGamma gamma := by
  obtain ⟨hfin, hlow, hhigh⟩ := clampGamma_ok gamma
  generalize clampGamma gamma = g at hfin hlow hhigh
  have hnotlow : ¬ g.lt F32.one = true := by
    simp only [F32.le, F32.lt, Bool.and_eq_true, decide_eq_true_eq] at hlow ⊢
    omega
  have hnothigh : ¬ g.gt HnswParams.maxGamma = true := by
    simp only [F32.le, F32.lt, F32.gt, Bool.and_eq_true, decide_eq_true_eq] at hhigh ⊢
    omega
  simp only [clampGamma, F32.clamp, hfin, if_true, if_neg hnotlow, if_neg hnothigh]

/-! ## The generator -/

/-- A word and its own shift to the left, added bit by bit. -/
def addLeft (k : Nat) (x : BitVec 64) : BitVec 64 := x ^^^ x <<< k

/-- A word and its own shift to the right. -/
def addRight (k : Nat) (x : BitVec 64) : BitVec 64 := x ^^^ x >>> k

/-- A shift added twice is a shift twice as far. -/
theorem addLeft_twice (k : Nat) (x : BitVec 64) : addLeft k (addLeft k x) = addLeft (k + k) x := by
  unfold addLeft
  rw [BitVec.shiftLeft_xor_distrib, ← BitVec.shiftLeft_add]
  calc x ^^^ x <<< k ^^^ (x <<< k ^^^ x <<< (k + k))
      = x ^^^ x <<< (k + k) ^^^ (x <<< k ^^^ x <<< k) := by ac_rfl
    _ = x ^^^ x <<< (k + k) := by rw [BitVec.xor_self, BitVec.xor_zero]

theorem addRight_twice (k : Nat) (x : BitVec 64) :
    addRight k (addRight k x) = addRight (k + k) x := by
  unfold addRight
  rw [BitVec.ushiftRight_xor_distrib, ← BitVec.shiftRight_add]
  calc x ^^^ x >>> k ^^^ (x >>> k ^^^ x >>> (k + k))
      = x ^^^ x >>> (k + k) ^^^ (x >>> k ^^^ x >>> k) := by ac_rfl
    _ = x ^^^ x >>> (k + k) := by rw [BitVec.xor_self, BitVec.xor_zero]

theorem addLeft_of_ge {k : Nat} (hk : 64 ≤ k) (x : BitVec 64) : addLeft k x = x := by
  rw [addLeft, BitVec.shiftLeft_eq_zero hk]
  exact BitVec.xor_zero

theorem addRight_of_ge {k : Nat} (hk : 64 ≤ k) (x : BitVec 64) : addRight k x = x := by
  rw [addRight, BitVec.ushiftRight_eq_zero hk]
  exact BitVec.xor_zero

/-- The state that was left for `word`: each shift is doubled until nothing is left of it. -/
def unxorshift64 (word : UInt64) : UInt64 :=
  let x := word ^^^ (word <<< 17)
  let x := x ^^^ (x <<< 34)
  let x := x ^^^ (x >>> 7)
  let x := x ^^^ (x >>> 14)
  let x := x ^^^ (x >>> 28)
  let x := x ^^^ (x >>> 56)
  let x := x ^^^ (x <<< 13)
  let x := x ^^^ (x <<< 26)
  x ^^^ (x <<< 52)

theorem unxorshift64_xorshift64 : Function.LeftInverse unxorshift64 xorshift64 := by
  intro state
  apply UInt64.toBitVec_inj.mp
  show addLeft 52 (addLeft 26 (addLeft 13 (addRight 56 (addRight 28 (addRight 14 (addRight 7
    (addLeft 34 (addLeft 17 (addLeft 17 (addRight 7 (addLeft 13 state.toBitVec))))))))))) = _
  rw [addLeft_twice 17, addLeft_twice 34, addLeft_of_ge (k := 34 + 34) (by decide)]
  rw [addRight_twice 7, addRight_twice 14, addRight_twice 28, addRight_twice 56,
    addRight_of_ge (k := 56 + 56) (by decide)]
  rw [addLeft_twice 13, addLeft_twice 26, addLeft_twice 52,
    addLeft_of_ge (k := 52 + 52) (by decide)]

/-- Different states are followed by different states. -/
theorem xorshift64_injective : Function.Injective xorshift64 := unxorshift64_xorshift64.injective

theorem xorshift64_zero : xorshift64 0 = 0 := by decide

/-- The generator never gets stuck. -/
theorem xorshift64_ne_zero {state : UInt64} (h : state ≠ 0) : xorshift64 state ≠ 0 := by
  intro hzero
  exact h (xorshift64_injective (hzero.trans xorshift64_zero.symm))

namespace Hnsw

variable [Arith]

/-! ## New graphs -/

theorem derivedParams_clamp (m : Nat) (gamma : F32) :
    derivedParams m (clampGamma gamma) = derivedParams m gamma := by
  have hform : ∀ g, derivedParams m g =
      { gamma := clampGamma g
        mCap := (Arith.f32Mul (F32.ofUsize m) (clampGamma g)).round.toUsize
        m0Cap := (Arith.f32Mul (F32.ofUsize (m * 2)) (clampGamma g)).round.toUsize
        ml := Arith.f64Div F64.one (Arith.f64Ln (F64.ofUsize m))
        efFloor := if (clampGamma g).gt F32.one
          then (Arith.f32Mul (F32.ofUsize (m * 2)) (clampGamma g)).round.toUsize else m } :=
    fun _ => rfl
  rw [hform, hform gamma, clampGamma_idem]

omit [Arith] in
theorem toUsize_lt (x : F32) : x.toUsize < 2 ^ 64 := by
  unfold F32.toUsize Ieee754.Format.truncNat
  split <;> try split_ifs
  all_goals omega

theorem Configured.new {params : HnswParams} (hm : params.m < 2 ^ 64)
    (hef : params.efConstruction < 2 ^ 64) : Configured (Hnsw.new params) where
  m_ge := Nat.le_max_right ..
  m_word := max_lt hm (by decide)
  gamma_ok := clampGamma_ok params.gamma
  mCap_eq := congrArg DerivedParams.mCap (derivedParams_clamp _ _).symm
  m0Cap_eq := congrArg DerivedParams.m0Cap (derivedParams_clamp _ _).symm
  ml_eq := congrArg DerivedParams.ml (derivedParams_clamp _ _).symm
  ef_ge := by
    show (derivedParams (max params.m 2) (clampGamma params.gamma)).efFloor ≤ _
    rw [derivedParams_clamp]
    exact Nat.le_max_right ..
  ef_word := by
    have hm0 : (derivedParams (max params.m 2) params.gamma).m0Cap < 2 ^ 64 := toUsize_lt _
    have hm' : max params.m 2 < 2 ^ 64 := max_lt hm (by decide)
    refine max_lt hef ?_
    show (if (clampGamma params.gamma).gt F32.one
      then (derivedParams (max params.m 2) params.gamma).m0Cap else max params.m 2) < _
    split_ifs
    · exact hm0
    · exact hm'
  seed_ne := by
    show (if params.seed = 0 then defaultSeed else params.seed) ≠ 0
    split_ifs with hz
    · decide
    · exact hz
  rng_ne := by
    show (if params.seed = 0 then defaultSeed else params.seed) ≠ 0
    split_ifs with hz
    · decide
    · exact hz
  attrs_word := nofun

/-! ## The degree caps -/

omit [Arith] in
theorem ofNatBits_toNat {n : Nat} (hn : n < 2 ^ 32) : (F32.ofNatBits n).bits.toNat = n :=
  UInt32.toNat_ofNat_of_lt' hn

omit [Arith] in
/-- A pattern up to the infinity's is not a NaN. -/
theorem ofNatBits_not_nan {n : Nat} (hn : n ≤ Ieee754.binary32.infBits) :
    (F32.ofNatBits n).isNan = false := by
  have hinf : Ieee754.binary32.infBits = 0x7F800000 := by decide
  simp only [F32.isNan, F32.mag, ofNatBits_toNat (show n < 2 ^ 32 by omega),
    decide_eq_false_iff_not]
  omega

section Caps

open Ieee754 (binary32)

omit [Arith] in
/-- A factor from one up is the pattern of a positive finite value. -/
theorem gamma_bits {gamma : F32} (hfinite : gamma.isFinite = true)
    (hone : F32.one.le gamma = true) :
    0 < gamma.bits.toNat ∧ gamma.bits.toNat < binary32.infBits := by
  have hinf : binary32.infBits = 0x7F800000 := by decide
  have hunit : F32.one.signed = 0x3F800000 := by decide
  have hlt : gamma.bits.toNat < 2 ^ 32 := gamma.bits.toNat_lt
  simp only [F32.le, Bool.and_eq_true, decide_eq_true_eq] at hone
  have hsigned := hone.2
  rw [hunit] at hsigned
  simp only [F32.signed, F32.isNeg, F32.mag, decide_eq_true_eq] at hsigned
  have hmag : gamma.bits.toNat % 0x80000000 < 0x7F800000 := of_decide_eq_true hfinite
  split_ifs at hsigned <;> omega

/-- The cap computed for `n` links a node. -/
theorem cap_eq [Arith.Rounds] {gamma : F32} (hpos : 0 < gamma.bits.toNat)
    (hfinite : gamma.bits.toNat < binary32.infBits) (n : Nat) :
    (Arith.f32Mul (F32.ofUsize n) gamma).round.toUsize = binary32.truncNat (2 ^ 64 - 1)
      (binary32.roundInt (binary32.mul (binary32.ofNat n) gamma.bits.toNat)) := by
  have hprec : 1 < binary32.prec := by decide
  have hexp : 0 < binary32.expBits := by decide
  have hinf : binary32.infBits = 0x7F800000 := by decide
  have hn : binary32.ofNat n ≤ binary32.infBits :=
    Ieee754.Format.ofNat_le_infBits (Nat.zero_lt_of_lt hprec) n
  have hmul := Ieee754.Format.mul_le_infBits hprec hexp hn hfinite hpos
  have hround := Ieee754.Format.roundInt_le_infBits hprec hexp hmul
  have hword : ∀ x ≤ binary32.infBits, (F32.ofNatBits x).bits.toNat = x :=
    fun x hx => ofNatBits_toNat (by omega)
  have hieee : Arith.ieee.f32Mul (F32.ofUsize n) gamma =
      F32.ofNatBits (binary32.mul (binary32.ofNat n) gamma.bits.toNat) := by
    show F32.ofNatBits (binary32.mul (F32.ofNatBits (binary32.ofNat n)).bits.toNat _) = _
    rw [hword _ hn]
  have hproduct : Arith.f32Mul (F32.ofUsize n) gamma =
      F32.ofNatBits (binary32.mul (binary32.ofNat n) gamma.bits.toNat) := by
    rw [Arith.Rounds.f32Mul_eq _ _ (by rw [hieee]; exact ofNatBits_not_nan hmul), hieee]
  rw [hproduct, F32.round, F32.toUsize, hword _ hmul, hword _ hround]

/-- The cap above layer 0 is at most the cap there, whatever `gamma` the two are scaled by. -/
theorem derivedParams_mCap_le [Arith.Rounds] (m : Nat) (gamma : F32) :
    (derivedParams m gamma).mCap ≤ (derivedParams m gamma).m0Cap := by
  have hprec : 1 < binary32.prec := by decide
  have hexp : 0 < binary32.expBits := by decide
  obtain ⟨hfinite₀, hge, -⟩ := clampGamma_ok gamma
  obtain ⟨hpos, hfinite⟩ := gamma_bits hfinite₀ hge
  show (Arith.f32Mul (F32.ofUsize m) (clampGamma gamma)).round.toUsize ≤
    (Arith.f32Mul (F32.ofUsize (m * 2)) (clampGamma gamma)).round.toUsize
  rw [cap_eq hpos hfinite, cap_eq hpos hfinite]
  have hdouble : binary32.ofNat m ≤ binary32.ofNat (m * 2) :=
    Ieee754.Format.ofNat_mono (Nat.zero_lt_of_lt hprec) (by omega)
  have hn : binary32.ofNat (m * 2) ≤ binary32.infBits :=
    Ieee754.Format.ofNat_le_infBits (Nat.zero_lt_of_lt hprec) _
  have hmul := Ieee754.Format.mul_mono hprec hexp hdouble hn hfinite hpos
  have hmul' := Ieee754.Format.mul_le_infBits hprec hexp hn hfinite hpos
  have hround := Ieee754.Format.roundInt_mono hprec hexp hmul hmul'
  have hround' := Ieee754.Format.roundInt_le_infBits hprec hexp hmul'
  exact Ieee754.Format.truncNat_mono hprec hexp _ hround hround'

/-- A layer-0 list may hold at least as many links as one above. -/
theorem Configured.mCap_le_m0Cap [Arith.Rounds] {h : Hnsw} (C : Configured h) :
    h.mCap ≤ h.m0Cap := by
  rw [C.mCap_eq, C.m0Cap_eq]
  exact derivedParams_mCap_le h.m h.gamma

end Caps

/-! ## Changes -/

section Insert

variable {h g : Hnsw} {vector : List F32} {attrs : List AttrValue} {level : Nat}

/-- Storing a node moves the generator on and adds an attribute row. -/
theorem Configured.stored (C : Configured h) (hrow : attrs.length < 2 ^ 64) :
    Configured (h.stored vector attrs level) :=
  { C with
    rng_ne := xorshift64_ne_zero C.rng_ne
    attrs_word := fun row hmem => by
      rcases List.mem_append.mp hmem with hmem | hmem
      · exact C.attrs_word row hmem
      · rw [List.mem_singleton.mp hmem]
        exact hrow }

theorem Configured.relinked {touched : Nat → Nat → Prop} (R : Relinked touched h g) :
    Configured g ↔ Configured h :=
  iff_of_eq (R.field Configured fun _ _ => propext ⟨fun C => { C with }, fun C => { C with }⟩)

theorem Configured.settleEntry (id : Nat) : Configured (settleEntry g id level) ↔ Configured g :=
  iff_of_eq (settleEntry_field g id level Configured fun _ _ =>
    propext ⟨fun C => { C with }, fun C => { C with }⟩)

omit [Arith] in
theorem settleEntry_maxLayer_le (id : Nat) :
    (Hnsw.settleEntry g id level).maxLayer ≤ max g.maxLayer level := by
  cases he : g.entryPoint with
  | none =>
    rw [(settleEntry_none id level he).2]
    exact Nat.le_max_right ..
  | some e =>
    rcases settleEntry_some id level he with ⟨-, -, htop⟩ | ⟨-, -, htop⟩
    · rw [htop]
      exact Nat.le_max_left ..
    · rw [htop]
      exact Nat.le_max_right ..

end Insert

/-- What a change keeps besides the structure. -/
structure Keeps (h h' : Hnsw) (level : Nat) : Prop where
  wellFormed : WellFormed h'
  configured : Configured h'
  m_eq : h'.m = h.m
  m0Cap_eq : h'.m0Cap = h.m0Cap
  top_le : h'.maxLayer ≤ max h.maxLayer level

theorem Keeps.refl {h : Hnsw} (W : WellFormed h) (C : Configured h) (level : Nat) :
    Keeps h h level :=
  ⟨W, C, rfl, rfl, Nat.le_max_left ..⟩

theorem WellFormed.insertDrawn_keeps {h : Hnsw} (W : WellFormed h) (C : Configured h)
    (vector : List F32) {attrs : List AttrValue} (hrow : attrs.length < 2 ^ 64) {level : Nat}
    (hfit : h.base h.n + (level + 1) < 2 ^ 32) :
    Ensures (h.insertDrawn vector attrs level) fun r => Keeps h r.1 level := by
  by_cases ha : h.Accepts vector
  · refine (W.insertDrawn_wired attrs ha hfit).mono ?_
    rintro ⟨h', r⟩ ⟨-, plan, g, hlevel, hok, hw, hset⟩
    dsimp only at hset ⊢
    subst hset
    have R := hw.relinked
    refine ⟨W.wired attrs ha hok hw hfit hlevel, ?_, ?_, ?_, ?_⟩
    · exact (Configured.settleEntry h.n).mpr ((Configured.relinked R).mpr (C.stored hrow))
    · exact (settleEntry_field g h.n level Hnsw.m fun _ _ => rfl).trans
        (R.field Hnsw.m fun _ _ => rfl)
    · exact (settleEntry_field g h.n level Hnsw.m0Cap fun _ _ => rfl).trans
        (R.field Hnsw.m0Cap fun _ _ => rfl)
    · have htop : g.maxLayer = h.maxLayer := R.maxLayer_eq
      rw [← htop]
      exact settleEntry_maxLayer_le h.n
  · obtain ⟨e, he⟩ := acceptVector_error ha
    unfold Hnsw.insertDrawn
    rw [he]
    exact ensures_ok.mpr (Keeps.refl W C level)

theorem Configured.delete {h h' : Hnsw} {id : Nat} (C : Configured h)
    (hdel : h.delete id = .ok h') : Configured h' := by
  obtain ⟨-, rfl⟩ := delete_eq hdel
  exact { C with }

/-! ## Runs -/

/-- A change that brings a row brings one whose width is a machine word. -/
def RowFits : Edit → Prop
  | .insert _ attrs _ => attrs.length < 2 ^ 64
  | .delete _ => True

instance : DecidablePred RowFits
  | .insert _ attrs _ => inferInstanceAs (Decidable (attrs.length < 2 ^ 64))
  | .delete _ => inferInstanceAs (Decidable True)

theorem WellFormed.editStep_configured {h : Hnsw} (W : WellFormed h) (C : Configured h)
    {edit : Edit} (hfit : h.EditFits edit) (hrow : RowFits edit) :
    Ensures (h.editStep edit) fun h' => WellFormed h' ∧ Configured h' := by
  refine (W.editStep edit hfit).and ?_
  rcases edit with ⟨vector, attrs, level⟩ | id
  · exact (W.insertDrawn_keeps C vector hrow hfit).bind fun r K => ensures_pure.mpr K.configured
  · rcases hdel : h.delete id with e | g <;> simp only [Hnsw.editStep, hdel]
    · exact ensures_pure.mpr C
    · exact ensures_pure.mpr (C.delete hdel)

/-- A run of changes from a new graph keeps the configuration with the structure. -/
theorem configured_edits {params : HnswParams} (hm : params.m < 2 ^ 64)
    (hef : params.efConstruction < 2 ^ 64) {edits : List Edit}
    (hfit : Along editStep EditFits (Hnsw.new params) edits) (hrow : ∀ edit ∈ edits, RowFits edit) :
    Ensures (run editStep (Hnsw.new params) edits) fun h => WellFormed h ∧ Configured h :=
  Run.ensures_run (fun _ _ hI hC => hI.1.editStep_configured hI.2 hC.1 hC.2)
    ⟨WellFormed.new params, Configured.new hm hef⟩ (Run.along_and hfit hrow)

omit [Arith] in
theorem soldGraph_configured : Ensures soldGraph fun h => WellFormed h ∧ @Configured Arith.ieee h :=
  @configured_edits Arith.ieee sparseParams (by decide) (by decide) _ soldEdits_fit (by decide)

/-! ## Decoded graphs -/

/-- What the decoder's checks make of the configuration in a header. -/
structure HeaderConfigured (hdr : GraphHeader) : Prop where
  m_ge : 2 ≤ hdr.m
  m_word : hdr.m < 2 ^ 64
  gamma_ok : hdr.gamma.isFinite = true ∧ F32.one.le hdr.gamma = true ∧
    hdr.gamma.le HnswParams.maxGamma = true
  derived_eq : hdr.derived = derivedParams hdr.m hdr.gamma
  ef_ge : hdr.derived.efFloor ≤ hdr.efConstruction
  ef_word : hdr.efConstruction < 2 ^ 64
  seed_ne : hdr.seed ≠ 0
  rng_ne : hdr.rng ≠ 0

omit [Arith] in
theorem yields_readLen : Yields (Decoder.readLen : Decoder (List UInt8) Nat) (· < 2 ^ 64) := by
  unfold Decoder.readLen Decoder.u64 Decoder.readLe
  refine (yields_readExact 8).bind fun bs hbs => Yields.pure ?_
  have hlt := Bytes.ofLe_lt bs
  rw [hbs] at hlt
  exact hlt

theorem yields_header_configured :
    Yields (readHeader : Decoder (List UInt8) GraphHeader) HeaderConfigured := by
  unfold readHeader
  refine (Yields.any _).bind fun _ _ => (Yields.any _).bind fun _ _ => ?_
  refine (Yields.any _).bind fun _ _ => (Yields.any _).bind fun _ _ => ?_
  refine (Yields.any _).bind fun _ _ => (Yields.any _).bind fun _ _ => ?_
  refine (Yields.any _).bind fun _ _ => yields_readLen.bind fun m hm => ?_
  refine (yields_require _ _).bind fun _ hrange => (Yields.any _).bind fun gamma _ => ?_
  refine (yields_require _ _).bind fun _ hgamma => (Yields.any _).bind fun _ _ => ?_
  refine yields_readLen.bind fun ef hef => (yields_require _ _).bind fun _ hfloor => ?_
  refine (Yields.any _).bind fun _ _ => (Yields.any _).bind fun _ _ => ?_
  refine (Yields.any _).bind fun _ _ => (Yields.any _).bind fun _ _ => ?_
  refine (Yields.any _).bind fun _ _ => (Yields.any _).bind fun _ _ => ?_
  refine (yields_require _ _).bind fun _ hwords => (Yields.any _).bind fun _ _ => ?_
  refine (Yields.any _).bind fun _ _ => (Yields.any _).bind fun _ _ => ?_
  refine (Yields.any _).bind fun _ _ => (Yields.any _).bind fun _ _ => Yields.pure ?_
  simp only [Bool.and_eq_true, decide_eq_true_eq] at hrange hgamma hfloor hwords
  exact ⟨hrange.1, hm, ⟨hgamma.1.1, hgamma.1.2, hgamma.2⟩, rfl, hfloor, hef, hwords.1, hwords.2⟩

omit [Arith] in
/-- An attribute row read back has the length its prefix said. -/
theorem yields_attrRow : Yields (readAttrRow : Decoder (List UInt8) (List AttrValue))
    fun row => row.length < 2 ^ 64 := by
  unfold readAttrRow
  refine yields_readLen.bind fun count hcount => (Yields.any _).bind fun _ _ => ?_
  refine (Yields.any _).bind fun _ _ => ?_
  refine (yields_times (Q := fun _ => True) (Yields.any _) count).mono fun row hrow => ?_
  rw [hrow.1]
  exact hcount

omit [Arith] in
theorem yields_node_attrs {hdr : GraphHeader} {ceiling : Nat} {tables : NodeTables}
    (ht : ∀ row ∈ tables.attrs, row.length < 2 ^ 64) :
    Yields (readNode hdr ceiling tables : Decoder (List UInt8) _) fun tables' =>
      ∀ row ∈ tables'.attrs, row.length < 2 ^ 64 := by
  unfold readNode
  refine (Yields.any _).bind fun _ _ => (Yields.any _).bind fun _ _ => ?_
  refine (Yields.any _).bind fun _ _ => (Yields.any _).bind fun _ _ => ?_
  refine (Yields.any _).bind fun _ _ => (Yields.any _).bind fun _ _ => ?_
  refine (Yields.any _).bind fun _ _ => (Yields.any _).bind fun _ _ => ?_
  refine (Yields.any _).bind fun _ _ => (Yields.any _).bind fun _ _ => ?_
  refine yields_attrRow.bind fun attrs hattrs => Yields.pure fun row hrow => ?_
  rcases List.mem_append.mp hrow with hrow | hrow
  · exact ht row hrow
  · rw [List.mem_singleton.mp hrow]
    exact hattrs

omit [Arith] in
theorem yields_nodes_attrs (hdr : GraphHeader) (ceiling count : Nat) {tables : NodeTables}
    (ht : ∀ row ∈ tables.attrs, row.length < 2 ^ 64) :
    Yields (readNodes hdr ceiling count tables : Decoder (List UInt8) _) fun tables' =>
      ∀ row ∈ tables'.attrs, row.length < 2 ^ 64 := by
  induction count generalizing tables with
  | zero => exact Yields.pure ht
  | succ count ih =>
    rw [readNodes]
    exact (yields_node_attrs ht).bind fun tables' ht' => ih ht'

/-- Whatever the decoder accepts is configured as `new` configures. -/
theorem fromBytes_configured {bytes : List UInt8} {h : Hnsw}
    (hdec : Hnsw.fromBytes bytes = .ok h) : Configured h := by
  have hyields : Yields (Hnsw.fromGraphBytes : Decoder (List UInt8) Hnsw) Configured := by
    have hnone : ∀ row ∈ ({} : NodeTables).attrs, row.length < 2 ^ 64 := by simp
    unfold Hnsw.fromGraphBytes
    refine yields_header_configured.bind fun hdr H => (Yields.any _).bind fun _ _ => ?_
    refine (yields_nodes_attrs hdr _ hdr.n hnone).bind fun tables ht => ?_
    refine (Yields.any _).bind fun _ _ => (Yields.any _).bind fun _ _ => ?_
    refine (Yields.any _).bind fun _ _ => Yields.pure ?_
    have hderived := H.derived_eq
    exact
      { m_ge := H.m_ge
        m_word := H.m_word
        gamma_ok := H.gamma_ok
        mCap_eq := congrArg DerivedParams.mCap hderived
        m0Cap_eq := congrArg DerivedParams.m0Cap hderived
        ml_eq := congrArg DerivedParams.ml hderived
        ef_ge := hderived ▸ H.ef_ge
        ef_word := H.ef_word
        seed_ne := H.seed_ne
        rng_ne := H.rng_ne
        attrs_word := ht }
  exact fromBytes_yields hyields hdec

end Hnsw

end Brindle
