/-
# Brindle.Hnsw.Numeric — under L2 every distance is a number.

A vector of the type has finite components: `validate` sees to that. Their differences may overflow to an
infinity but are never a NaN, squares are not negative, and sums of what is not negative are not a NaN
either. So whatever is inserted, deleted and compacted, an L2 graph computes with numbers from zero up:
no layer search turns a nearer node away, and a stored vector is at distance zero from itself.
-/
import Brindle.Hnsw.Compaction
import Brindle.Hnsw.Discards
import Brindle.Operators
import Brindle.PgVector

namespace Brindle

open Outcome (Ensures ensures_pure)
open PgVector (validate)
open Run (run Along After after_iff)

/-- Every component is finite. -/
def FiniteVector (vector : List F32) : Prop := ∀ x ∈ vector, x.isFinite = true

theorem finiteVector_of_validate {vector : List F32} (h : validate vector = .ok ()) :
    FiniteVector vector :=
  ((PgVector.validate_eq_ok_iff vector).mp h).2.2

/-- What is inserted is a value of the vector type. -/
def Op.Valid : Op → Prop
  | .edit (.insert vector _ _) => validate vector = .ok ()
  | _ => True

instance : DecidablePred Op.Valid
  | .edit (.insert vector _ _) => inferInstanceAs (Decidable (validate vector = .ok ()))
  | .edit (.delete _) => inferInstanceAs (Decidable True)
  | .compact _ => inferInstanceAs (Decidable True)

namespace Hnsw

/-- An L2 graph whose rows have finite vectors. -/
structure Numeric (h : Hnsw) : Prop where
  rowed : Rowed h
  metric_eq : h.metric = .l2
  finite : ∀ row ∈ h.rows, FiniteVector row.vector

theorem Numeric.vec {h : Hnsw} (N : Numeric h) {id : Nat} (hid : id < h.n) :
    FiniteVector (h.vec id) :=
  N.finite (h.rowAt id) (List.mem_map.mpr ⟨id, List.mem_range.mpr hid, rfl⟩)

section Runs

variable [Arith] {h : Hnsw}

theorem Numeric.new {params : HnswParams} (hmetric : params.metric = .l2) :
    Numeric (Hnsw.new params) where
  rowed := (WellFormed.new params).toSound.rowed
  metric_eq := hmetric
  finite := by
    intro row hrow
    simp [rows, Hnsw.new] at hrow

theorem Numeric.insertDrawn (N : Numeric h) {vector : List F32} (hvector : FiniteVector vector)
    (attrs : List AttrValue) (level : Nat) :
    After (fun r => Numeric r.1) (h.insertDrawn vector attrs level) := by
  refine ((insertDrawn_rows N.rowed vector attrs level).and
    (after_insertDrawn h vector attrs level)).mono ?_
  rintro ⟨g, r⟩ ⟨⟨hrowed, hrows⟩, A⟩
  refine ⟨hrowed, (congrArg HnswParams.metric A.params_eq).trans N.metric_eq, fun row hrow => ?_⟩
  rcases r with e | id
  · exact N.finite row (hrows ▸ hrow)
  · rw [hrows.2] at hrow
    rcases List.mem_append.mp hrow with hrow | hrow
    · exact N.finite row hrow
    · rw [List.mem_singleton.mp hrow]
      exact hvector

omit [Arith] in
theorem Numeric.delete (N : Numeric h) {g : Hnsw} {id : Nat} (hdel : h.delete id = .ok g) :
    Numeric g := by
  obtain ⟨hrowed, -, hrows⟩ := delete_rows N.rowed hdel
  obtain ⟨-, rfl⟩ := delete_eq hdel
  refine ⟨hrowed, N.metric_eq, fun row hrow => ?_⟩
  rw [hrows] at hrow
  obtain ⟨i, hi⟩ := List.mem_iff_getElem?.mp hrow
  rw [List.getElem?_modify] at hi
  obtain ⟨old, hold, rfl⟩ := Option.map_eq_some_iff.mp hi
  have hfinite := N.finite old (List.mem_of_getElem? hold)
  split_ifs <;> exact hfinite

/-- A rebuild inserts vectors that the graph had. -/
theorem Numeric.compactDrawn (N : Numeric h) (W : WellFormed h) (draws : List Nat) :
    After (fun r => Numeric r.1) (h.compactDrawn draws) := by
  unfold Hnsw.compactDrawn
  rw [W.toLayout.liveRows_eq, Outcome.ok_bind]
  refine After.bind (P := Numeric) ?_ fun g hg => hg
  refine Run.after_foldlM_const Numeric _ ?_ (Numeric.new N.metric_eq)
  intro row g hrow G
  have hlive : row.1 ∈ h.liveIds.map h.rowOf := by
    have hmem := List.mem_map_of_mem (f := Prod.fst) hrow
    rwa [List.zipIdx_map_fst] at hmem
  obtain ⟨id, hid, heq⟩ := List.mem_map.mp hlive
  have hlt : id < h.n := List.mem_range.mp (List.mem_filter.mp hid).1
  refine (G.insertDrawn (heq ▸ N.vec hlt : FiniteVector row.1.1) row.1.2 _).bind ?_
  rintro ⟨g', r⟩ hg'
  rcases r with e | id
  · trivial
  · exact hg'

theorem Numeric.opStep (N : Numeric h) (W : WellFormed h) (op : Op) (hvalid : op.Valid) :
    After Numeric (h.opStep op) := by
  rcases op with edit | draws
  · rcases edit with ⟨vector, attrs, level⟩ | id
    · exact (N.insertDrawn (finiteVector_of_validate hvalid) attrs level).bind fun r hr => hr
    · rcases hdel : h.delete id with e | g <;> simp only [Hnsw.opStep, editStep, hdel]
      · exact N
      · exact N.delete hdel
  · have hcompact := N.compactDrawn W draws
    rcases hrun : h.compactDrawn draws with fault | ⟨fresh, n⟩
    · rcases fault with e | _ | _ <;> simp only [Hnsw.opStep, hrun]
      · exact N
      · trivial
      · trivial
    · rw [hrun] at hcompact
      simp only [Hnsw.opStep, hrun]
      exact hcompact

/-! ## What is computed -/

section Computed

variable [Arith.Conforms]

/-- The distance to a stored vector is a number from zero up. -/
theorem Numeric.scored_nonneg (N : Numeric h) (L : Layout h) {query : List F32}
    (hquery : FiniteVector query) (hq : query.length = h.dim) {id : Nat} (hid : id < h.n) :
    (h.scored query id).dist.Nonneg := by
  have hdist := Metric.distance_eq .l2 (hq.trans (L.vec_length hid).symm)
  show (h.metric.value query (h.vec id)).Nonneg
  rw [N.metric_eq]
  exact l2Squared_nonneg hquery (N.vec hid) hdist

/-- And the stored vector itself is at zero. -/
theorem Numeric.scored_self (N : Numeric h) {id : Nat} (hid : id < h.n) :
    (h.scored (h.vec id) id).dist = F32.zero := by
  show h.metric.value (h.vec id) (h.vec id) = F32.zero
  have hself : Metric.distance .l2 (h.vec id) (h.vec id) = .ok F32.zero := l2Squared_self (N.vec hid)
  rw [N.metric_eq, Metric.value, hself]

omit [Arith.Conforms] in
/-- A layer search that returns numbers has lost nothing nearer. -/
theorem searchLayer_keepsNearest_of_numbers (H : InRange h) {query : List F32}
    (hq : query.length = h.dim) {seeds : List Nat} (hseeds : ∀ x ∈ seeds, x < h.n) {ef : Nat}
    (hef : 0 < ef) (layer : Nat) (predicate : Option Predicate) (tr : Traversal)
    (hnumbers : ∀ id < h.n, (h.scored query id).dist.isNan = false) :
    Ensures (h.searchLayerTraced query seeds ef layer predicate tr) fun r =>
      h.searchLayer query seeds ef layer predicate tr = .ok (r.1, r.2.1) ∧
        h.KeepsNearest query predicate r.1 r.2.2 := by
  have hseeded : After (fun t => Once [] t ∧ Settled h query predicate ef true t)
      (h.seedBeamTraced query predicate seeds { beam := Beam.new ef tr }) :=
    seedBeamTraced_keeps
      (fun t id hnew ⟨O, S⟩ => ⟨O.queue (c := h.scored query id) hnew true _ _, S.seed hef hnew⟩)
      seeds ⟨Once.new ef tr, Settled.new h query predicate ef true tr⟩
  have hsettled : After (fun r => (∀ c ∈ r.1, c.id < h.n) → h.KeepsNearest query predicate r.1 r.2.2)
      (h.searchLayerTraced query seeds ef layer predicate tr) := by
    refine hseeded.bind fun t ⟨O, S⟩ => ?_
    refine After.bind ((searchRoundsTraced_keeps Once.lawful (h.n + 1) O).and
      (searchRoundsTraced_keeps (Settled.lawful hef) (h.n + 1) S.seeded)) fun t' ⟨O', S'⟩ => ?_
    intro hlt
    refine (S'.keepsNearest_iff O').mpr ?_
    -- one unfair distance and a NaN is returned
    by_contra hunfair
    push Not at hunfair
    obtain ⟨-, v, -, -, r, hr, hrnan, -⟩ := S'.spoilt hunfair
    rw [S'.heap.ranked.2 r hr, hnumbers r.id (hlt r hr)] at hrnan
    cases hrnan
  have hspec : Ensures (h.searchLayer query seeds ef layer predicate tr) _ :=
    searchLayer_spec H hq hseeds ef layer tr
  obtain ⟨hits, hreturns, F⟩ := hspec
  rw [← searchLayerTraced_erase] at hreturns ⊢
  rcases hrun : h.searchLayerTraced query seeds ef layer predicate tr with fault | r
  · rw [hrun] at hreturns
    cases hreturns
  · rw [hrun] at hreturns
    have heq : (r.1, r.2.1) = hits := Except.ok.inj hreturns
    refine ⟨r, rfl, rfl, hsettled.elim hrun fun c hc => F.lt c ?_⟩
    rw [← heq]
    exact hc

/-- The exact search for a live stored vector starts at distance zero. -/
theorem Numeric.bruteForce_self (N : Numeric h) (L : Layout h) {id : Nat} (hid : h.Live id) (k : Nat) :
    Ensures (h.bruteForce (h.vec id) (k + 1)) fun hits => ∃ p rest, hits = p :: rest ∧
      p.1 = F32.zero := by
  obtain ⟨full, R, hbrute⟩ := bruteForce_ranking L (L.vec_length hid.1) (k + 1)
  have hmem := (R.mem_iff id).mpr hid
  rcases full with _ | ⟨c, full⟩
  · cases hmem
  refine ⟨_, hbrute, (c.dist, c.id), _, rfl, ?_⟩
  have hc := R.scored c List.mem_cons_self
  have hlive : h.Live c.id := (R.mem_iff c.id).mp (hc ▸ List.mem_cons_self)
  have hnonneg := N.scored_nonneg L (N.vec hid.1) (L.vec_length hid.1) hlive.1
  rw [← hc] at hnonneg
  -- nothing is before the vector itself, at zero
  have hle : c ≤ h.scored (h.vec id) id := by
    rcases List.mem_cons.mp hmem with heq | hmem
    · exact heq.ge
    · exact ((List.pairwise_cons.mp R.sorted).1 _ hmem).le
  have hkey := Cand.totalKey_le hle
  rw [N.scored_self hid.1] at hkey
  refine F32.totalKey_injective (le_antisymm hkey ?_)
  have hinf : Ieee754.binary32.infBits = 0x7F800000 := by decide
  unfold F32.Nonneg at hnonneg
  simp only [F32.totalKey, F32.isNeg, F32.mag, decide_eq_true_eq, F32.zero]
  split_ifs <;> simp <;> omega

/-- **An L2 graph keeps the nearest.** After every run of inserts of vectors of the type, deletes and
compactions, every distance from a vector of the type is a number from zero up, no layer search turns
away a node nearer than a hit, and the exact search for a stored vector starts at distance zero. -/
theorem l2_run (params : HnswParams) (hmetric : params.metric = .l2) (ops : List Op)
    (hvalid : ∀ op ∈ ops, op.Valid) (hfit : Along Hnsw.opStep OpFits (Hnsw.new params) ops) :
    Ensures (run Hnsw.opStep (Hnsw.new params) ops) fun h =>
      (∀ query, validate query = .ok () → query.length = h.dim →
        (∀ id < h.n, ∃ v d, h.vector id = .ok v ∧ h.distance query v = .ok d ∧ d.Nonneg) ∧
        ∀ (seeds : List Nat), (∀ x ∈ seeds, x < h.n) → ∀ ef, 0 < ef →
          ∀ (layer : Nat) (predicate : Option Predicate) (tr : Traversal),
            Ensures (h.searchLayerTraced query seeds ef layer predicate tr) fun r =>
              h.searchLayer query seeds ef layer predicate tr = .ok (r.1, r.2.1) ∧
                h.KeepsNearest query predicate r.1 r.2.2) ∧
      ∀ id, h.Live id → ∀ k, Ensures (h.bruteForce (h.vec id) (k + 1)) fun hits =>
        ∃ p rest, hits = p :: rest ∧ p.1 = F32.zero := by
  refine (Run.ensures_run (I := fun h => WellFormed h ∧ Numeric h)
    (C := fun h op => h.OpFits op ∧ op.Valid) ?_ ⟨WellFormed.new params, Numeric.new hmetric⟩
    (Run.along_and hfit hvalid)).mono ?_
  · rintro h op ⟨W, N⟩ ⟨hf, hv⟩
    exact ((N.opStep W op hv).of_ensures (W.opStep op hf)).mono fun _ h => h.symm
  · rintro h ⟨W, N⟩
    refine ⟨fun query hquery hq => ?_, fun id hid k => N.bruteForce_self W.toLayout hid k⟩
    have hnonneg : ∀ id < h.n, (h.scored query id).dist.Nonneg := fun id hid =>
      N.scored_nonneg W.toLayout (finiteVector_of_validate hquery) hq hid
    refine ⟨fun id hid => ?_, fun seeds hseeds ef hef layer predicate tr => ?_⟩
    · exact ⟨h.vec id, _, W.toLayout.vector_eq hid,
        distance_ok h (hq.trans (W.toLayout.vec_length hid).symm), hnonneg id hid⟩
    · exact searchLayer_keepsNearest_of_numbers W.toInRange hq hseeds hef layer predicate tr
        fun id hid => (hnonneg id hid).isNan_eq

end Computed

end Runs

/-- The graph of three rows, two of them left: a beam of one, and the exact search for a stored row. -/
theorem l2_run_sample :
    Ensures (@run _ _ _ (@Hnsw.opStep Arith.ieee) (@Hnsw.new Arith.ieee HnswParams.default) sampleOps)
      fun h => Ensures (@searchLayerTraced Arith.ieee h [F32.one] [0] 1 0 none .unfiltered) (fun r =>
          @KeepsNearest Arith.ieee h [F32.one] none r.1 r.2.2) ∧
        Ensures (@bruteForce Arith.ieee h (h.vec 0) 1) fun hits =>
          ∃ p rest, hits = p :: rest ∧ p.1 = F32.zero := by
  obtain ⟨h, hrun, hnumeric, hself⟩ := @l2_run Arith.ieee _ HnswParams.default rfl sampleOps
    (by decide) (by decide +kernel)
  have hfacts : Ensures (@run _ _ _ (@Hnsw.opStep Arith.ieee) (@Hnsw.new Arith.ieee HnswParams.default)
      sampleOps) fun h => [F32.one].length = h.dim ∧ (∀ x ∈ [0], x < h.n) ∧ h.isDeleted 0 = false := by
    decide +kernel
  obtain ⟨hdim, hseeds, hlive⟩ := hfacts.elim hrun
  refine ⟨h, hrun, ?_, hself 0 ⟨hseeds 0 List.mem_cons_self, hlive⟩ 0⟩
  exact (((hnumeric [F32.one] (by decide) hdim).2 [0] hseeds 1 (by decide) 0 none
    .unfiltered)).mono fun _ hr => hr.2

end Hnsw

end Brindle
