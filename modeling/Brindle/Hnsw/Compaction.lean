/-
# Brindle.Hnsw.Compaction — a compaction keeps what the graph stores.

`compact` inserts the live rows, in id order, into a new graph of the same parameters. What it
returns holds those rows and no tombstone, and a live node's new id is how many live ones come before
it; so whatever is answered from the rows alone is answered as before, by the new ids. The links are
others, and the levels are those the seed draws from the start: the rebuild is a function of the rows
and the parameters, and a second one repeats it. The levels are also what it can fail by, when the
layers they add up to no longer fit the `u32` offsets; a graph that grew from `new` by inserts, deletes
and compactions has drawn as many of these levels already, and never fails by them.
-/
import Brindle.Hnsw.Capacity
import Brindle.Hnsw.FullBeam
import Brindle.Hnsw.Generator
import Brindle.Hnsw.Paced
import Brindle.Lib.Renumber
import Brindle.Storage.Rows

namespace Brindle

open Outcome (Ensures ensures_foldlM ensures_pure)
open Run (run Along After after_foldlM)
open Lockstep (next)

namespace Hnsw

/-! ## The live nodes -/

/-- The ids of the live nodes, in order. -/
def liveIds (h : Hnsw) : List Nat := Renumber.kept (fun id => !h.isDeleted id) h.n

/-- The id a live node gets: how many live ones have a smaller id. -/
def renumber (h : Hnsw) (id : Nat) : Nat := Renumber.renumber (fun id => !h.isDeleted id) id

/-- What a compaction carries over of a node. -/
def rowOf (h : Hnsw) (id : Nat) : List F32 × List AttrValue := (h.vec id, h.attrsOf id)

theorem live_iff {h : Hnsw} {id : Nat} : h.Live id ↔ id < h.n ∧ (!h.isDeleted id) = true := by
  simp [Live]

theorem Live.renumber_lt {h : Hnsw} {id : Nat} (hid : h.Live id) :
    h.renumber id < h.liveIds.length :=
  Renumber.renumber_lt (live_iff.mp hid).2 hid.1

theorem Live.getElem?_liveIds {h : Hnsw} {id : Nat} (hid : h.Live id) :
    h.liveIds[h.renumber id]? = some id :=
  Renumber.getElem?_kept (live_iff.mp hid).2 hid.1

theorem strictMonoOn_renumber (h : Hnsw) : StrictMonoOn h.renumber {id | h.Live id} :=
  Renumber.strictMonoOn_renumber.mono fun _ hid => live_iff.mp hid

namespace Layout

variable {h : Hnsw} (L : Layout h)
include L

theorem liveIds_length : h.liveIds.length = h.liveLen := by
  have hdeleted : h.deleted = (List.range h.n).map h.isDeleted := by
    apply List.ext_getElem
    · simp [L.deleted_len]
    · intro i hi _
      simp [isDeleted, List.getElem?_eq_getElem hi]
  have hcount : h.deletedCount = (List.range h.n).countP h.isDeleted := by
    rw [deletedCount, hdeleted, List.countP_map]
    rfl
  have hsplit := List.length_eq_countP_add_countP h.isDeleted (l := List.range h.n)
  rw [List.length_range] at hsplit
  rw [liveLen, hcount, liveIds, Renumber.kept, ← List.countP_eq_length_filter]
  simp only [Bool.not_eq_true, Bool.decide_eq_false] at hsplit
  omega

theorem bijOn_renumber : Set.BijOn h.renumber {id | h.Live id} {id | id < h.liveLen} := by
  have hlive : {id | h.Live id} = {id | id < h.n ∧ (!h.isDeleted id) = true} :=
    Set.ext fun id => live_iff
  rw [hlive, ← L.liveIds_length]
  exact Renumber.bijOn_renumber

theorem liveRows_eq : h.liveRows = .ok (h.liveIds.map h.rowOf) := by
  have hscan : Ensures h.liveRows fun rows =>
      rows = ((List.range h.n).filter (!h.isDeleted ·)).map h.rowOf := by
    unfold liveRows
    rw [L.deleted_len]
    refine ensures_foldlM (fun done (rows : List (List F32 × List AttrValue)) =>
      rows = (done.filter (!h.isDeleted ·)).map h.rowOf) _ ?_ rfl
    rintro done id rest rows hrange rfl
    have hid : id < h.n := List.mem_range.mp (hrange ▸ by simp)
    rw [L.index_deleted hid, L.vector_eq hid, L.index_attrs hid, Outcome.ok_bind, Outcome.ok_bind,
      List.filter_append, List.map_append]
    cases hdel : h.isDeleted id with
    | true => simp [hdel]
    | false => simp [hdel, rowOf]
  obtain ⟨rows, hrun, rfl⟩ := hscan
  exact hrun

end Layout

variable [Arith]

/-! ## The parameters -/

/-- A graph's parameters, given to `new` a second time, come out as they went in. -/
theorem new_rebuildParams (params : HnswParams) :
    Hnsw.new (Hnsw.new params).rebuildParams = Hnsw.new params := by
  have hm : max (max params.m 2) 2 = max params.m 2 := by omega
  have hderived : derivedParams (max (max params.m 2) 2)
      (derivedParams (max params.m 2) params.gamma).gamma =
        derivedParams (max params.m 2) params.gamma := by
    rw [hm]
    exact derivedParams_clamp _ _
  have hef : max (Hnsw.new params).efConstruction
      (derivedParams (max params.m 2) params.gamma).efFloor = (Hnsw.new params).efConstruction :=
    Nat.max_eq_left (Nat.le_max_right ..)
  have hseed : (Hnsw.new (Hnsw.new params).rebuildParams).seed = (Hnsw.new params).seed :=
    if_neg (nonzero_new params).1
  unfold Hnsw.new at hef hseed ⊢
  dsimp only [rebuildParams] at hef hseed ⊢
  rw [hderived, hef]
  congr 1

theorem layersOf_congr {params params' : HnswParams} (h : Hnsw.new params = Hnsw.new params')
    (n : Nat) : layersOf params n = layersOf params' n := by
  induction n with
  | zero => rfl
  | succ n ih =>
    have hlevel : levelAt params n = levelAt params' n := by
      unfold levelAt drawnRng
      rw [h]
    rw [layersOf, layersOf, ih, hlevel]

/-! ## The rebuild -/

/-- A graph that a rebuild made of `rows`, whether or not its offsets still fit. -/
structure Rebuilt (params : HnswParams) (rows : List (List F32 × List AttrValue)) (g : Hnsw) :
    Prop where
  rowed : Rowed g
  rows_eq : g.rows = rows.map fun row => ⟨row.1, row.2, false⟩
  params_eq : g.rebuildParams = (Hnsw.new params).rebuildParams
  ml_eq : g.ml = (Hnsw.new params).ml
  rng_eq : g.rng = drawnRng params rows.length
  counts_len : g.linkCounts.length = layersOf params rows.length

theorem Rebuilt.new (params : HnswParams) : Rebuilt params [] (Hnsw.new params) :=
  ⟨(WellFormed.new params).toSound.rowed, rfl, rfl, rfl, rfl, rfl⟩

namespace Rebuilt

variable {params : HnswParams} {rows : List (List F32 × List AttrValue)} {g : Hnsw}
  (R : Rebuilt params rows g)
include R

theorem n_eq : g.n = rows.length := by
  rw [← rows_length, R.rows_eq, List.length_map]

theorem drawnLevel_eq : g.drawnLevel = levelAt params rows.length :=
  drawnLevel_congr R.rng_eq R.ml_eq

/-- One insert appends its row and draws the next level. -/
theorem step (row : List F32 × List AttrValue) :
    After (Rebuilt params (rows ++ [row])) (rebuildStep g row) := by
  have hadvanced := after_insertDrawn g row.1 row.2 g.drawnLevel
  rw [← insertWithAttrs_eq] at hadvanced
  refine ((insertWithAttrs_rows R.rowed row.1 row.2).and hadvanced).bind ?_
  rintro ⟨g', r⟩ ⟨hrow, A⟩
  cases r with
  | error e => trivial
  | ok id =>
    obtain ⟨hrng, hcounts⟩ := A.stored id rfl
    obtain ⟨hrowed, -, hrows⟩ := hrow
    exact
      { rowed := hrowed
        rows_eq := by
          rw [hrows, R.rows_eq, List.map_append]
          rfl
        params_eq := A.params_eq.trans R.params_eq
        ml_eq := A.ml_eq.trans R.ml_eq
        rng_eq := by
          rw [List.length_append, List.length_singleton, hrng, R.rng_eq]
          exact (Function.iterate_succ_apply' xorshift64 _ _).symm
        counts_len := by
          rw [List.length_append, List.length_singleton, hcounts, R.counts_len, R.drawnLevel_eq]
          rfl }

theorem liveIds_eq : g.liveIds = List.range g.n := by
  refine List.filter_eq_self.mpr fun id hid => ?_
  have hlt : id < g.n := List.mem_range.mp hid
  have hrow := rows_getElem? hlt
  have hlt' : id < rows.length := R.n_eq ▸ hlt
  rw [R.rows_eq, List.getElem?_map, List.getElem?_eq_getElem hlt'] at hrow
  have hdead : false = g.isDeleted id := congrArg Stored.dead (Option.some.inj hrow)
  rw [← hdead]
  rfl

/-- The live rows of what was rebuilt are the rows it was rebuilt from. -/
theorem liveRows_eq (L : Layout g) : g.liveRows = .ok rows := by
  have hback := congrArg (List.map fun row : Stored => (row.vector, row.attrs)) R.rows_eq
  rw [List.map_map] at hback
  rw [L.liveRows_eq, R.liveIds_eq]
  have hrows : (List.range g.n).map g.rowOf = rows := by
    rw [Hnsw.rows, List.map_map] at hback
    exact hback.trans (List.map_id rows)
  rw [hrows]

end Rebuilt

theorem after_rebuild (params : HnswParams) (rows : List (List F32 × List AttrValue)) :
    After (Rebuilt params rows) (run rebuildStep (Hnsw.new params) rows) :=
  after_foldlM (Rebuilt params) rows (fun _ row _ _ hg => hg.step row) (Rebuilt.new params)

/-- **A rebuild goes through** where the layers its levels add up to fit a `u32`. -/
theorem rebuild_ensures {params : HnswParams} {rows : List (List F32 × List AttrValue)} {dim : Nat}
    (hpos : 0 < dim) (hle : dim ≤ HnswParams.maxDim) (hdim : ∀ row ∈ rows, row.1.length = dim)
    (hfit : layersOf params rows.length < 2 ^ 32) :
    Ensures (run rebuildStep (Hnsw.new params) rows) fun g =>
      Rebuilt params rows g ∧ WellFormed g ∧ (g.dim = 0 ∨ g.dim = dim) := by
  refine ensures_foldlM (fun done g =>
    Rebuilt params done g ∧ WellFormed g ∧ (g.dim = 0 ∨ g.dim = dim)) rows ?_
    ⟨Rebuilt.new params, WellFormed.new params, .inl rfl⟩
  rintro done row rest g rfl ⟨R, W, hg⟩
  have hlen : row.1.length = dim := hdim row (by simp)
  have ha : g.Accepts row.1 :=
    ⟨List.ne_nil_of_length_pos (by omega), hlen ▸ hle, hlen ▸ hg⟩
  have hnext : g.base g.n + (g.drawnLevel + 1) < 2 ^ 32 := by
    have hshort : done.length + 1 ≤ (done ++ row :: rest).length := by simp
    rw [← W.counts_len, R.counts_len, R.drawnLevel_eq]
    exact (layersOf_mono params hshort).trans_lt hfit
  have hinsert := W.insertDrawn row.2 row.1 hnext
  rw [← insertWithAttrs_eq] at hinsert
  refine (R.step row).of_ensures (hinsert.bind ?_)
  rintro ⟨g', r⟩ ⟨W', hstored⟩
  obtain ⟨rfl, -, hdim', -⟩ := hstored ha
  exact ensures_pure.mpr ⟨W', .inr (hdim'.trans hlen)⟩

/-! ## What is answered from the rows -/

/-- `g` stores the live rows of `h`, renumbered, and no tombstone. -/
structure Copied (h g : Hnsw) : Prop where
  n_eq : g.n = h.liveIds.length
  metric_eq : g.metric = h.metric
  rowAt_eq : ∀ id, h.Live id → g.rowAt (h.renumber id) = h.rowAt id

/-- A candidate under its new id. -/
def moved (h : Hnsw) (c : Cand) : Cand := ⟨c.dist, h.renumber c.id⟩

omit [Arith] in
/-- Equal distances are ranked by id, and the renumbering keeps the order of the ids. -/
theorem moved_lt_moved {h : Hnsw} {c d : Cand} (hc : h.Live c.id) (hcd : c < d) :
    h.moved c < h.moved d := by
  rcases Prod.Lex.toLex_lt_toLex.mp (show toLex (c.dist.totalKey, c.id) <
    toLex (d.dist.totalKey, d.id) from hcd) with hdist | ⟨hdist, hid⟩
  · exact Prod.Lex.toLex_lt_toLex.mpr (.inl hdist)
  · exact Prod.Lex.toLex_lt_toLex.mpr
      (.inr ⟨hdist, Renumber.renumber_lt_renumber (live_iff.mp hc).2 hid⟩)

namespace Copied

variable {h g : Hnsw} (C : Copied h g)
include C

omit [Arith] in
theorem vec_eq {id : Nat} (hid : h.Live id) : g.vec (h.renumber id) = h.vec id :=
  congrArg Stored.vector (C.rowAt_eq id hid)

omit [Arith] in
theorem attrsOf_eq {id : Nat} (hid : h.Live id) : g.attrsOf (h.renumber id) = h.attrsOf id :=
  congrArg Stored.attrs (C.rowAt_eq id hid)

omit [Arith] in
theorem live_renumber {id : Nat} (hid : h.Live id) : g.Live (h.renumber id) := by
  refine ⟨C.n_eq ▸ hid.renumber_lt, ?_⟩
  have hdead : g.isDeleted (h.renumber id) = h.isDeleted id :=
    congrArg Stored.dead (C.rowAt_eq id hid)
  rw [hdead]
  exact hid.2

omit [Arith] in
theorem exists_renumber {j : Nat} (hj : j < g.n) : ∃ id, h.Live id ∧ h.renumber id = j := by
  rw [C.n_eq] at hj
  obtain ⟨id, hlt, hlive, rfl⟩ := Renumber.exists_renumber hj
  exact ⟨id, live_iff.mpr ⟨hlt, hlive⟩, rfl⟩

theorem scored_eq {id : Nat} (hid : h.Live id) (query : List F32) :
    g.scored query (h.renumber id) = h.moved (h.scored query id) := by
  unfold scored moved
  rw [C.metric_eq, C.vec_eq hid]

/-- The nodes nearest first are the same, under their new ids. -/
theorem ranking {query : List F32} {full : List Cand} (F : Ranking h query h.Live full) :
    Ranking g query g.Live (full.map h.moved) := by
  have hlive : ∀ c ∈ full, h.Live c.id := by
    intro c hc
    rw [F.scored c hc] at hc
    exact (F.mem_iff c.id).mp hc
  refine ⟨?_, fun c' hc' => ?_, fun j => ?_⟩
  · rw [List.pairwise_map]
    exact F.sorted.imp_of_mem fun hc _ hcd => moved_lt_moved (hlive _ hc) hcd
  · obtain ⟨c, hc, rfl⟩ := List.mem_map.mp hc'
    show h.moved c = g.scored query (h.renumber c.id)
    rw [C.scored_eq (hlive c hc), ← F.scored c hc]
  · constructor
    · intro hmem
      obtain ⟨c, hc, hcj⟩ := List.mem_map.mp hmem
      obtain rfl : h.renumber c.id = j := congrArg Cand.id hcj
      exact C.live_renumber (hlive c hc)
    · intro hj
      obtain ⟨id, hid, rfl⟩ := C.exists_renumber hj.1
      rw [C.scored_eq hid]
      exact List.mem_map_of_mem ((F.mem_iff id).mpr hid)

theorem bruteForce (L : Layout h) (L' : Layout g) {query : List F32} (hq : query.length = h.dim)
    (hq' : query.length = g.dim) (k : Nat) : ∃ hits, h.bruteForce query k = .ok hits ∧
      g.bruteForce query k = .ok (hits.map fun hit => (hit.1, h.renumber hit.2)) := by
  obtain ⟨full, F, hrun⟩ := bruteForce_ranking L hq k
  obtain ⟨full', F', hrun'⟩ := bruteForce_ranking L' hq' k
  have hfull : full' = full.map h.moved := F'.unique (C.ranking F) fun _ => Iff.rfl
  refine ⟨_, hrun, ?_⟩
  rw [hrun', hfull, ← List.map_take, List.map_map, List.map_map]
  rfl

omit [Arith] in
theorem matching (H : Rowed h) (G : Rowed g) (predicate : Predicate) :
    ∃ ids, h.matching predicate = .ok ids ∧
      g.matching predicate = .ok (ids.map h.renumber) := by
  refine ⟨_, matching_eq H predicate, ?_⟩
  have hids : List.range g.n = h.liveIds.map h.renumber := by
    rw [C.n_eq]
    exact Renumber.map_renumber_kept.symm
  have hlive : ∀ id ∈ h.liveIds, (!g.isDeleted (h.renumber id) &&
      predicate.satisfiedBy (g.attrsOf (h.renumber id))) = predicate.satisfiedBy (h.attrsOf id) := by
    intro id hid
    have hid : h.Live id := live_iff.mpr (Renumber.mem_kept.mp hid)
    rw [C.attrsOf_eq hid, (C.live_renumber hid).2]
    rfl
  rw [matching_eq G, hids, List.filter_map]
  congr 2
  calc h.liveIds.filter _ = h.liveIds.filter fun id => predicate.satisfiedBy (h.attrsOf id) :=
        List.filter_congr hlive
    _ = (List.range h.n).filter fun id => predicate.satisfiedBy (h.attrsOf id) && !h.isDeleted id :=
        List.filter_filter
    _ = _ := by
      congr 1
      funext id
      exact Bool.and_comm _ _

end Copied

theorem Rebuilt.copied {h g : Hnsw} {params : HnswParams}
    (R : Rebuilt params (h.liveIds.map h.rowOf) g) (hmetric : params.metric = h.metric) :
    Copied h g where
  n_eq := by rw [R.n_eq, List.length_map]
  metric_eq := by
    have hkept : g.metric = params.metric := congrArg HnswParams.metric R.params_eq
    exact hkept.trans hmetric
  rowAt_eq id hid := by
    have hlt : h.renumber id < g.n := by
      rw [R.n_eq, List.length_map]
      exact hid.renumber_lt
    have hrow := rows_getElem? hlt
    rw [R.rows_eq, List.getElem?_map, List.getElem?_map, hid.getElem?_liveIds] at hrow
    rw [← Option.some.inj hrow, rowAt, hid.2]
    rfl

/-! ## Compaction -/

/-- What a compaction is to keep: the live nodes and what is answered about them, under the ids that
`renumber` gives them, and the bytes of a graph that has nothing to reclaim. -/
structure Compacted (h g : Hnsw) : Prop where
  wellFormed : WellFormed g
  size : g.n = h.liveLen
  clean : g.deletedCount = 0
  order : StrictMonoOn h.renumber {id | h.Live id}
  onto : Set.BijOn h.renumber {id | h.Live id} {id | id < g.n}
  nearest : ∀ query : List F32, query.length = h.dim → ∀ k, ∃ hits,
    h.bruteForce query k = .ok hits ∧
      g.bruteForce query k = .ok (hits.map fun hit => (hit.1, h.renumber hit.2))
  matching : ∀ predicate, ∃ ids, h.matching predicate = .ok ids ∧
    g.matching predicate = .ok (ids.map h.renumber)
  vector : ∀ id, h.Live id → g.vector (h.renumber id) = h.vector id
  attrs : ∀ id, h.Live id → g.attrsOf (h.renumber id) = h.attrsOf id
  again : ∃ g' bytes, g.compact = .ok (g', g.n) ∧ g.toBytes = .ok bytes ∧ g'.toBytes = .ok bytes

theorem Layout.compact_eq {h : Hnsw} (L : Layout h) : h.compact = (do
    let g ← run rebuildStep (Hnsw.new h.rebuildParams) (h.liveIds.map h.rowOf)
    return (g, g.n)) := by
  rw [Hnsw.compact_eq, L.liveRows_eq]
  rfl

/-- A rebuilt graph rebuilds to itself. -/
theorem Rebuilt.compact_eq {h g : Hnsw} {rows : List (List F32 × List AttrValue)}
    (R : Rebuilt h.rebuildParams rows g) (L : Layout g)
    (hrun : run rebuildStep (Hnsw.new h.rebuildParams) rows = .ok g) : g.compact = .ok (g, g.n) := by
  rw [Hnsw.compact_eq, R.liveRows_eq L, Outcome.ok_bind, R.params_eq, new_rebuildParams, hrun]
  rfl

section Compacting

variable {h : Hnsw} (W : WellFormed h)
include W

omit [Arith] in
/-- The rows of the live nodes have one dimension, and it is one that `rebuild_ensures` takes. -/
theorem WellFormed.row_length : ∃ dim, 0 < dim ∧ dim ≤ HnswParams.maxDim ∧
    ∀ row ∈ h.liveIds.map h.rowOf, row.1.length = dim := by
  rcases Nat.eq_zero_or_pos h.n with hzero | hpos
  · refine ⟨1, one_pos, by decide, fun row hrow => ?_⟩
    obtain ⟨id, hid, -⟩ := List.mem_map.mp hrow
    exact absurd (Renumber.mem_kept.mp hid).1 (by omega)
  · refine ⟨h.dim, W.dim_pos hpos, W.dim_le, fun row hrow => ?_⟩
    obtain ⟨id, hid, rfl⟩ := List.mem_map.mp hrow
    exact W.vec_length (Renumber.mem_kept.mp hid).1

omit [Arith] in
theorem WellFormed.rows_length : (h.liveIds.map h.rowOf).length = h.liveLen := by
  rw [List.length_map, W.liveIds_length]

/-- A compaction whose layers fit a `u32` returns what the live rows rebuild to. -/
theorem WellFormed.compact_rebuilt (hfit : layersOf h.rebuildParams h.liveLen < 2 ^ 32) :
    ∃ g, h.compact = .ok (g, h.liveLen) ∧
      run rebuildStep (Hnsw.new h.rebuildParams) (h.liveIds.map h.rowOf) = .ok g ∧
        Rebuilt h.rebuildParams (h.liveIds.map h.rowOf) g ∧ WellFormed g := by
  obtain ⟨dim, hpos, hle, hdim⟩ := W.row_length
  obtain ⟨g, hrebuild, R, W', -⟩ := rebuild_ensures hpos hle hdim (W.rows_length.symm ▸ hfit)
  refine ⟨g, ?_, hrebuild, R, W'⟩
  rw [W.toLayout.compact_eq, hrebuild, Outcome.ok_bind, R.n_eq, W.rows_length]
  rfl

/-- While they fit, what it returns keeps all that a compaction is to keep. -/
theorem WellFormed.compact_preserves (hlive : 0 < h.liveLen)
    (hfit : layersOf h.rebuildParams h.liveLen < 2 ^ 32) :
    ∃ g, h.compact = .ok (g, h.liveLen) ∧ Compacted h g := by
  obtain ⟨g, hrun, hrebuild, R, W'⟩ := W.compact_rebuilt hfit
  have C : Copied h g := R.copied rfl
  have hn : g.n = h.liveLen := C.n_eq.trans W.liveIds_length
  have hgdim : g.dim = h.dim := by
    -- any row that is live shows the dimension
    obtain ⟨id, hid, -⟩ := C.exists_renumber (j := 0) (hn ▸ hlive)
    rw [← W.vec_length hid.1, ← C.vec_eq hid, W'.vec_length (C.live_renumber hid).1]
  have hclean : g.deletedCount = 0 := by
    have hall := W'.liveIds_length
    rw [R.liveIds_eq, List.length_range, liveLen] at hall
    omega
  refine ⟨g, hrun, ?_⟩
  exact
    { wellFormed := W'
      size := hn
      clean := hclean
      order := strictMonoOn_renumber h
      onto := hn ▸ W.bijOn_renumber
      nearest := fun query hq k => C.bruteForce W.toLayout W'.toLayout hq (hq.trans hgdim.symm) k
      matching := C.matching W.toSound.rowed R.rowed
      vector := fun id hid => by
        rw [W'.vector_eq (C.live_renumber hid).1, W.vector_eq hid.1, C.vec_eq hid]
      attrs := fun id hid => C.attrsOf_eq hid
      again := ⟨g, _, R.compact_eq W'.toLayout hrebuild, W'.toBytes_eq, W'.toBytes_eq⟩ }

end Compacting

/-- **Compaction preserves content** exactly while the layers of the live nodes, drawn from the seed
again, fit a `u32`. -/
theorem compact_preserves_iff {h : Hnsw} (W : WellFormed h) (hlive : 0 < h.liveLen) :
    (∃ g, h.compact = .ok (g, h.liveLen) ∧ Compacted h g) ↔
      layersOf h.rebuildParams h.liveLen < 2 ^ 32 := by
  refine ⟨?_, W.compact_preserves hlive⟩
  -- the rebuild stored a live count for each layer it drew
  rintro ⟨g, hrun, K⟩
  rw [W.toLayout.compact_eq] at hrun
  obtain ⟨g', hrebuild, hg⟩ := Outcome.bind_eq_ok.mp hrun
  obtain ⟨rfl, -⟩ := Prod.mk.inj (Except.ok.inj hg)
  have R := (after_rebuild h.rebuildParams (h.liveIds.map h.rowOf)).elim hrebuild
  rw [← W.rows_length, ← R.counts_len, K.wellFormed.counts_len]
  exact K.wellFormed.fits

omit [Arith] in
/-- Three rows, of which the middle one is deleted. -/
theorem compact_preserves_flat : ∃ h, (@flat Arith.ieee HnswParams.default 3).delete 1 = .ok h ∧
    ∃ g, @compact Arith.ieee h = .ok (g, 2) ∧ @Compacted Arith.ieee h g := by
  have hdel : (@flat Arith.ieee HnswParams.default 3).delete 1 =
    .ok { @flat Arith.ieee HnswParams.default 3 with deleted := [false, true, false] } := rfl
  have W := (@flat_wellFormed Arith.ieee HnswParams.default 3 (by decide) (by decide)).delete hdel
  exact ⟨_, hdel, (@compact_preserves_iff Arith.ieee _ W (by decide)).mpr (by decide +kernel)⟩

/-- Every node takes a layer at least. -/
theorem layersOf_add_le (params : HnswParams) {k n : Nat} (hkn : k ≤ n) :
    layersOf params k + (n - k) ≤ layersOf params n := by
  induction n, hkn using Nat.le_induction with
  | base => simp
  | succ n hkn ih =>
    rw [layersOf]
    omega

omit [Arith] in
/-- `2³² - 2` rows of one layer each, of which the first three draw five layers when `m` is 2. -/
theorem compact_wraps :
    ¬ ∀ h : Hnsw, WellFormed h → 0 < h.liveLen →
      ∃ g, @compact Arith.ieee h = .ok (g, h.liveLen) ∧ @Compacted Arith.ieee h g := by
  let := Arith.ieee
  let params : HnswParams := { HnswParams.default with m := 2 }
  intro hall
  have W := flat_wellFormed params (n := 2 ^ 32 - 2) (by decide) (by decide)
  have hlive : (flat params (2 ^ 32 - 2)).liveLen = 2 ^ 32 - 2 := flat_liveLen params _
  have hpos : 0 < (flat params (2 ^ 32 - 2)).liveLen := by
    rw [hlive]
    decide
  have hfit := (compact_preserves_iff W hpos).mp (hall _ W hpos)
  have hdrawn : layersOf params 3 = 5 := by decide +kernel
  have hlayers := layersOf_add_le params (show 3 ≤ 2 ^ 32 - 2 by decide)
  rw [hlive, flat_rebuildParams, layersOf_congr (new_rebuildParams params)] at hfit
  omega

/-! ## Any history -/

/-- A graph that `new` made and inserts, deletes and compactions have changed. -/
structure Homegrown (params : HnswParams) (h : Hnsw) : Prop where
  wellFormed : WellFormed h
  paced : Paced params h
  params_eq : h.rebuildParams = (Hnsw.new params).rebuildParams

/-- The layers of an insert fit a `u32`. Nothing is asked of a compaction. -/
def CallFits (h : Hnsw) : Call → Prop
  | .insert .. => h.NextFits
  | .delete _ => True
  | .compact => True

instance (h : Hnsw) : ∀ c, Decidable (h.CallFits c)
  | .insert .. => inferInstanceAs (Decidable h.NextFits)
  | .delete _ => .isTrue trivial
  | .compact => .isTrue trivial

namespace Homegrown

variable {params : HnswParams} {h : Hnsw} (G : Homegrown params h)
include G

theorem rebuild_new : Hnsw.new h.rebuildParams = Hnsw.new params := by
  rw [G.params_eq, new_rebuildParams]

/-- The live nodes are no more than the nodes, and draw the first of the levels that these drew. -/
theorem compact_fits : layersOf h.rebuildParams h.liveLen < 2 ^ 32 := by
  rw [layersOf_congr G.rebuild_new]
  calc layersOf params h.liveLen ≤ layersOf params h.n := layersOf_mono params (Nat.sub_le ..)
    _ = h.base h.n := G.paced.layers_eq.symm
    _ < 2 ^ 32 := G.wellFormed.fits

theorem insertWithAttrs (vector : List F32) (attrs : List AttrValue) (hnext : h.NextFits) :
    Ensures (h.insertWithAttrs vector attrs) fun r => Homegrown params r.1 := by
  have hpaced := G.paced.insertWithAttrs G.wellFormed vector attrs hnext
  have hformed := G.wellFormed.insertDrawn attrs vector hnext
  have hadvanced := after_insertDrawn h vector attrs h.drawnLevel
  rw [insertWithAttrs_eq] at hpaced ⊢
  refine (hadvanced.of_ensures (hformed.and hpaced)).mono ?_
  rintro r ⟨A, ⟨W, -⟩, P, -⟩
  exact ⟨W, P, A.params_eq.trans G.params_eq⟩

theorem delete {g : Hnsw} {id : Nat} (hdel : h.delete id = .ok g) : Homegrown params g := by
  have hparams := G.params_eq
  obtain ⟨-, hset⟩ := delete_eq hdel
  refine ⟨G.wellFormed.delete hdel, G.paced.delete hdel, ?_⟩
  rw [hset]
  exact hparams

/-- A compaction draws the levels from the start, and as many as it keeps nodes. -/
theorem compact : Ensures h.compact fun r => Homegrown params r.1 := by
  obtain ⟨g, hrun, -, R, W⟩ := G.wellFormed.compact_rebuilt G.compact_fits
  refine ⟨_, hrun, W, ⟨?_, ?_, ?_⟩, ?_⟩
  · rw [R.ml_eq, G.rebuild_new]
  · rw [R.rng_eq, R.n_eq, drawnRng, drawnRng, G.rebuild_new]
  · rw [← W.counts_len, R.counts_len, R.n_eq, layersOf_congr G.rebuild_new]
  · rw [R.params_eq, G.rebuild_new]

/-- One call leaves a graph of the same kind. -/
theorem call (c : Call) (hfit : h.CallFits c) : Ensures (next Hnsw.call h c) (Homegrown params) := by
  cases c with
  | insert vector attrs =>
    obtain ⟨r, hrun, G'⟩ := G.insertWithAttrs vector attrs hfit
    simp only [next, Hnsw.call, hrun, Outcome.ok_bind]
    exact ensures_pure.mpr G'
  | delete id =>
    cases hdel : h.delete id with
    | ok g =>
      simp only [next, Hnsw.call, hdel]
      exact ensures_pure.mpr (G.delete hdel)
    | error e =>
      simp only [next, Hnsw.call, hdel]
      exact ensures_pure.mpr G
  | compact =>
    obtain ⟨r, hrun, G'⟩ := G.compact
    simp only [next, Hnsw.call, hrun]
    exact ensures_pure.mpr G'

end Homegrown

theorem Homegrown.new (params : HnswParams) : Homegrown params (Hnsw.new params) :=
  ⟨WellFormed.new params, Paced.new params, rfl⟩

/-- **What grew here can be compacted.** After any run of inserts, deletes and compactions from a new
graph, of which only the inserts are asked to fit, every compaction goes through and keeps what is
stored: none of these graphs is one on which `compact_preserves_iff` fails. -/
theorem compact_run (params : HnswParams) (cs : List Call)
    (hfit : Along (next call) CallFits (Hnsw.new params) cs) :
    Ensures (run (next call) (Hnsw.new params) cs) fun h =>
      0 < h.liveLen → ∃ g, h.compact = .ok (g, h.liveLen) ∧ Compacted h g :=
  (Run.ensures_run (fun _ c G hf => Homegrown.call G c hf) (Homegrown.new params) hfit).mono
    fun _ G hlive => G.wellFormed.compact_preserves hlive G.compact_fits

omit [Arith] in
/-- Three inserts, a delete, a compaction and one insert more. -/
def compactCalls : List Call :=
  [.insert [F32.one] [], .insert [F32.zero] [.null], .insert [F32.ofUsize 2] [.int 7], .delete 1,
    .compact, .insert [F32.ofUsize 3] []]

omit [Arith] in
theorem compactCalls_live :
    After (fun h : Hnsw => h.liveLen = 3) (@run _ _ _ (next (@call Arith.ieee))
      (@Hnsw.new Arith.ieee HnswParams.default) compactCalls) := by
  decide +kernel

omit [Arith] in
theorem compact_run_sample :
    Ensures (@run _ _ _ (next (@call Arith.ieee)) (@Hnsw.new Arith.ieee HnswParams.default)
        compactCalls) fun h =>
      h.liveLen = 3 ∧
        ∃ g, @compact Arith.ieee h = .ok (g, h.liveLen) ∧ @Compacted Arith.ieee h g :=
  (compactCalls_live.of_ensures
      (@compact_run Arith.ieee HnswParams.default compactCalls (by decide +kernel))).mono
    fun _ h => ⟨h.1, h.2 (h.1.symm ▸ Nat.succ_pos 2)⟩

end Hnsw

end Brindle
