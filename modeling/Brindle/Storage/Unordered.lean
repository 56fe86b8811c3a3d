/-
# Brindle.Storage.Unordered — a scan without an order sees every indexed row.

A scan with nothing to rank by returns the heap pointers of the live graph nodes that match and of the
vectorless rows that do. The abstract index is a multiset of heap rows: a build puts the heap in,
a write-back adds its rows, a vacuum takes out the ones it reports. The scan of what is stored refines
it, whoever wrote and however often the pages were decoded and encoded in between.
-/
import Brindle.Storage.Batching
import Brindle.Storage.Levels

namespace Brindle

open Hnsw (layersOf)
open Image (Added)
open IndexEvent (written)
open Outcome (Ensures ensures_pure fail)
open Run (Along run)

/-! ## The scan -/

/-- What a scan raises. -/
inductive ScanError where
  | search (e : HnswError)
  /-- The graph returned a node the pointer table does not cover. -/
  | unmappedNode (id : Nat)
  deriving DecidableEq, Repr

/-- `start_unordered`: the results of a scan over the index it loaded. -/
def startUnordered (handle : Image) (predicate : Predicate) : Outcome ScanError (List TidPair) := do
  let matched ← (handle.hnsw.matching predicate).mapError .search
  let results ← matched.foldlM (fun results id =>
    match handle.tids[id]? with
    | some tid => return results ++ [tid]
    | none => fail (.unmappedNode id)) []
  return handle.unrankable.foldl (fun results row =>
    if predicate.satisfiedBy row.2 then results ++ [row.1] else results) results

/-- A graph row that is live and matches. -/
def GraphRow.returned (predicate : Predicate) (row : GraphRow) : Bool :=
  !row.1.dead && predicate.satisfiedBy row.1.attrs

/-- **The scan**, over the rows: the matching live ones of the graph, then the matching others. -/
theorem startUnordered_eq {image : Image} (V : image.Valid) (predicate : Predicate) :
    startUnordered image predicate = .ok
      ((image.graphRows.filter (GraphRow.returned predicate)).map Prod.snd ++
        (image.unrankable.filter fun row => predicate.satisfiedBy row.2).map Prod.fst) := by
  have hunranked : ∀ (rows : List UnrankableRow) results,
      rows.foldl (fun results row =>
        if predicate.satisfiedBy row.2 then results ++ [row.1] else results) results =
      results ++ (rows.filter fun row => predicate.satisfiedBy row.2).map Prod.fst := by
    intro rows
    induction rows with
    | nil => simp
    | cons row rows ih =>
      intro results
      rw [List.foldl_cons, ih, List.filter_cons]
      split <;> simp
  have hrows : (image.graphRows.filter (GraphRow.returned predicate)).map Prod.snd =
      ((List.range image.hnsw.n).filter fun id => !image.hnsw.isDeleted id &&
        predicate.satisfiedBy (image.hnsw.attrsOf id)).map fun id =>
          image.tids.getD id (0, 0) := by
    unfold Image.graphRows
    rw [V.tableRows_eq_map, List.filter_map, List.map_map]
    rfl
  unfold startUnordered
  rw [Hnsw.matching_eq V.rowed]
  simp only [Outcome.mapError, Outcome.ok_bind]
  rw [Outcome.foldlM_push (g := fun id => image.tids.getD id (0, 0)), Outcome.ok_bind, hunranked,
    List.nil_append, hrows]
  · rfl
  · -- the pointer table covers every node
    intro id hid results
    have hcovered : id < image.tids.length := by
      rw [V.tids_len]
      exact List.mem_range.mp (List.mem_of_mem_filter hid)
    rw [List.getElem?_eq_getElem hcovered]
    simp [List.getD_eq_getElem?_getD, List.getElem?_eq_getElem hcovered]
    rfl

/-! ## The abstract index -/

/-- The rows of an image that match, each by its pointer. -/
theorem startUnordered_contents {image : Image} (V : image.Valid) (predicate : Predicate) :
    Ensures (startUnordered image predicate) fun tids =>
      (tids : Multiset TidPair) =
        (image.contents.filter fun row => predicate.satisfiedBy row.attrs).map Row.tid := by
  refine ⟨_, startUnordered_eq V predicate, ?_⟩
  have hgraph : GraphRow.returned predicate = fun row =>
      predicate.satisfiedBy (Row.ofGraph row).attrs && !row.1.dead := by
    funext row
    exact Bool.and_comm _ _
  dsimp only
  unfold Image.contents heapRows
  rw [Multiset.filter_coe, Multiset.map_coe, List.filter_append, List.map_append, List.filter_map,
    List.filter_map, List.map_map, List.map_map, List.filter_filter, hgraph]
  simp only [Bool.decide_eq_true, Function.comp_def]
  rfl

/-- A vacuum takes the rows it reports out of both tables. -/
theorem heapRows_vacuumed (isDead : TidPair → Bool) (rows : List GraphRow)
    (unrankable : List UnrankableRow) :
    heapRows (rows.map (GraphRow.vacuumed isDead)) (unrankable.filter fun row => !isDead row.1) =
      (heapRows rows unrankable).filter fun row => isDead row.tid = false := by
  have hgraph : ((rows.map (GraphRow.vacuumed isDead)).filter fun row => !row.1.dead) =
      (rows.filter fun row => !row.1.dead).filter fun row => !isDead row.2 := by
    induction rows with
    | nil => rfl
    | cons row rows ih =>
      rw [List.map_cons, List.filter_cons, ih]
      cases hdead : isDead row.2 <;> cases hrow : row.1.dead <;>
        simp [GraphRow.vacuumed, GraphRow.killed, Stored.killed, hdead, hrow]
  unfold heapRows
  rw [hgraph, Multiset.filter_coe, List.filter_append, List.filter_map, List.filter_map]
  simp only [Bool.decide_eq_false, Function.comp_def]
  rfl

/-- What a completed change does to the indexed rows. -/
def IndexEvent.change (rows : Multiset Row) : IndexEvent → Multiset Row
  | .batch new => rows + ↑new
  | .vacuum isDead => rows.filter fun row => isDead row.tid = false

/-- The rows an index has: the heap it was built over, changed as its history says. -/
def Build.indexed (build : Build) (history : List IndexEvent) : Multiset Row :=
  history.foldl IndexEvent.change ↑build.rows

theorem Build.indexed_concat (build : Build) (history : List IndexEvent) (e : IndexEvent) :
    build.indexed (history ++ [e]) = IndexEvent.change (build.indexed history) e :=
  List.foldl_concat ..

/-! ## The refinement -/

namespace Cluster

variable {capacity : Nat}

/-- A scan of `image` sees what is indexed: the pointer table gives every node its heap row, and any
predicate returns the matching rows, each once. -/
structure Scans (build : Build) (history : List IndexEvent) (image : Image) : Prop where
  tids_len : image.tids.length = image.hnsw.n
  nodes_eq : image.graphRows.map (fun row => (row.1.vector, row.1.attrs, row.2)) =
    (build.rows ++ written history).filterMap Row.ranked?
  returns : ∀ predicate, Ensures (startUnordered image predicate) fun tids =>
    (tids : Multiset TidPair) =
      ((build.indexed history).filter fun row => predicate.satisfiedBy row.attrs).map Row.tid

/-- After a bulk delete nothing it reported is returned, and nothing else is lost. -/
def Spares (build : Build) (history : List IndexEvent) (image : Image) : Prop :=
  ∀ earlier isDead, history = earlier ++ [.vacuum isDead] → ∀ predicate,
    Ensures (startUnordered image predicate) fun tids =>
      (∀ tid ∈ tids, isDead tid = false) ∧
        ∀ row ∈ build.indexed earlier, isDead row.tid = false →
          predicate.satisfiedBy row.attrs → row.tid ∈ tids

theorem Scans.spares {build : Build} {history : List IndexEvent} {image : Image}
    (h : Scans build history image) : Spares build history image := by
  rintro earlier isDead rfl predicate
  refine (h.returns predicate).mono fun tids htids => ?_
  rw [Build.indexed_concat] at htids
  have hmem : ∀ tid, tid ∈ tids ↔ ∃ row ∈ build.indexed earlier,
      predicate.satisfiedBy row.attrs = true ∧ isDead row.tid = false ∧ row.tid = tid := by
    intro tid
    rw [← Multiset.mem_coe, htids]
    simp [IndexEvent.change, and_assoc]
  constructor
  · intro tid htid
    obtain ⟨row, -, -, halive, rfl⟩ := (hmem tid).mp htid
    exact halive
  · intro row hrow halive hmatch
    exact (hmem row.tid).mpr ⟨row, hrow, hmatch, halive, rfl⟩

variable [Arith]

/-- In every run whose steps meet `C`, a scan of what the fork decodes to sees what is indexed. -/
def RefinesIndex (capacity : Nat) (C : Build → Cluster capacity → ClusterAction → Prop) : Prop :=
  ∀ (build : Build) (fork : Fork capacity), build.Fits → build.fork = .ok fork →
    ∀ actions, Along (step build.arity) (C build) (start fork) actions →
      Ensures (run (step build.arity) (start fork) actions) fun s =>
        ∀ image, loadIndexWithGeneration build.arity s.fork = .ok image →
          Scans build s.history image ∧ Spares build s.history image

/-- The index in memory has the rows it should. -/
structure Indexed (build : Build) (s : Cluster capacity) (image : Image) : Prop where
  invariant : Invariant build s image
  nodes_eq : image.graphRows.map (fun row => (row.1.vector, row.1.attrs, row.2)) =
    (build.rows ++ written s.history).filterMap Row.ranked?
  contents_eq : image.contents = build.indexed s.history

omit [Arith] in
/-- What a row of the graph is besides its tombstone. -/
theorem ranked_rows (rows : List Row) :
    (rows.filterMap Row.graph?).map (fun row => (row.1.vector, row.1.attrs, row.2)) =
      rows.filterMap Row.ranked? := by
  rw [List.map_filterMap]
  refine List.filterMap_congr fun row _ => ?_
  rw [row.graph?_eq]
  cases row.ranked? <;> rfl

variable {build : Build} {s : Cluster capacity} {image : Image}

theorem Added.contents_eq {params : HnswParams} {rows : List Row} {image' : Image}
    (A : Added params image rows image') : image'.contents = image.contents + ↑rows := by
  unfold Image.contents
  rw [A.rows_eq, A.unrankable_eq, heapRows_append, heapRows_kinds]

theorem Indexed.start (hcap : metaSize ≤ capacity) {fork : Fork capacity}
    (hfork : build.fork = .ok fork) (hfit : build.Fits) :
    ∃ image, Indexed build (start fork) image := by
  obtain ⟨image, I, -, A⟩ := Invariant.start hcap hfork hfit
  refine ⟨image, I, ?_, ?_⟩
  · rw [A.rows_eq, List.map_append, ranked_rows]
    exact (List.append_nil build.rows).symm ▸ rfl
  · rw [Added.contents_eq A]
    exact zero_add _

/-- A step does to the index in memory what it does to the indexed rows. -/
theorem Indexed.next (hcap : metaSize ≤ capacity) (hfew : s.rewrites < 2 ^ 64)
    (X : Indexed build s image) {a : ClusterAction} (hfit : s.Fits build a) :
    ∃ image', Indexed build (s.next build.arity a) image' := by
  obtain ⟨image', I', hadvance⟩ := X.invariant.next hcap hfew a hfit
  suffices H : image'.graphRows.map (fun row => (row.1.vector, row.1.attrs, row.2)) =
      (build.rows ++ written (s.next build.arity a).history).filterMap Row.ranked? ∧
      image'.contents = build.indexed (s.next build.arity a).history from ⟨image', I', H.1, H.2⟩
  cases hadvance with
  | still hhistory hrewrites hsame =>
    rw [hsame, hhistory]
    exact ⟨X.nodes_eq, X.contents_eq⟩
  | batch hrows hgrown A hhistory hrewrites hsame =>
    rename_i rows grown
    have hgraph : image'.graphRows = grown.graphRows := by
      rw [hsame]
      rfl
    have hcontents : image'.contents = grown.contents := by
      rw [hsame]
      rfl
    rw [hhistory, hgraph, hcontents, IndexEvent.written_concat, Build.indexed_concat]
    constructor
    · rw [A.rows_eq, List.map_append, ranked_rows, X.nodes_eq, ← List.append_assoc]
      exact List.filterMap_append.symm
    · rw [Added.contents_eq A, X.contents_eq]
      rfl
  | vacuum hvac hhistory hrewrites =>
    rename_i isDead
    obtain ⟨-, hgraph, hunr, -⟩ :=
      Run.After.elim (ambulkdelete_spec build.arity isDead X.invariant.sound.valid) hvac
    rw [hhistory, IndexEvent.written_concat, Build.indexed_concat]
    constructor
    · -- a tombstone leaves the rest of the row
      have hkeep : (fun row : GraphRow => (row.1.vector, row.1.attrs, row.2)) ∘
          GraphRow.vacuumed isDead = fun row => (row.1.vector, row.1.attrs, row.2) := by
        funext row
        unfold Function.comp GraphRow.vacuumed
        dsimp only
        split <;> rfl
      rw [hgraph, List.map_map, hkeep, X.nodes_eq]
      simp [IndexEvent.rows]
    · unfold Image.contents
      rw [hgraph, hunr, heapRows_vacuumed]
      exact congrArg _ X.contents_eq

/-- What the fork decodes to is scanned as the index in memory would be. -/
theorem Indexed.scans (hcap : metaSize ≤ capacity) (X : Indexed build s image) {copy : Image}
    (hload : loadIndexWithGeneration build.arity s.fork = .ok copy) :
    Scans build s.history copy := by
  have S := X.invariant.sound
  obtain ⟨T, -, -⟩ := X.invariant.stores.load hcap S hload
  have V := (S.of_same T).valid
  have hcontents : copy.contents = image.contents := by
    unfold Image.contents
    rw [T.graphRows_eq, T.unrankable_eq]
  refine ⟨V.tids_len, ?_, fun predicate => ?_⟩
  · rw [T.graphRows_eq]
    exact X.nodes_eq
  · rw [← X.contents_eq, ← hcontents]
    exact startUnordered_contents V predicate

/-- What the fork decodes to is a sound image of the indexed rows. -/
theorem Indexed.loaded (hcap : metaSize ≤ capacity) (X : Indexed build s image) {copy : Image}
    (hload : loadIndexWithGeneration build.arity s.fork = .ok copy) :
    copy.Sound build.params ∧ copy.contents = build.indexed s.history := by
  have S := X.invariant.sound
  obtain ⟨T, -, -⟩ := X.invariant.stores.load hcap S hload
  refine ⟨S.of_same T, ?_⟩
  rw [← X.contents_eq]
  unfold Image.contents
  rw [T.graphRows_eq, T.unrankable_eq]

/-- The index in memory stays in step, along a run. -/
theorem indexed_run (hcap : metaSize ≤ capacity) {fork : Fork capacity} (hfit : build.Fits)
    (hfork : build.fork = .ok fork) {actions : List ClusterAction}
    (halong : Along (step build.arity) (fun s a => s.Fits build a ∧ s.rewrites < 2 ^ 64)
      (start fork) actions) :
    Ensures (run (step build.arity) (start fork) actions) fun s =>
      ∃ image, Indexed build s image := by
  refine (Run.ensures_run (I := fun s => ∃ image, Indexed build s image) ?_
    (Indexed.start hcap hfork hfit) halong).mono fun _ X => X
  rintro s a ⟨image, X⟩ ⟨hfit', hfew⟩
  exact ensures_pure.mpr (X.next hcap hfew hfit')

/-- **Index refinement.** As long as the index is rewritten fewer than 2^64 times, a scan of what its
pages decode to returns the indexed rows that match, each once. -/
theorem scans_refine_index (hcap : metaSize ≤ capacity) :
    RefinesIndex capacity fun build s a => s.Fits build a ∧ s.rewrites < 2 ^ 64 := by
  intro build fork hfit hfork actions halong
  obtain ⟨image, hstart⟩ := Indexed.start hcap hfork hfit
  refine (Run.ensures_run (I := fun s => ∃ image, Indexed build s image) ?_ ⟨image, hstart⟩
    halong).mono ?_
  · rintro s a ⟨image, X⟩ ⟨hfit', hfew⟩
    exact ensures_pure.mpr (X.next hcap hfew hfit')
  · rintro s ⟨image, X⟩ copy hload
    have h := X.scans hcap hload
    exact ⟨h, h.spares⟩

omit [Arith] in
/-- A vacuum reports a row of each kind, and their heap slots are used again. -/
def recyclingActions : List ClusterAction :=
  [.insert 0 (sampleRow (some [F32.zero]) 3), .commit 0,
    .vacuum fun tid => tid = (0, 3) || tid = (0, 2), .insert 1 (sampleRow none 3),
    .insert 1 (sampleRow (some [F32.one]) 2), .commit 1]

omit [Arith] in
theorem scans_refine_index_sample :
    Ensures (@Build.fork 8168 Arith.ieee sampleBuild) fun fork =>
      Ensures (run (@step 8168 Arith.ieee sampleBuild.arity) (start fork) recyclingActions) fun s =>
        ∀ image, @loadIndexWithGeneration 8168 Arith.ieee sampleBuild.arity s.fork = .ok image →
          Scans sampleBuild s.history image ∧ Spares sampleBuild s.history image := by
  have hsample : Ensures (@Build.fork 8168 Arith.ieee sampleBuild) fun fork =>
      Along (@step 8168 Arith.ieee sampleBuild.arity)
        (fun s a => @Fits 8168 Arith.ieee sampleBuild s a ∧ s.rewrites < 2 ^ 64) (start fork)
        recyclingActions := by
    decide +kernel
  obtain ⟨fork, hfork, halong⟩ := hsample
  exact ⟨fork, hfork, @scans_refine_index 8168 Arith.ieee (by decide) sampleBuild fork
    (by decide +kernel) hfork recyclingActions halong⟩

omit [Arith] in
example : Ensures (@Build.fork 8168 Arith.ieee sampleBuild) fun fork =>
    Ensures (run (@step 8168 Arith.ieee sampleBuild.arity) (start fork) recyclingActions) fun s =>
      Ensures (@loadIndexWithGeneration 8168 Arith.ieee sampleBuild.arity s.fork) fun image =>
        startUnordered image .all = .ok [(0, 1), (0, 2), (0, 3)] := by
  decide +kernel

end Cluster

end Brindle
