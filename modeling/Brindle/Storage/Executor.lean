/-
# Brindle.Storage.Executor — a query answered through an index scan.

The executor fetches the heap tuple behind each address a scan hands out, drops it where the tuple is
not visible, and tests the conditions again only where the scan asked for it. Without an order the
tuples it returns are those of a sequential scan; with one they are some of these that have a vector,
nearest first. This is so in every state the backends sharing an index can reach, over what its pages
decode to there.
-/
import Brindle.Pushdown
import Brindle.Storage.Scan
import Brindle.Storage.ClusterSpec

namespace Brindle

open Outcome (Ensures ensures_pure)
open Run (Along run)

/-! ## The heap and the query -/

/-- A visible heap tuple: its indexed columns, the vector the first of them holds, its address. -/
structure HeapTuple where
  values : List Datum
  isnull : List Bool
  vector : Option (List F32)
  tid : TidPair
  deriving DecidableEq, Repr

instance (cast : Sql.Value → Sql.Value → Option Ordering) (beyond : ScanKey → Prop)
    [DecidablePred beyond] (index : IndexColumns) (values : List Datum) (isnull : List Bool)
    (key : ScanKey) : Decidable (Sql.Holds cast beyond index values isnull key) :=
  inferInstanceAs (Decidable (ite _ _ _))

/-- The conditions of a query, as SQL evaluates them; `beyond` decides those that are no comparison of
a column with a value. -/
structure Quals where
  cast : Sql.Value → Sql.Value → Option Ordering
  beyond : HeapTuple → ScanKey → Bool
  index : IndexColumns
  keys : List ScanKey

namespace Quals

/-- The query's conditions are true of the tuple. -/
def Hold (q : Quals) (t : HeapTuple) : Prop :=
  ∀ key ∈ q.keys, Sql.Holds q.cast (fun key => q.beyond t key) q.index t.values t.isnull key

instance (q : Quals) : DecidablePred q.Hold := fun t =>
  inferInstanceAs (Decidable (∀ key ∈ q.keys,
    Sql.Holds q.cast (fun key => q.beyond t key) q.index t.values t.isnull key))

/-- The index has one entry at the address of each heap tuple, made from that tuple. It may have any
at addresses where the query sees nothing. -/
structure Covers (q : Quals) (heap : List HeapTuple) (rows : Multiset Row) : Prop where
  nodup : (heap.map HeapTuple.tid).Nodup
  entry : ∀ t ∈ heap, ∃ row : Row, rows.filter (fun r => r.tid = t.tid) = {row} ∧
    row.vector = t.vector ∧ rowFromDatums q.index t.values t.isnull = .ok row.attrs

/-- The tuple behind an address, tested where the scan asks for it. -/
def fetched (q : Quals) (heap : List HeapTuple) (tuple : TidPair × Bool) : Option HeapTuple :=
  (heap.find? fun t => t.tid = tuple.1).filter fun t => !tuple.2 || q.Hold t

/-- The tuples the executor returns for a scan. -/
def executed (q : Quals) (heap : List HeapTuple) (tuples : List (TidPair × Bool)) :
    List HeapTuple :=
  tuples.filterMap (q.fetched heap)

end Quals

namespace Quals

variable {q : Quals} {heap : List HeapTuple} {rows : Multiset Row} {t : HeapTuple}

/-- Pushed down, and tested again where that is asked for, the conditions are those of the query. -/
theorem pushed_iff_hold {attrs : List AttrValue}
    (hrow : rowFromDatums q.index t.values t.isnull = .ok attrs) :
    ((predicateFromKeys q.index q.keys).predicate.satisfiedBy attrs = true ∧
      ((predicateFromKeys q.index q.keys).recheck = false ∨ q.Hold t)) ↔ q.Hold t := by
  rw [predicateFromKeys_satisfied]
  constructor
  · rintro ⟨hatoms, hno | hhold⟩
    · -- no key was refused
      rw [predicateFromKeys_eq, List.any_eq_false] at hno
      intro key hkey
      cases hatom : atomFromKey q.index key with
      | none => exact absurd (congrArg Option.isNone hatom) (hno key hkey)
      | some atom => exact (atomFromKey_holds _ _ hatom hrow).mp (hatoms key hkey atom hatom)
    · exact hhold
  · intro hhold
    refine ⟨fun key hkey atom hatom => ?_, .inr hhold⟩
    exact (atomFromKey_holds _ _ hatom hrow).mpr (hhold key hkey)

theorem fetched_eq_some (hnodup : (heap.map HeapTuple.tid).Nodup) {tid : TidPair} {recheck : Bool} :
    q.fetched heap (tid, recheck) = some t ↔
      t ∈ heap ∧ t.tid = tid ∧ (recheck = false ∨ q.Hold t) := by
  have hfind : heap.find? (fun t => t.tid = tid) = some t ↔ t ∈ heap ∧ t.tid = tid := by
    constructor
    · intro h
      have htid := List.find?_some h
      exact ⟨List.mem_of_find?_eq_some h, of_decide_eq_true htid⟩
    · rintro ⟨hmem, rfl⟩
      obtain ⟨t', ht'⟩ := Option.isSome_iff_exists.mp
        (List.find?_isSome (p := fun t' => decide (t'.tid = t.tid)).mpr ⟨t, hmem, by simp⟩)
      have htid := List.find?_some ht'
      rw [ht', List.inj_on_of_nodup_map hnodup (List.mem_of_find?_eq_some ht') hmem
        (of_decide_eq_true htid)]
  unfold fetched
  rw [Option.filter_eq_some_iff, hfind]
  simp [and_assoc]

namespace Covers

variable (K : q.Covers heap rows)
include K

theorem count_tid (ht : t ∈ heap) : (rows.map Row.tid).count t.tid = 1 := by
  obtain ⟨row, hrow, -, -⟩ := K.entry t ht
  rw [Multiset.count_map]
  simp only [eq_comm (a := t.tid)]
  rw [hrow]
  exact Multiset.card_singleton row

/-- The entry at a tuple's address was made from the tuple. -/
theorem of_mem {row : Row} (ht : t ∈ heap) (hrow : row ∈ rows) (htid : row.tid = t.tid) :
    row.vector = t.vector ∧ rowFromDatums q.index t.values t.isnull = .ok row.attrs := by
  obtain ⟨only, honly, hvector, hattrs⟩ := K.entry t ht
  have hmem : row ∈ rows.filter fun r => r.tid = t.tid := Multiset.mem_filter.mpr ⟨hrow, htid⟩
  rw [honly, Multiset.mem_singleton] at hmem
  exact hmem ▸ ⟨hvector, hattrs⟩

theorem mem_executed {results : List TidPair} {recheck : Bool} :
    t ∈ q.executed heap (results.map fun tid => (tid, recheck)) ↔
      t ∈ heap ∧ t.tid ∈ results ∧ (recheck = false ∨ q.Hold t) := by
  unfold executed
  rw [List.filterMap_map, List.mem_filterMap]
  constructor
  · rintro ⟨tid, hmem, hfetched⟩
    obtain ⟨ht, rfl, hhold⟩ := (fetched_eq_some K.nodup).mp hfetched
    exact ⟨ht, hmem, hhold⟩
  · rintro ⟨ht, hmem, hhold⟩
    exact ⟨t.tid, hmem, (fetched_eq_some K.nodup).mpr ⟨ht, rfl, hhold⟩⟩

/-- No tuple is returned twice. -/
theorem nodup_executed {results : List TidPair} (hresults : ↑results ≤ rows.map Row.tid)
    (recheck : Bool) : (q.executed heap (results.map fun tid => (tid, recheck))).Nodup := by
  refine List.nodup_iff_count_le_one.mpr fun t => ?_
  by_cases ht : t ∈ heap
  · unfold executed
    rw [List.filterMap_map, List.count_filterMap]
    calc results.countP _ ≤ results.countP (· == t.tid) := by
          refine List.countP_mono_left fun tid _ hfetched => ?_
          have h := (fetched_eq_some K.nodup).mp (eq_of_beq hfetched)
          exact beq_iff_eq.mpr h.2.1.symm
      _ = (results : Multiset TidPair).count t.tid := by
          rw [Multiset.coe_count]
          exact List.countP_congr fun tid _ => by simp
      _ ≤ (rows.map Row.tid).count t.tid := Multiset.count_le_of_le _ hresults
      _ = 1 := K.count_tid ht
  · rw [List.count_eq_zero_of_not_mem fun hmem => ht (K.mem_executed.mp hmem).1]
    exact Nat.zero_le 1

/-- **Without an order**: the addresses of the entries that match lead to what a sequential scan
returns. -/
theorem perm_executed {results : List TidPair}
    (hresults : (results : Multiset TidPair) = (rows.filter fun row =>
      (predicateFromKeys q.index q.keys).predicate.satisfiedBy row.attrs).map Row.tid) :
    (q.executed heap (results.map fun tid =>
      (tid, (predicateFromKeys q.index q.keys).recheck))).Perm (heap.filter q.Hold) := by
  have hle : ↑results ≤ rows.map Row.tid :=
    hresults ▸ Multiset.map_le_map (Multiset.filter_le _ rows)
  refine (List.perm_ext_iff_of_nodup (K.nodup_executed hle _)
    ((List.Nodup.of_map _ K.nodup).filter _)).mpr fun t => ?_
  rw [K.mem_executed, List.mem_filter, decide_eq_true_iff]
  refine and_congr_right fun ht => ?_
  obtain ⟨row, hrow, -, hattrs⟩ := K.entry t ht
  have hmem : t.tid ∈ results ↔
      (predicateFromKeys q.index q.keys).predicate.satisfiedBy row.attrs = true := by
    have hsole : ∀ r, r ∈ rows ∧ r.tid = t.tid ↔ r = row := by
      intro r
      rw [← Multiset.mem_filter (p := fun r : Row => r.tid = t.tid), hrow, Multiset.mem_singleton]
    rw [← Multiset.mem_coe, hresults, Multiset.mem_map]
    constructor
    · rintro ⟨r, hr, htid⟩
      obtain ⟨hr, hmatch⟩ := Multiset.mem_filter.mp hr
      exact (hsole r).mp ⟨hr, htid⟩ ▸ hmatch
    · intro hmatch
      obtain ⟨hin, htid⟩ := (hsole row).mpr rfl
      exact ⟨row, Multiset.mem_filter.mpr ⟨hin, hmatch⟩, htid⟩
  rw [hmem]
  exact pushed_iff_hold hattrs

/-- **With an order**: matching entries with a vector, in order, lead to matching tuples in order. -/
theorem ordered_executed {found : List Row} {R : Option (List F32) → Option (List F32) → Prop}
    (hfound : ↑found ≤ rows.filter fun row =>
      (predicateFromKeys q.index q.keys).predicate.satisfiedBy row.attrs ∧ row.vector.isSome)
    (hsorted : found.Pairwise fun a b => R a.vector b.vector) :
    let tuples := q.executed heap ((found.map Row.tid).map fun tid =>
      (tid, (predicateFromKeys q.index q.keys).recheck))
    tuples.Subperm (heap.filter fun t => q.Hold t ∧ t.vector.isSome) ∧
      tuples.length ≤ found.length ∧ (∀ t ∈ tuples, ∃ row ∈ found, row.vector = t.vector) ∧
      tuples.Pairwise fun a b => R a.vector b.vector := by
  have hentry : ∀ row ∈ found, row ∈ rows ∧
      (predicateFromKeys q.index q.keys).predicate.satisfiedBy row.attrs = true ∧
      row.vector.isSome = true := by
    intro row hrow
    exact Multiset.mem_filter.mp (Multiset.mem_of_le hfound (Multiset.mem_coe.mpr hrow))
  have hle : (↑(found.map Row.tid) : Multiset TidPair) ≤ rows.map Row.tid :=
    Multiset.map_le_map (hfound.trans (Multiset.filter_le _ rows))
  refine ⟨List.subperm_of_subset (K.nodup_executed hle _) fun t ht => ?_, ?_, fun t ht => ?_, ?_⟩
  · obtain ⟨hheap, hmem, hhold⟩ := K.mem_executed.mp ht
    obtain ⟨row, hrow, htid⟩ := List.mem_map.mp hmem
    obtain ⟨hin, hmatch, hsome⟩ := hentry row hrow
    obtain ⟨hvector, hattrs⟩ := K.of_mem hheap hin htid
    rw [List.mem_filter, decide_eq_true_iff, ← hvector]
    exact ⟨hheap, (pushed_iff_hold hattrs).mp ⟨hmatch, hhold⟩, hsome⟩
  · unfold executed
    refine (List.length_filterMap_le _ _).trans (le_of_eq ?_)
    rw [List.length_map, List.length_map]
  · obtain ⟨hheap, hmem, -⟩ := K.mem_executed.mp ht
    obtain ⟨row, hrow, htid⟩ := List.mem_map.mp hmem
    exact ⟨row, hrow, (K.of_mem hheap (hentry row hrow).1 htid).1⟩
  · unfold executed
    rw [List.filterMap_map, List.filterMap_map, List.pairwise_filterMap]
    refine hsorted.imp_of_mem ?_
    intro a b ha hb hab t ht t' ht'
    obtain ⟨hheap, htid, -⟩ := (fetched_eq_some K.nodup).mp ht
    obtain ⟨hheap', htid', -⟩ := (fetched_eq_some K.nodup).mp ht'
    rw [← (K.of_mem hheap (hentry a ha).1 htid.symm).1,
      ← (K.of_mem hheap' (hentry b hb).1 htid'.symm).1]
    exact hab

end Covers

end Quals

/-! ## Every reachable state -/

namespace Cluster

variable [Arith] {capacity : Nat} {build : Build} {s : Cluster capacity} {image : Image}

omit [Arith] in
/-- A row with one attribute. -/
def pricedRow (vector : Option (List F32)) (price : AttrValue) (offset : UInt16) : HeapRow :=
  ⟨⟨vector, [price], (0, offset)⟩, Nat.one_lt_two_pow (by decide)⟩

omit [Arith] in
def pricedBuild : Build :=
  ⟨.default, HnswParams.default_m_word, HnswParams.default_ef_word, 1,
    [pricedRow (some [F32.one]) (.int 5) 1, pricedRow none (.int 7) 2]⟩

omit [Arith] in
/-- A heap slot is vacuumed and used again, and a row comes whose transaction is still open. -/
def pricedActions : List ClusterAction :=
  [.vacuum fun tid => tid = (0, 2), .insert 0 (pricedRow (some [F32.zero]) (.int 9) 2), .commit 0,
    .insert 1 (pricedRow none (.int 8) 3), .writeBack 1, .insert 0 (pricedRow none .null 4), .commit 0]

omit [Arith] in
/-- What a query sees that cannot see that row yet. -/
def pricedHeap : List HeapTuple :=
  [⟨[0, 5], [false, false], some [F32.one], (0, 1)⟩, ⟨[0, 9], [false, false], some [F32.zero], (0, 2)⟩,
    ⟨[0, 0], [true, true], none, (0, 4)⟩]

omit [Arith] in
/-- `price > 4`, and a condition on an array that the index leaves to the executor. -/
def pricedQuals : Quals :=
  ⟨fun _ _ => none, fun t _ => t.tid ≠ (0, 1), ⟨[.other 0, .int4]⟩,
    [⟨0, 2, strategyGt, .int4, 4⟩, ⟨skSearchArray, 2, strategyEq, .int4, 0⟩]⟩

omit [Arith] in
theorem pricedQuals_covers : pricedQuals.Covers pricedHeap
    ↑[⟨some [F32.one], [.int 5], (0, 1)⟩, ⟨some [F32.zero], [.int 9], (0, 2)⟩,
      ⟨none, [.int 8], (0, 3)⟩, (⟨none, [.null], (0, 4)⟩ : Row)] where
  nodup := by decide
  entry := by
    intro t ht
    simp only [pricedHeap, List.mem_cons, List.not_mem_nil, or_false] at ht
    rcases ht with rfl | rfl | rfl
    · exact ⟨⟨some [F32.one], [.int 5], (0, 1)⟩, by decide, rfl, by decide⟩
    · exact ⟨⟨some [F32.zero], [.int 9], (0, 2)⟩, by decide, rfl, by decide⟩
    · exact ⟨⟨none, [.null], (0, 4)⟩, by decide, rfl, by decide⟩

omit [Arith] in
theorem priced_run : Ensures (@Build.fork 8168 Arith.ieee pricedBuild) fun fork =>
    Along (@step 8168 Arith.ieee pricedBuild.arity)
        (fun s a => @Fits 8168 Arith.ieee pricedBuild s a ∧ s.rewrites < 2 ^ 64) (start fork)
        pricedActions ∧
      Ensures (run (@step 8168 Arith.ieee pricedBuild.arity) (start fork) pricedActions) fun s =>
        pricedBuild.indexed s.history = ↑[⟨some [F32.one], [.int 5], (0, 1)⟩,
            ⟨some [F32.zero], [.int 9], (0, 2)⟩, ⟨none, [.int 8], (0, 3)⟩,
            (⟨none, [.null], (0, 4)⟩ : Row)] ∧
          Ensures (@loadIndexWithGeneration 8168 Arith.ieee pricedBuild.arity s.fork) fun copy =>
            copy.hnsw.dim = 1 ∧ copy.hnsw.metric = .l2 := by
  decide +kernel

/-- **An index scan without an order is a sequential scan.** Whatever the backends have inserted,
rolled back, written back and vacuumed, the query returns the visible tuples that satisfy it, each
once: those a scan of the heap returns. -/
theorem unordered_scan_sequential (hcap : metaSize ≤ capacity) (fork : Fork capacity)
    (hfit : build.Fits) (hfork : build.fork = .ok fork) (actions : List ClusterAction)
    (halong : Along (step build.arity) (fun s a => s.Fits build a ∧ s.rewrites < 2 ^ 64)
      (start fork) actions) :
    Ensures (run (step build.arity) (start fork) actions) fun s =>
      ∀ copy, loadIndexWithGeneration build.arity s.fork = .ok copy →
        ∀ (q : Quals) (heap : List HeapTuple), q.Covers heap (build.indexed s.history) →
          ∀ efSearch, Ensures
            (ScanSearch.new.rescan copy ⟨false, q.index, q.keys, .absent, efSearch⟩)
            fun scan => (q.executed heap scan.tuples).Perm (heap.filter q.Hold) := by
  refine (indexed_run hcap hfit hfork halong).mono ?_
  rintro s ⟨image, X⟩ copy hload q heap K efSearch
  obtain ⟨S, hcontents⟩ := X.loaded hcap hload
  obtain ⟨tids, htids, hreturned⟩ :=
    startUnordered_contents S.valid (predicateFromKeys q.index q.keys).predicate
  refine ⟨_, ScanSearch.startUnordered_refines htids, ?_⟩
  rw [hcontents] at hreturned
  exact K.perm_executed hreturned

omit [Arith] in
theorem unordered_scan_sequential_sample :
    Ensures (@Build.fork 8168 Arith.ieee pricedBuild) fun fork =>
      Ensures (run (@step 8168 Arith.ieee pricedBuild.arity) (start fork) pricedActions) fun s =>
        Ensures (@loadIndexWithGeneration 8168 Arith.ieee pricedBuild.arity s.fork) fun copy =>
          Ensures (@ScanSearch.rescan Arith.ieee .new copy
              ⟨false, pricedQuals.index, pricedQuals.keys, .absent, 1⟩) fun scan =>
            (pricedQuals.executed pricedHeap scan.tuples).Perm
              (pricedHeap.filter pricedQuals.Hold) := by
  obtain ⟨fork, hfork, halong, s, hrun, hrows, copy, hload, -⟩ := priced_run
  have h := (@unordered_scan_sequential Arith.ieee 8168 pricedBuild (by decide) fork
    (by decide +kernel) hfork pricedActions halong).elim hrun copy hload pricedQuals pricedHeap
    (hrows ▸ pricedQuals_covers) 1
  exact ⟨fork, hfork, s, hrun, copy, hload, h⟩

/-- **An index scan with an order** returns visible tuples that satisfy the query and have a vector,
none twice and no more than it was allowed to look for, nearest first. -/
theorem ordered_scan_nearest (hcap : metaSize ≤ capacity) (fork : Fork capacity)
    (hfit : build.Fits) (hfork : build.fork = .ok fork) (actions : List ClusterAction)
    (halong : Along (step build.arity) (fun s a => s.Fits build a ∧ s.rewrites < 2 ^ 64)
      (start fork) actions) :
    Ensures (run (step build.arity) (start fork) actions) fun s =>
      ∀ copy, loadIndexWithGeneration build.arity s.fork = .ok copy →
        ∀ (q : Quals) (heap : List HeapTuple), q.Covers heap (build.indexed s.history) →
          ∀ query efSearch, (copy.hnsw.n ≠ 0 → query.length = copy.hnsw.dim) → Ensures
            (ScanSearch.new.rescan copy ⟨false, q.index, q.keys, .vector query, efSearch⟩)
            fun scan =>
              (q.executed heap scan.tuples).Subperm
                (heap.filter fun t => q.Hold t ∧ t.vector.isSome) ∧
              (q.executed heap scan.tuples).length ≤ max efSearch 1 ∧
              (q.executed heap scan.tuples).Pairwise fun a b =>
                copy.hnsw.metric.distanceKey query a.vector ≤
                  copy.hnsw.metric.distanceKey query b.vector := by
  refine (indexed_run hcap hfit hfork halong).mono ?_
  rintro s ⟨image, X⟩ copy hload q heap K query efSearch hq
  obtain ⟨S, hcontents⟩ := X.loaded hcap hload
  refine (ScanSearch.start_spec S.valid S.kept.1 hq efSearch).mono ?_
  rintro scan ⟨hrecheck, hits, H, hresults⟩
  obtain ⟨found, htids, hfound, hsorted⟩ := H.rows S.valid
  have htuples : scan.tuples = (found.map Row.tid).map fun tid =>
      (tid, (predicateFromKeys q.index q.keys).recheck) := by
    unfold ScanSearch.tuples
    rw [hrecheck, hresults, htids]
  rw [hcontents] at hfound
  obtain ⟨hsub, hlength, -, hpairwise⟩ := K.ordered_executed
    (R := fun u v => copy.hnsw.metric.distanceKey query u ≤ copy.hnsw.metric.distanceKey query v)
    hfound hsorted
  rw [htuples]
  refine ⟨hsub, hlength.trans ?_, hpairwise⟩
  calc found.length = hits.length := by
        rw [← List.length_map Row.tid, htids, List.length_map]
    _ ≤ max efSearch 1 := H.length_le

omit [Arith] in
theorem ordered_scan_nearest_sample :
    Ensures (@Build.fork 8168 Arith.ieee pricedBuild) fun fork =>
      Ensures (run (@step 8168 Arith.ieee pricedBuild.arity) (start fork) pricedActions) fun s =>
        Ensures (@loadIndexWithGeneration 8168 Arith.ieee pricedBuild.arity s.fork) fun copy =>
          Ensures (@ScanSearch.rescan Arith.ieee .new copy
              ⟨false, pricedQuals.index, pricedQuals.keys, .vector [F32.zero], 2⟩) fun scan =>
            (pricedQuals.executed pricedHeap scan.tuples).Subperm
                (pricedHeap.filter fun t => pricedQuals.Hold t ∧ t.vector.isSome) ∧
              (pricedQuals.executed pricedHeap scan.tuples).length ≤ 2 ∧
              (pricedQuals.executed pricedHeap scan.tuples).Pairwise fun a b =>
                @Metric.distanceKey Arith.ieee copy.hnsw.metric [F32.zero] a.vector ≤
                  @Metric.distanceKey Arith.ieee copy.hnsw.metric [F32.zero] b.vector := by
  obtain ⟨fork, hfork, halong, s, hrun, hrows, copy, hload, hdim, -⟩ := priced_run
  have h := (@ordered_scan_nearest Arith.ieee 8168 pricedBuild (by decide) fork
    (by decide +kernel) hfork pricedActions halong).elim hrun copy hload pricedQuals pricedHeap
    (hrows ▸ pricedQuals_covers) [F32.zero] 2 fun _ => hdim.symm
  exact ⟨fork, hfork, s, hrun, copy, hload, h⟩

omit [Arith] in
example : Ensures (@Build.fork 8168 Arith.ieee pricedBuild) fun fork =>
    Ensures (run (@step 8168 Arith.ieee pricedBuild.arity) (start fork) pricedActions) fun s =>
      Ensures (@loadIndexWithGeneration 8168 Arith.ieee pricedBuild.arity s.fork) fun copy =>
        Ensures (@ScanSearch.rescan Arith.ieee .new copy
            ⟨false, pricedQuals.index, pricedQuals.keys, .vector [F32.zero], 2⟩) fun scan =>
          (pricedQuals.executed pricedHeap scan.tuples).map HeapTuple.tid = [(0, 2)] := by
  decide +kernel

end Cluster

end Brindle
