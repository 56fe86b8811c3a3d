/-
# Brindle.Storage.Scan — an index scan, as the executor drives it.

A scan is opened once and rescanned with new keys as often as the plan above it asks; each rescan runs
one search over the index it finds and keeps the heap addresses, and each fetch hands out the next.
What has been handed out since the last rescan is the beginning of what a scan opened just then would
have found, whatever the scan did before. With an order these are live rows that match, nearest first.
-/
import Brindle.Attrs
import Brindle.Hnsw.Answers
import Brindle.Storage.Unordered

namespace Brindle

open Outcome (Ensures ensures_pure fail)
open Run (After Along Throughout run)

/-! ## The search behind a scan -/

/-- What the executor's calls raise. -/
inductive AmError where
  /-- "this index cannot serve an index-only scan" -/
  | indexOnly
  /-- "index scans only run forward" -/
  | backward
  | scan (e : ScanError)
  deriving DecidableEq, Repr

/-- The results of the one search a scan runs, with a cursor into them. -/
structure ScanSearch where
  query : List F32
  /-- Heap addresses, nearest first where there is an order. -/
  results : List TidPair
  cursor : Nat
  /-- Whether the executor must test the rows again. -/
  recheck : Bool
  deriving DecidableEq, Repr

/-- An error, and the search it leaves behind. -/
structure ScanRaised where
  error : AmError
  search : ScanSearch
  deriving DecidableEq, Repr

/-- The `ORDER BY` of a scan. -/
inductive OrderBy where
  | absent
  | null
  | vector (query : List F32)
  deriving DecidableEq, Repr

/-- What the executor asks for. -/
structure Rescan where
  wantItup : Bool
  index : IndexColumns
  keys : List ScanKey
  orderBy : OrderBy
  /-- `brindle.ef_search`. -/
  efSearch : Nat
  deriving DecidableEq, Repr

namespace ScanSearch

def new : ScanSearch := ⟨[], [], 0, false⟩

/-- Before the search, not after: one that fails must not leave the previous results behind. -/
def cleared (s : ScanSearch) (query : List F32) : ScanSearch :=
  { s with query, cursor := 0, results := [] }

/-- Raise `x`'s error, if it has one, from this state. -/
def raising {α : Type} (s : ScanSearch) (x : Outcome ScanError α) : Outcome ScanRaised α :=
  x.mapError fun error => ⟨.scan error, s⟩

/-- Look up the heap address of a node. -/
def push (tids : List TidPair) (s : ScanSearch) (id : Nat) : Outcome ScanRaised ScanSearch :=
  match tids[id]? with
  | some tid => return { s with results := s.results ++ [tid] }
  | none => fail ⟨.scan (.unmappedNode id), s⟩

/-- Begin the scan for `query`, running its one search over the index it loaded. -/
def start [Arith] (s : ScanSearch) (handle : Image) (query : List F32) (predicate : Predicate)
    (efSearch : Nat) : Outcome ScanRaised ScanSearch := do
  let s := s.cleared query
  let budget := max efSearch 1
  let found ← s.raising
    ((handle.hnsw.searchFiltered query budget budget predicate).mapError .search)
  found.foldlM (fun s hit => s.push handle.tids hit.2) s

/-- Begin a scan that has a predicate but no ordering. -/
def startUnordered (s : ScanSearch) (handle : Image) (predicate : Predicate) :
    Outcome ScanRaised ScanSearch := do
  let s := s.cleared []
  let matched ← s.raising ((handle.hnsw.matching predicate).mapError .search)
  let s ← matched.foldlM (push handle.tids) s
  return handle.unrankable.foldl (fun s row =>
    if predicate.satisfiedBy row.2 then { s with results := s.results ++ [row.1] } else s) s

/-- End the scan without returning anything. -/
def stop (s : ScanSearch) : ScanSearch := { s with query := [], results := [], cursor := 0 }

/-- The next heap address, `none` once the results are spent. -/
def next (s : ScanSearch) : Option TidPair × ScanSearch :=
  match s.results[s.cursor]? with
  | some tid => (some tid, { s with cursor := s.cursor + 1 })
  | none => (none, s)

/-- `amrescan`, over the index the search will load. -/
def rescan [Arith] (s : ScanSearch) (handle : Image) (r : Rescan) :
    Outcome ScanRaised ScanSearch :=
  if r.wantItup then fail ⟨.indexOnly, s⟩
  else
    let pushed := predicateFromKeys r.index r.keys
    let s := { s with recheck := pushed.recheck }
    match r.orderBy with
    | .absent => s.startUnordered handle pushed.predicate
    -- nothing ranks against a null query vector
    | .null => return s.stop
    | .vector query => s.start handle query pushed.predicate r.efSearch

/-- `amgettuple`: the next heap address, and whether its row is to be tested again. -/
def gettuple (s : ScanSearch) (forward : Bool) :
    Outcome ScanRaised (Option (TidPair × Bool) × ScanSearch) :=
  if forward then return (s.next.1.map fun tid => (tid, s.recheck), s.next.2)
  else fail ⟨.backward, s⟩

/-- Everything a scan has to hand out. -/
def tuples (s : ScanSearch) : List (TidPair × Bool) := s.results.map fun tid => (tid, s.recheck)

end ScanSearch

/-! ## Rescans and fetches -/

/-- An open scan. -/
structure Scan where
  search : ScanSearch
  /-- The last rescan and the index it found. No call looks at it. -/
  asked : Option (Image × Rescan)
  /-- How many tuples have been asked for since, and which were handed out. No call looks at it. -/
  fetches : Nat
  handed : List (TidPair × Bool)

inductive ScanCall where
  | rescan (handle : Image) (r : Rescan)
  | fetch (forward : Bool)

namespace Scan

/-- `ambeginscan`. -/
def begin : Scan := ⟨.new, none, 0, []⟩

def step [Arith] (s : Scan) : ScanCall → Outcome ScanRaised Scan
  | .rescan handle r => do return ⟨← s.search.rescan handle r, some (handle, r), 0, []⟩
  | .fetch forward => do
    let (tuple, search) ← s.search.gettuple forward
    return { s with search, fetches := s.fetches + 1, handed := s.handed ++ tuple.toList }

end Scan

namespace ScanSearch

section

variable [Arith] {s : ScanSearch} {handle : Image} {r : Rescan}

/-- **A rescan starts over**: nothing of what the scan did before is left, also in the search that an
error of the rescan leaves behind. -/
theorem rescan_eq_new (hwant : r.wantItup = false) : s.rescan handle r = new.rescan handle r := by
  unfold rescan
  rw [hwant]
  cases r.orderBy <;> rfl

omit [Arith] in
/-- A loop that pushes only adds results. -/
theorem after_push (tids : List TidPair) (ids : List Nat) (s : ScanSearch) :
    After (fun t : ScanSearch => t.recheck = s.recheck ∧ t.cursor = s.cursor)
      (ids.foldlM (push tids) s) := by
  refine Run.after_foldlM_const _ ids ?_ ⟨rfl, rfl⟩
  rintro id t - ⟨hrecheck, hcursor⟩
  unfold push
  cases tids[id]? with
  | none => trivial
  | some tid => exact ⟨hrecheck, hcursor⟩

/-- A rescan rewinds the cursor, and the keys alone say whether rows are tested again. -/
theorem rescan_spec (s : ScanSearch) (handle : Image) (r : Rescan) :
    After (fun t : ScanSearch => t.cursor = 0 ∧
        t.recheck = (predicateFromKeys r.index r.keys).recheck) (s.rescan handle r) := by
  unfold rescan
  split_ifs
  · trivial
  cases r.orderBy with
  | absent =>
    refine (Run.after_true _).bind fun matched _ => ?_
    refine (after_push handle.tids matched _).bind fun t ht => ?_
    -- the rows without a vector are pushed one by one
    have hunranked : ∀ (rows : List UnrankableRow) (t : ScanSearch),
        (rows.foldl (fun (t : ScanSearch) row =>
          if (predicateFromKeys r.index r.keys).predicate.satisfiedBy row.2 then
            { t with results := t.results ++ [row.1] } else t) t).cursor = t.cursor ∧
        (rows.foldl (fun (t : ScanSearch) row =>
          if (predicateFromKeys r.index r.keys).predicate.satisfiedBy row.2 then
            { t with results := t.results ++ [row.1] } else t) t).recheck = t.recheck := by
      intro rows
      induction rows with
      | nil => exact fun _ => ⟨rfl, rfl⟩
      | cons row rows ih =>
        intro t
        rw [List.foldl_cons]
        split_ifs
        · exact ih _
        · exact ih t
    obtain ⟨hcursor, hrecheck⟩ := hunranked handle.unrankable t
    exact ⟨hcursor.trans ht.2, hrecheck.trans ht.1⟩
  | null => exact ⟨rfl, rfl⟩
  | vector query =>
    refine (Run.after_true _).bind fun found _ => ?_
    have hpush := after_push handle.tids (found.map Prod.snd)
      ({ s with recheck := (predicateFromKeys r.index r.keys).recheck }.cleared query)
    rw [List.foldlM_map] at hpush
    exact hpush.mono fun t ht => ⟨ht.2, ht.1⟩

end

end ScanSearch

namespace Scan

variable [Arith] {s : Scan}

/-- The cursor counts the fetches until the results are spent, and what was handed out is what a scan
opened at the last rescan would have handed out by now. -/
structure Follows (s : Scan) : Prop where
  cursor_eq : s.search.cursor = min s.fetches s.search.results.length
  handed_eq : s.handed = s.search.tuples.take s.fetches
  unasked : s.asked = none → s.search.results = []
  fresh : ∀ handle r, s.asked = some (handle, r) →
    Ensures (ScanSearch.new.rescan handle r) fun fresh =>
      fresh.tuples = s.search.tuples

theorem follows_begin : begin.Follows := ⟨rfl, rfl, fun _ => rfl, nofun⟩

theorem follows_rescan (s : Scan) (handle : Image) (r : Rescan) :
    After Follows (s.step (.rescan handle r)) := by
  show After Follows (do return (⟨← s.search.rescan handle r, some (handle, r), 0, []⟩ : Scan))
  cases hrescan : s.search.rescan handle r with
  | error fault => trivial
  | ok search =>
    have hwant : r.wantItup = false := by
      cases hwant : r.wantItup with
      | false => rfl
      | true =>
        unfold ScanSearch.rescan at hrescan
        rw [hwant] at hrescan
        cases hrescan
    have hcursor := ((ScanSearch.rescan_spec s.search handle r).elim hrescan).1
    rw [ScanSearch.rescan_eq_new hwant] at hrescan
    refine ⟨?_, rfl, nofun, ?_⟩
    · rw [hcursor]
      exact (Nat.zero_min _).symm
    · rintro handle' r' hasked
      cases hasked
      exact ⟨search, hrescan, rfl⟩

theorem Follows.fetch (F : s.Follows) (forward : Bool) :
    After Follows (s.step (.fetch forward)) := by
  cases forward with
  | false => trivial
  | true =>
    have hlength : s.search.tuples.length = s.search.results.length := List.length_map _
    show Follows { s with
      search := s.search.next.2
      fetches := s.fetches + 1
      handed := s.handed ++ (s.search.next.1.map fun tid => (tid, s.search.recheck)).toList }
    unfold ScanSearch.next
    rcases Nat.lt_or_ge s.fetches s.search.results.length with hmore | hspent
    · have hcursor : s.search.cursor = s.fetches := F.cursor_eq.trans (Nat.min_eq_left hmore.le)
      rw [hcursor, List.getElem?_eq_getElem hmore]
      refine ⟨?_, ?_, F.unasked, F.fresh⟩
      · exact (Nat.min_eq_left hmore).symm
      · show s.handed ++ [(s.search.results[s.fetches], s.search.recheck)] =
          s.search.tuples.take (s.fetches + 1)
        rw [F.handed_eq, List.take_succ_eq_append_getElem (hlength ▸ hmore)]
        unfold ScanSearch.tuples
        rw [List.getElem_map]
    · have hcursor : s.search.cursor = s.search.results.length :=
        F.cursor_eq.trans (Nat.min_eq_right hspent)
      rw [hcursor, List.getElem?_eq_none le_rfl]
      refine ⟨?_, ?_, F.unasked, F.fresh⟩
      · show s.search.cursor = min (s.fetches + 1) s.search.results.length
        rw [hcursor]
        omega
      · show s.handed ++ [] = s.search.tuples.take (s.fetches + 1)
        rw [List.append_nil, F.handed_eq, List.take_of_length_le (by omega),
          List.take_of_length_le (by omega)]

/-- **Rescans and fetches.** At any point of any sequence of rescans and fetches, what has been handed
out since the last rescan is the beginning of what a scan opened for that rescan alone finds in the
index it saw, one tuple a fetch, each with the flag its keys call for; before any rescan it is nothing. -/
theorem handed_out (calls : List ScanCall) :
    Throughout step (fun s =>
        (s.asked = none → s.handed = []) ∧
        ∀ handle r, s.asked = some (handle, r) →
          Ensures (ScanSearch.new.rescan handle r) fun fresh =>
            s.handed = (fresh.results.take s.fetches).map fun tid =>
              (tid, (predicateFromKeys r.index r.keys).recheck)) begin calls := by
  refine Run.throughout_of_invariant (I := Follows) (C := fun _ _ => True) ?_ ?_ follows_begin
    (Run.along_of_forall (fun _ _ _ => trivial) _)
  · rintro s call F -
    cases call with
    | rescan handle r => exact follows_rescan s handle r
    | fetch forward => exact F.fetch forward
  · intro s F
    constructor
    · intro hasked
      rw [F.handed_eq, ScanSearch.tuples, F.unasked hasked]
      exact List.take_nil
    · intro handle r hasked
      obtain ⟨fresh, hfresh, htuples⟩ := F.fresh handle r hasked
      refine ⟨fresh, hfresh, ?_⟩
      have hflag := ((ScanSearch.rescan_spec _ handle r).elim hfresh).2
      rw [F.handed_eq, ← htuples, ← hflag]
      exact List.map_take.symm

end Scan

/-! ## What a search finds -/

namespace ScanSearch

variable {s : ScanSearch} {handle : Image} {predicate : Predicate} {tids : List TidPair}

/-- The addresses a loop pushes are those it would collect. -/
theorem push_collects {table results : List TidPair} {ids : List Nat} (s : ScanSearch)
    (h : ids.foldlM (fun results id =>
      match table[id]? with
      | some tid => return results ++ [tid]
      | none => fail (.unmappedNode id)) s.results = (.ok results : Outcome ScanError _)) :
    ids.foldlM (push table) s = .ok { s with results } := by
  induction ids generalizing s with
  | nil =>
    cases h
    rfl
  | cons id ids ih =>
    rw [List.foldlM_cons] at h ⊢
    unfold push
    cases hlookup : table[id]? with
    | none =>
      rw [hlookup] at h
      cases h
    | some tid =>
      rw [hlookup] at h
      exact ih { s with results := s.results ++ [tid] } h

theorem pushUnranked (rows : List UnrankableRow) (s : ScanSearch) :
    rows.foldl (fun (s : ScanSearch) row =>
      if predicate.satisfiedBy row.2 then { s with results := s.results ++ [row.1] } else s) s =
    { s with results := rows.foldl (fun results row =>
      if predicate.satisfiedBy row.2 then results ++ [row.1] else results) s.results } := by
  induction rows generalizing s with
  | nil => rfl
  | cons row rows ih =>
    rw [List.foldl_cons, List.foldl_cons, ih]
    split_ifs <;> rfl

/-- The scan without an order keeps what `Brindle.startUnordered` returns. -/
theorem startUnordered_refines (h : Brindle.startUnordered handle predicate = .ok tids) :
    s.startUnordered handle predicate = .ok { s.cleared [] with results := tids } := by
  obtain ⟨matched, hmatched, h⟩ := Outcome.bind_eq_ok.mp h
  obtain ⟨results, hresults, h⟩ := Outcome.bind_eq_ok.mp h
  unfold startUnordered
  dsimp only
  rw [Outcome.mapError_eq_ok.mp hmatched]
  show (matched.foldlM (push handle.tids) (s.cleared []) >>= _) = _
  rw [push_collects (s.cleared []) hresults, Outcome.ok_bind, pushUnranked]
  cases h
  rfl

variable [Arith]

/-- What a search finds, looked up in the pointer table. -/
theorem start_spec (V : handle.Valid) (W : Hnsw.WellFormed handle.hnsw) {query : List F32}
    (hq : handle.hnsw.n ≠ 0 → query.length = handle.hnsw.dim) (efSearch : Nat) :
    Ensures (s.start handle query predicate efSearch) fun t => t.recheck = s.recheck ∧
      ∃ hits, Hnsw.SoundHits handle.hnsw query (some predicate) (max efSearch 1) hits ∧
        t.results = hits.map fun hit => handle.tids.getD hit.2 (0, 0) := by
  have hfound : Ensures (handle.hnsw.searchFiltered query (max efSearch 1) (max efSearch 1) predicate)
      (Hnsw.SoundHits handle.hnsw query (some predicate) (max efSearch 1)) := by
    by_cases hn : handle.hnsw.n = 0
    · -- without a node there is no entry point, and no dimension to compare with
      have hentry : handle.hnsw.entryPoint = none := by
        by_contra hsome
        obtain ⟨e, he⟩ := Option.ne_none_iff_exists'.mp hsome
        exact absurd (W.entry_lt e he) (by omega)
      unfold Hnsw.searchFiltered Hnsw.searchFilteredWithCost Hnsw.searchInner
      rw [hentry]
      exact ensures_pure.mpr (Hnsw.soundHits_nil _)
    · unfold Hnsw.searchFiltered Hnsw.searchFilteredWithCost
      exact (Hnsw.searchInner_sound W (hq hn) _ _).bind fun r hr => ensures_pure.mpr hr
  obtain ⟨hits, hrun, H⟩ := hfound
  have hcollect : (hits.map Prod.snd).foldlM (fun results id =>
        match handle.tids[id]? with
        | some tid => return results ++ [tid]
        | none => fail (ScanError.unmappedNode id)) ([] : List TidPair) =
      .ok ((hits.map Prod.snd).map fun id => handle.tids.getD id (0, 0)) := by
    refine (Outcome.foldlM_push _ ?_ []).trans (by rw [List.nil_append])
    intro id hid results
    obtain ⟨hit, hhit, rfl⟩ := List.mem_map.mp hid
    have hcovered : hit.2 < handle.tids.length := by
      rw [V.tids_len]
      exact (H.live hit hhit).1
    rw [List.getElem?_eq_getElem hcovered, List.getD_eq_getElem?_getD,
      List.getElem?_eq_getElem hcovered]
    rfl
  have hpush := push_collects (s.cleared query) hcollect
  rw [List.foldlM_map, List.map_map] at hpush
  refine ⟨{ s.cleared query with results := hits.map fun hit => handle.tids.getD hit.2 (0, 0) }, ?_,
    rfl, hits, H, rfl⟩
  unfold start
  dsimp only
  rw [hrun]
  exact hpush

end ScanSearch

/-! ## The rows behind the addresses -/

/-- How far a row's vector is from the query, as `total_cmp` orders distances. -/
def Metric.distanceKey [Arith] (metric : Metric) (query : List F32) (vector : Option (List F32)) :
    Int :=
  (metric.value query (vector.getD [])).totalKey

namespace Hnsw.SoundHits

variable [Arith] {handle : Image} {query : List F32} {predicate : Predicate} {k : Nat}
  {hits : List (F32 × Nat)}

/-- The row behind a hit. -/
def rowOf (handle : Image) (hit : F32 × Nat) : Row :=
  Row.ofGraph (Brindle.rowOf handle.hnsw handle.tids hit.2)

/-- The hits of a search are indexed rows that match and have a vector, no row twice. -/
theorem rows_le (V : handle.Valid) (H : SoundHits handle.hnsw query (some predicate) k hits) :
    ↑(hits.map (rowOf handle)) ≤ handle.contents.filter fun row =>
      predicate.satisfiedBy row.attrs ∧ row.vector.isSome := by
  have hfound : ∀ hit ∈ hits, handle.hnsw.isDeleted hit.2 = false ∧
      predicate.satisfiedBy (handle.hnsw.attrsOf hit.2) = true := by
    intro hit hhit
    refine ⟨?_, H.satisfies hit hhit predicate rfl⟩
    unfold isDeleted
    rw [List.getD_eq_getElem?_getD, (H.live hit hhit).2]
    rfl
  -- the ids are distinct, and all of them live
  have hsub : (hits.map Prod.snd).Subperm ((List.range handle.hnsw.n).filter fun id =>
      !handle.hnsw.isDeleted id && predicate.satisfiedBy (handle.hnsw.attrsOf id)) := by
    refine List.subperm_of_subset H.nodup fun id hid => ?_
    obtain ⟨hit, hhit, rfl⟩ := List.mem_map.mp hid
    refine List.mem_filter.mpr ⟨List.mem_range.mpr (H.live hit hhit).1, ?_⟩
    simp [hfound hit hhit]
  have hgraph : (handle.graphRows.filter fun row => !row.1.dead).map Row.ofGraph =
      ((List.range handle.hnsw.n).filter fun id => !handle.hnsw.isDeleted id).map fun id =>
        Row.ofGraph (Brindle.rowOf handle.hnsw handle.tids id) := by
    unfold Image.graphRows
    rw [V.tableRows_eq_map, List.filter_map, List.map_map]
    rfl
  have hle : (↑(((List.range handle.hnsw.n).filter fun id =>
      !handle.hnsw.isDeleted id && predicate.satisfiedBy (handle.hnsw.attrsOf id)).map fun id =>
        Row.ofGraph (Brindle.rowOf handle.hnsw handle.tids id)) : Multiset Row) ≤
      handle.contents.filter fun row => predicate.satisfiedBy row.attrs ∧ row.vector.isSome := by
    unfold Image.contents heapRows
    rw [hgraph, ← Multiset.coe_add, Multiset.filter_add]
    refine le_trans (le_of_eq ?_) (Multiset.le_add_right _ _)
    rw [Multiset.filter_coe, List.filter_map, List.filter_filter]
    refine congrArg (fun ids : List Nat => (↑(ids.map fun id =>
      Row.ofGraph (Brindle.rowOf handle.hnsw handle.tids id)) : Multiset Row)) ?_
    refine List.filter_congr fun id _ => ?_
    cases handle.hnsw.isDeleted id <;> simp [Brindle.rowOf, rowAt, Row.ofGraph]
  have hsame : hits.map (rowOf handle) =
      (hits.map Prod.snd).map fun id => Row.ofGraph (Brindle.rowOf handle.hnsw handle.tids id) := by
    rw [List.map_map]
    rfl
  rw [hsame]
  exact le_trans (Multiset.map_le_map (Multiset.coe_le.mpr hsub)) hle

/-- The distance of a hit is that of the vector in its row. -/
theorem distance_rowOf (V : handle.Valid) (H : SoundHits handle.hnsw query (some predicate) k hits)
    {hit : F32 × Nat} (hhit : hit ∈ hits) : ∃ v, (rowOf handle hit).vector = some v ∧
      handle.hnsw.metric.distance query v = .ok hit.1 := by
  obtain ⟨v, hv, hdist⟩ := H.distance_eq hit hhit
  rw [V.rowed.vector_eq (H.live hit hhit).1] at hv
  cases hv
  exact ⟨_, rfl, hdist⟩

/-- And they are in order, nearest first. -/
theorem rows (V : handle.Valid) (H : SoundHits handle.hnsw query (some predicate) k hits) :
    ∃ rows : List Row, rows.map Row.tid = hits.map (fun hit => handle.tids.getD hit.2 (0, 0)) ∧
      ↑rows ≤ handle.contents.filter (fun row =>
        predicate.satisfiedBy row.attrs ∧ row.vector.isSome) ∧
      rows.Pairwise fun a b => handle.hnsw.metric.distanceKey query a.vector ≤
        handle.hnsw.metric.distanceKey query b.vector := by
  have hfar : ∀ hit ∈ hits, handle.hnsw.metric.distanceKey query (rowOf handle hit).vector =
      hit.1.totalKey := by
    intro hit hhit
    obtain ⟨v, hvector, hdist⟩ := H.distance_rowOf V hhit
    unfold Metric.distanceKey Metric.value
    rw [hvector, Option.getD_some, hdist]
  refine ⟨hits.map (rowOf handle), List.map_map, H.rows_le V, ?_⟩
  refine List.pairwise_map.mpr (H.increasing.imp_of_mem ?_)
  intro p q hp hq hpq
  rw [hfar p hp, hfar q hq]
  exact (Prod.Lex.le_iff.mp (le_of_lt hpq)).elim le_of_lt fun h => le_of_eq h.1

end Hnsw.SoundHits

end Brindle
