/-
# Brindle.Hnsw.Insert — neighbor selection, insertion, and compaction.

`select_neighbors_heuristic`, `insert_with_attrs` and `compact` of `hnsw.rs`. The level an insert
draws is separated from what the insert does with it: `insertDrawn` takes the level, and
`insertWithAttrs` is `insertDrawn` at the level the generator draws, so a result about every drawn
level is a result about `insertDrawn`.
-/
import Brindle.Hnsw.Search

namespace Brindle

namespace Hnsw

variable [Arith]

/-- Whether no already selected node is strictly nearer to `cand` than the base is. -/
def keepsDiversity (h : Hnsw) (cand : Cand) : List Nat → Outcome HnswError Bool
  | [] => return true
  | r :: selected => do
    let d ← h.distance (← h.vector cand.id) (← h.vector r)
    if d.lt cand.dist then return false
    keepsDiversity h cand selected

/-- The greedy pass of the heuristic, over candidates nearest first. -/
def selectDiverse (h : Hnsw) (m : Nat) : List Cand → List Nat → Outcome HnswError (List Nat)
  | [], selected => return selected
  | cand :: rest, selected => do
    if selected.length ≥ m then return selected
    let keep ← h.keepsDiversity cand selected
    selectDiverse h m rest (if keep then selected ++ [cand.id] else selected)

omit [Arith] in
/-- The backfill pass: the nearest leftovers, up to `m` in all. -/
def backfill (m : Nat) : List Cand → List Nat → List Nat
  | [], selected => selected
  | cand :: rest, selected =>
    if selected.length ≥ m then selected
    else backfill m rest
      (if selected.contains cand.id then selected else selected ++ [cand.id])

/-- Malkov's neighbor-selection heuristic. -/
def selectNeighborsHeuristic (h : Hnsw) (candidates : List Cand) (m : Nat) :
    Outcome HnswError (List Nat) := do
  let sorted := candidates.insertionSort (· ≤ ·)
  let selected ← h.selectDiverse m sorted []
  return if selected.length < m then backfill m sorted selected else selected

/-- Score every node of a list against a base vector. -/
def scoreAgainst (h : Hnsw) (base : List F32) (ids : List Nat) : Outcome HnswError (List Cand) :=
  ids.foldlM (fun (cands : List Cand) nn => do
    let d ← h.distance base (← h.vector nn)
    return cands ++ [⟨d, nn⟩]) []

/-- Add the reverse edge from `n` to the new node `id`, and prune `n`'s list when that takes it past
the degree cap. -/
def linkBack (h : Hnsw) (id lc n : Nat) : Outcome HnswError Hnsw := do
  let (h, len) ← h.pushNeighbor n lc (asU32 id)
  if len ≤ h.maxDegree lc then return h
  let nbase ← h.vector n
  let cands ← h.scoreAgainst nbase (← h.neighbors n lc)
  let kept ← h.selectNeighborsHeuristic cands (h.maxDegree lc)
  h.setNeighbors n lc (kept.map asU32)

/-- Connect the new node at one layer. Returns the candidates the search there found. -/
def connectLayer (h : Hnsw) (query : List F32) (id lc : Nat) (epIds : List Nat) (tr : Traversal) :
    Outcome HnswError (Hnsw × List Cand × Traversal) := do
  let (w, tr) ← h.searchLayer query epIds h.efConstruction lc none tr
  let selected ← h.selectNeighborsHeuristic w (h.maxDegree lc)
  let h ← h.setNeighbors id lc (selected.map asU32)
  let h ← selected.foldlM (fun h n => h.linkBack id lc n) h
  return (h, w, tr)

/-- The greedy descent of an insert, over the layers above the new node's. -/
def greedyDescent (h : Hnsw) (query : List F32) (layers : List Nat) (epIds : List Nat)
    (tr : Traversal) : Outcome HnswError (List Nat × Traversal) :=
  layers.foldlM (fun (epIds, tr) lc => do
    let (w, tr) ← h.searchLayer query epIds 1 lc none tr
    return (match w.head? with
      | some nearest => [nearest.id]
      | none => epIds, tr)) (epIds, tr)

/-- The linking loop of an insert, top down. A layer that found nothing hands the entry point to
the one below. -/
def connectLayers (h : Hnsw) (query : List F32) (id entry : Nat) (layers : List Nat)
    (epIds : List Nat) (tr : Traversal) : Outcome HnswError (Hnsw × List Nat × Traversal) :=
  layers.foldlM (fun (h, epIds, tr) lc => do
    let (h, w, tr) ← h.connectLayer query id lc epIds tr
    let epIds := w.map Cand.id
    return (h, if epIds.isEmpty then [entry] else epIds, tr)) (h, epIds, tr)

/-- The layers `low..=top`, top down. -/
def layersDown (low top : Nat) : List Nat := (List.range' low (top + 1 - low)).reverse

/-- Link the stored node `id` of level `level` into the graph. -/
def linkNode (h : Hnsw) (id level : Nat) : Outcome HnswError Hnsw := do
  match h.entryPoint with
  | none => return { h with entryPoint := some id, maxLayer := level }
  | some entry =>
    let query ← h.vector id
    let maxLayer := h.maxLayer
    let (epIds, tr) ←
      h.greedyDescent query (layersDown (level + 1) maxLayer) [entry] Traversal.unfiltered
    let (h, _, _) ←
      h.connectLayers query id entry (layersDown 0 (min level maxLayer)) epIds tr
    if level > h.maxLayer then return { h with maxLayer := level, entryPoint := some id }
    return h

omit [Arith] in
/-- The checks an insert makes on the vector alone; the first vector fixes the dimension. -/
def acceptVector (h : Hnsw) (vector : List F32) : Except HnswError Hnsw :=
  if vector.isEmpty then .error .emptyVector
  else if vector.length > HnswParams.maxDim then
    .error (.dimensionTooLarge vector.length HnswParams.maxDim)
  else if h.dim = 0 then .ok { h with dim := vector.length }
  else if vector.length ≠ h.dim then .error (.dimensionMismatch h.dim vector.length)
  else .ok h

/-- What an insert does once its level is drawn: store the node, then link it. A refused node leaves
the graph it was refused by. -/
def storeAndLink (h : Hnsw) (vector : List F32) (attrs : List AttrValue) (level : Nat) :
    Outcome HnswError (Hnsw × Except HnswError Nat) :=
  match h.pushNode vector attrs (level + 1) with
  | .error (.error e) => .ok (h, .error e)
  | .error fault => .error fault
  | .ok (h, id) => do
    let h ← h.linkNode id level
    return (h, .ok id)

/-- `insert_with_attrs` with the drawn level given; the generator still advances. -/
def insertDrawn (h : Hnsw) (vector : List F32) (attrs : List AttrValue) (level : Nat) :
    Outcome HnswError (Hnsw × Except HnswError Nat) :=
  match h.acceptVector vector with
  | .error e => .ok (h, .error e)
  | .ok h => storeAndLink { h with rng := xorshift64 h.rng } vector attrs level

/-- The level the next insert into `h` draws. -/
def drawnLevel (h : Hnsw) : Nat := h.randomLevel.1

/-- Insert a vector and its filterable attribute row, returning the graph and the new node id, or
the error the call returned. -/
def insertWithAttrs (h : Hnsw) (vector : List F32) (attrs : List AttrValue) :
    Outcome HnswError (Hnsw × Except HnswError Nat) :=
  match h.acceptVector vector with
  | .error e => .ok (h, .error e)
  | .ok h =>
    let (level, h) := h.randomLevel
    h.storeAndLink vector attrs level

/-- Insert a vector with no filterable attributes. -/
def insert (h : Hnsw) (vector : List F32) : Outcome HnswError (Hnsw × Except HnswError Nat) :=
  h.insertWithAttrs vector []

theorem insertWithAttrs_eq (h : Hnsw) (vector : List F32) (attrs : List AttrValue) :
    h.insertWithAttrs vector attrs = h.insertDrawn vector attrs h.drawnLevel := by
  unfold insertWithAttrs insertDrawn
  cases hv : h.acceptVector vector with
  | error e => rfl
  | ok h₁ =>
    -- fixing the dimension changes neither the generator nor the normalizer
    have hsame : h₁.rng = h.rng ∧ h₁.ml = h.ml := by
      unfold acceptVector at hv
      split at hv <;> try cases hv
      split at hv <;> try cases hv
      split at hv
      · cases hv; exact ⟨rfl, rfl⟩
      · split at hv <;> cases hv
        exact ⟨rfl, rfl⟩
    simp only [drawnLevel, randomLevel, hsame.1, hsame.2]

omit [Arith] in
/-- The live rows, in id order. -/
def liveRows (h : Hnsw) : Outcome HnswError (List (List F32 × List AttrValue)) :=
  (List.range h.deleted.length).foldlM (fun (live : List (List F32 × List AttrValue)) id => do
    if ← Outcome.index h.deleted id then return live
    return live ++ [(← h.vector id, ← Outcome.index h.attrs id)]) []

/-- The parameters a compaction rebuilds with. -/
def rebuildParams (h : Hnsw) : HnswParams where
  m := h.m
  efConstruction := h.efConstruction
  gamma := h.gamma
  metric := h.metric
  seed := h.seed

/-- Rebuild the graph from the live nodes only and return the new node count. An insert that is
refused leaves the graph as it was. -/
def compact (h : Hnsw) : Outcome HnswError (Hnsw × Nat) := do
  let live ← h.liveRows
  let fresh ← live.foldlM (fun fresh (row : List F32 × List AttrValue) => do
    match ← insertWithAttrs fresh row.1 row.2 with
    | (fresh, .ok _) => return fresh
    | (_, .error e) => Outcome.fail e) (Hnsw.new h.rebuildParams)
  return (fresh, fresh.n)

/-- `compact` with the levels its inserts draw given, in order; a row past the list draws 0. -/
def compactDrawn (h : Hnsw) (draws : List Nat) : Outcome HnswError (Hnsw × Nat) := do
  let live ← h.liveRows
  let fresh ← (live.zipIdx).foldlM
    (fun fresh (row : (List F32 × List AttrValue) × Nat) => do
      match ← insertDrawn fresh row.1.1 row.1.2 (draws.getD row.2 0) with
      | (fresh, .ok _) => return fresh
      | (_, .error e) => Outcome.fail e) (Hnsw.new h.rebuildParams)
  return (fresh, fresh.n)

end Hnsw

end Brindle
