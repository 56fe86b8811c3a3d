/-
# Brindle.Hnsw.Search — beam search, filtered and unfiltered.

`visit`, `expand`, `bridge_out`, `search_layer`, `search_inner` and the read-only whole-graph scans
of `hnsw.rs`, loop by loop. A binary heap is kept as the sorted list of its elements (pops and peeks
only ever see the extreme of a total order), and a hash set as the list of what was inserted. The
two loops of `search_layer` carry a step bound; running out of it is the `fuel` fault, which a
search of a graph never reaches because a walk pops at most one candidate per node.
-/
import Brindle.Hnsw.Graph
import Mathlib.Data.List.Sort
import Mathlib.Data.Prod.Lex

namespace Brindle

open Outcome (index)

/-- A scored candidate. -/
structure Cand where
  dist : F32
  id : Nat
  deriving DecidableEq, Repr

namespace Cand

/-- What `Ord for Cand` compares: `total_cmp` of the distance, then the id. -/
def key (c : Cand) : Int ×ₗ Nat := toLex (c.dist.totalKey, c.id)

theorem key_injective : Function.Injective key := by
  intro a b h
  have h' : (a.dist.totalKey, a.id) = (b.dist.totalKey, b.id) := toLex.injective h
  rw [Prod.mk.injEq] at h'
  cases a
  cases b
  exact congrArg₂ Cand.mk (F32.totalKey_injective h'.1) h'.2

instance : LinearOrder Cand := LinearOrder.lift' key key_injective

end Cand

/-- What one search spent. -/
structure SearchCost where
  distances : Nat := 0
  expansions : Nat := 0
  detours : Nat := 0
  deriving DecidableEq, Repr

/-- The budgets one filtered search threads through its layers, and what it has spent so far. -/
structure Traversal where
  detours : Nat
  expansions : Nat
  cost : SearchCost := {}
  deriving DecidableEq, Repr

namespace Traversal

def detoursPerEf : Nat := 4
def expansionsPerEf : Nat := 16

/-- `usize::saturating_mul`. -/
def saturatingMul (a b : Nat) : Nat := min (a * b) (2 ^ 64 - 1)

def forEf (ef : Nat) : Traversal where
  detours := saturatingMul ef detoursPerEf
  expansions := saturatingMul ef expansionsPerEf

/-- State for a search that never filters. -/
def unfiltered : Traversal where
  detours := 0
  expansions := 0

/-- Hand the bottom layer its own detour allowance. -/
def refillDetours (tr : Traversal) (ef : Nat) : Traversal :=
  { tr with detours := saturatingMul ef detoursPerEf }

/-- One more distance computed. -/
def countDistance (tr : Traversal) : Traversal :=
  { tr with cost := { tr.cost with distances := tr.cost.distances + 1 } }

/-- One more node expanded; only a filtered search draws on the allowance. -/
def countExpansion (tr : Traversal) (filtered : Bool) : Traversal :=
  { tr with
    expansions := if filtered then tr.expansions - 1 else tr.expansions
    cost := { tr.cost with expansions := tr.cost.expansions + 1 } }

/-- One more node enqueued to route through. -/
def countDetour (tr : Traversal) : Traversal :=
  { tr with
    detours := tr.detours - 1
    cost := { tr.cost with detours := tr.cost.detours + 1 } }

end Traversal

/-- The mutable state of one layer's beam search. Frontier and results are sorted, nearest first. -/
structure Beam where
  visited : List Nat
  frontier : List Cand
  results : List Cand
  ef : Nat
  deferred : List Cand
  tr : Traversal
  deriving DecidableEq, Repr

namespace Beam

def new (ef : Nat) (tr : Traversal) : Beam where
  visited := []
  frontier := []
  results := []
  ef
  deferred := []
  tr

/-- Distance of the farthest result held, or infinity while none are held. -/
def farthest (beam : Beam) : F32 :=
  match beam.results.getLast? with
  | some c => c.dist
  | none => F32.infinity

/-- Queue `cand` for expansion, recording it as a result only when `admissible`. -/
def push (beam : Beam) (cand : Cand) (admissible : Bool) : Beam :=
  let results := if admissible then beam.results.orderedInsert (· ≤ ·) cand else beam.results
  { beam with
    frontier := beam.frontier.orderedInsert (· ≤ ·) cand
    results := if results.length > beam.ef && admissible then results.dropLast else results }

end Beam

namespace Hnsw

/-- Whether `predicate` requires the predicate-aware traversal path. -/
def isFiltered (predicate : Option Predicate) : Bool :=
  match predicate with
  | none | some .all => false
  | _ => true

variable [Arith]

/-- Score `id` and fold it into `beam`, unless it was already considered or is too far. Reports
whether it joined the frontier. -/
def visit (h : Hnsw) (query : List F32) (predicate : Option Predicate) (beam : Beam) (id : Nat) :
    Outcome HnswError (Bool × Beam) := do
  if beam.visited.contains id then return (false, beam)
  let beam := { beam with visited := id :: beam.visited }
  let d ← h.distance query (← h.vector id)
  let beam := { beam with tr := beam.tr.countDistance }
  if beam.results.length < beam.ef || d.lt beam.farthest then
    return (true, beam.push ⟨d, id⟩ (← h.admissible id predicate))
  return (false, beam)

/-- Enqueue `id`'s neighbors regardless of the predicate, one unit of the detour allowance each.
Reports whether anything was queued. -/
def bridgeOut (h : Hnsw) (query : List F32) (layer : Nat) (predicate : Option Predicate)
    (beam : Beam) (id : Nat) : Outcome HnswError (Bool × Beam) := do
  (← h.neighbors id layer).foldlM (fun (queued, beam) n => do
    -- the source breaks out of the loop here; with nothing left to spend no later turn does more
    if beam.tr.detours = 0 then return (queued, beam)
    let (joined, beam) ← h.visit query predicate beam n
    if joined then return (true, { beam with tr := beam.tr.countDetour })
    return (queued, beam)) (false, beam)

/-- The first pass of a filtered expansion: visit the matching neighbors, and collect up to `m` of
the others as bridges. -/
def classifyNeighbors (h : Hnsw) (query : List F32) (predicate : Option Predicate)
    (neighbors : List Nat) (beam : Beam) : Outcome HnswError (Nat × List Nat × Beam) :=
  neighbors.foldlM (fun (matching, bridges, beam) n => do
    if h.nodeMatches n predicate then
      let (_, beam) ← h.visit query predicate beam n
      return (matching + 1, bridges, beam)
    else if bridges.length < h.m then return (matching, bridges ++ [n], beam)
    else return (matching, bridges, beam)) (0, [], beam)

/-- The second pass: hop over the bridges and visit their matching neighbors, until `m` matching
nodes have been produced. -/
def crossBridges (h : Hnsw) (query : List F32) (layer : Nat) (predicate : Option Predicate)
    (bridges : List Nat) (matching : Nat) (beam : Beam) : Outcome HnswError (Nat × Beam) :=
  bridges.foldlM (fun (matching, beam) bridge => do
    if matching ≥ h.m then return (matching, beam)
    (← h.neighbors bridge layer).foldlM (fun (matching, beam) nn => do
      if matching ≥ h.m then return (matching, beam)
      if h.nodeMatches nn predicate then
        let (_, beam) ← h.visit query predicate beam nn
        return (matching + 1, beam)
      return (matching, beam)) (matching, beam)) (matching, beam)

/-- Fold `id`'s neighbors into `beam`. Reports whether it bridged out. -/
def expand (h : Hnsw) (query : List F32) (layer : Nat) (predicate : Option Predicate) (beam : Beam)
    (id : Nat) : Outcome HnswError (Bool × Beam) := do
  let neighbors ← h.neighbors id layer
  if !isFiltered predicate then
    let beam ← neighbors.foldlM (fun beam n => do
      let (_, beam) ← h.visit query predicate beam n
      return beam) beam
    return (false, beam)
  let (matching, bridges, beam) ← h.classifyNeighbors query predicate neighbors beam
  let (matching, beam) ← h.crossBridges query layer predicate bridges matching beam
  if matching = 0 then
    let (_, beam) ← h.bridgeOut query layer predicate beam id
    return (true, beam)
  return (false, beam)

/-- Seed the beam: an entry point routes even when tombstoned or non-matching. -/
def seedBeam (h : Hnsw) (query : List F32) (predicate : Option Predicate) (entryPoints : List Nat)
    (beam : Beam) : Outcome HnswError Beam :=
  entryPoints.foldlM (fun beam ep => do
    if beam.visited.contains ep then return beam
    let beam := { beam with visited := ep :: beam.visited }
    let d ← h.distance query (← h.vector ep)
    let beam := { beam with tr := beam.tr.countDistance }
    return beam.push ⟨d, ep⟩ (← h.admissible ep predicate)) beam

/-- The inner `while let` of `search_layer`: pop and expand until the frontier is empty, the nearest
candidate left is past every result, or a filtered walk has no expansion left. -/
def walkFrontier (h : Hnsw) (query : List F32) (layer : Nat) (predicate : Option Predicate) :
    Nat → Beam → Outcome HnswError Beam
  | 0, _ => Outcome.starved
  | fuel + 1, beam =>
    match beam.frontier with
    | [] => return beam
    | c :: rest => do
      let beam := { beam with frontier := rest }
      let filtered := isFiltered predicate
      if c.dist.gt beam.farthest && (!filtered || beam.results.length ≥ beam.ef) then return beam
      if filtered && beam.tr.expansions = 0 then return beam
      let beam := { beam with tr := beam.tr.countExpansion filtered }
      let (bridged, beam) ← h.expand query layer predicate beam c.id
      let beam :=
        if filtered && !bridged then { beam with deferred := beam.deferred ++ [c] } else beam
      walkFrontier h query layer predicate fuel beam

/-- One rescue round: bridge out of the deferred expansions, nearest first. -/
def rescue (h : Hnsw) (query : List F32) (layer : Nat) (predicate : Option Predicate)
    (deferred : List Cand) (beam : Beam) : Outcome HnswError (Bool × Beam) :=
  deferred.foldlM (fun (progressed, beam) cand => do
    if beam.tr.detours = 0 then return (progressed, beam)
    let (queued, beam) ← h.bridgeOut query layer predicate beam cand.id
    return (progressed || queued, beam)) (false, beam)

/-- The outer `loop` of `search_layer`: walk, and while a filtered walk of layer 0 ends short, go
back to the expansions that never bridged. -/
def searchRounds (h : Hnsw) (query : List F32) (layer : Nat) (predicate : Option Predicate) :
    Nat → Beam → Outcome HnswError Beam
  | 0, _ => Outcome.starved
  | rounds + 1, beam => do
    let beam ← h.walkFrontier query layer predicate (h.n + 1) beam
    if layer ≠ 0 || !isFiltered predicate || beam.results.length ≥ beam.ef
        || beam.tr.detours = 0 then return beam
    let deferred := beam.deferred
    let beam := { beam with deferred := [] }
    if deferred.isEmpty then return beam
    let (progressed, beam) ←
      h.rescue query layer predicate (deferred.insertionSort (· ≤ ·)) beam
    if !progressed then return beam
    searchRounds h query layer predicate rounds beam

/-- Greedy beam search within one layer. Returns up to `ef` nearest candidates, ascending. -/
def searchLayer (h : Hnsw) (query : List F32) (entryPoints : List Nat) (ef layer : Nat)
    (predicate : Option Predicate) (tr : Traversal) :
    Outcome HnswError (List Cand × Traversal) := do
  let beam ← h.seedBeam query predicate entryPoints (Beam.new ef tr)
  let beam ← h.searchRounds query layer predicate (h.n + 1) beam
  return (beam.results, beam.tr)

/-- The descent of `search_inner` over the layers above 0, top down: unfiltered navigation, and
under a predicate a probe for a foothold beside it. Returns where both end. -/
def descend (h : Hnsw) (query : List F32) (predicate : Option Predicate) (layers : List Nat)
    (epIds seeds : List Nat) (tr : Traversal) :
    Outcome HnswError (List Nat × List Nat × Traversal) :=
  layers.foldlM (fun (epIds, seeds, tr) lc => do
    let (w, tr) ← h.searchLayer query epIds 1 lc none tr
    let epIds := match w.head? with
      | some nearest => [nearest.id]
      | none => epIds
    if isFiltered predicate then
      let (found, tr) ← h.searchLayer query (epIds ++ seeds) 1 lc predicate tr
      return (epIds, found.map Cand.id, tr)
    return (epIds, seeds, tr)) (epIds, seeds, tr)

/-- The layers `1..=top`, top down. -/
def upperLayers (top : Nat) : List Nat := (List.range' 1 top).reverse

def searchInner (h : Hnsw) (query : List F32) (k efSearch : Nat) (predicate : Option Predicate) :
    Outcome HnswError (List (F32 × Nat) × SearchCost) := do
  match h.entryPoint with
  | none => return ([], {})
  | some entry =>
    if k = 0 then return ([], {})
    if query.length ≠ h.dim then Outcome.fail (.dimensionMismatch h.dim query.length)
    else
      let filtered := isFiltered predicate
      let ef := max efSearch k
      let tr := if filtered then Traversal.forEf ef else Traversal.unfiltered
      let (epIds, seeds, tr) ← h.descend query predicate (upperLayers h.maxLayer) [entry] [] tr
      let tr := if filtered then tr.refillDetours ef else tr
      let (w, tr) ← h.searchLayer query (epIds ++ seeds) ef 0 predicate tr
      return ((w.take k).map (fun c => (c.dist, c.id)), tr.cost)

/-- Approximate k-nearest-neighbor search. -/
def search (h : Hnsw) (query : List F32) (k efSearch : Nat) :
    Outcome HnswError (List (F32 × Nat)) := do
  return (← h.searchInner query k efSearch none).1

/-- `search_filtered_with_cost`. -/
def searchFilteredWithCost (h : Hnsw) (query : List F32) (k efSearch : Nat)
    (predicate : Predicate) : Outcome HnswError (List (F32 × Nat) × SearchCost) :=
  h.searchInner query k efSearch (some predicate)

/-- Approximate k-nearest-neighbor search restricted to nodes satisfying `predicate`. -/
def searchFiltered (h : Hnsw) (query : List F32) (k efSearch : Nat) (predicate : Predicate) :
    Outcome HnswError (List (F32 × Nat)) := do
  return (← h.searchFilteredWithCost query k efSearch predicate).1

omit [Arith] in
/-- Every live node satisfying `predicate`, in insertion order. -/
def matching (h : Hnsw) (predicate : Predicate) : Outcome HnswError (List Nat) :=
  (List.range h.n).filterM (fun id => h.admissible id (some predicate))

/-- Exact k-nearest-neighbor search over all live vectors. -/
def bruteForce (h : Hnsw) (query : List F32) (k : Nat) : Outcome HnswError (List (F32 × Nat)) := do
  if h.n ≠ 0 && query.length ≠ h.dim then
    Outcome.fail (.dimensionMismatch h.dim query.length)
  else
    let all ← (List.range h.n).foldlM (fun (all : List Cand) id => do
      if ← index h.deleted id then return all
      let d ← h.distance query (← h.vector id)
      return all ++ [⟨d, id⟩]) []
    return ((all.insertionSort (· ≤ ·)).take k).map (fun c => (c.dist, c.id))

end Hnsw

end Brindle
