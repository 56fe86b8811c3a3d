/-
# Brindle.Hnsw.Graph — the in-memory graph and its flat storage.

The data model of `hnsw.rs`: parameters, the `Hnsw` struct with its parallel flat arrays, and the
accessors and mutators that compute offsets into them. A `usize` is a natural number; a `u32` stored
in `layer_base`, `link_counts` or `links` is a natural number with the casts that narrow to it
written out (`asU32`), and the one `u32` addition, in `push_node`, wraps as a release build does.
Every indexing and slicing the source does can panic, so each accessor is an `Outcome`.
-/
import Brindle.Distance
import Brindle.Filter
import Brindle.Lib.Outcome

namespace Brindle

open Outcome (index slice overwrite panicked)

/-- Errors from index operations. -/
inductive HnswError where
  | dimensionMismatch (expected got : Nat)
  | emptyVector
  | unknownNode (id : Nat)
  | nodeLimitReached (limit : Nat)
  | dimensionTooLarge (got max : Nat)
  deriving DecidableEq, Repr

/-- `impl From<DistanceError> for HnswError`. -/
def HnswError.ofDistance : DistanceError → HnswError
  | .dimensionMismatch left right => .dimensionMismatch left right

/-- Build/query parameters. -/
structure HnswParams where
  m : Nat
  efConstruction : Nat
  gamma : F32
  metric : Metric
  seed : UInt64
  deriving DecidableEq, Repr

/-- The seed a zero seed is replaced by. -/
def defaultSeed : UInt64 := 0x9E3779B97F4A7C15

namespace HnswParams

/-- `1024.0`. -/
def maxGamma : F32 := ⟨0x44800000⟩
def maxM : Nat := 128
def maxLayer0Degree : Nat := 2048
def maxDim : Nat := 16000
def maxLayer : Nat := 64

/-- `impl Default for HnswParams`. -/
def default : HnswParams where
  m := 16
  efConstruction := 64
  gamma := F32.one
  metric := .l2
  seed := defaultSeed

end HnswParams

/-- `x as u32`. -/
def asU32 (x : Nat) : Nat := x % 2 ^ 32

/-- In-memory HNSW graph. -/
structure Hnsw where
  metric : Metric
  m : Nat
  gamma : F32
  /-- Degree cap for upper layers. -/
  mCap : Nat
  /-- Degree cap for layer 0. -/
  m0Cap : Nat
  efConstruction : Nat
  ml : F64
  dim : Nat
  seed : UInt64
  /-- Node count. -/
  n : Nat
  /-- Every node's components end to end, strided by `dim`. -/
  vectors : List F32
  /-- Prefix sum of per-node layer counts, `n + 1` entries. -/
  layerBase : List Nat
  /-- Live neighbor count per (node, layer), at `layerBase[id] + layer`. -/
  linkCounts : List Nat
  /-- Neighbor ids in fixed-width slots; past a live count the contents are unspecified. -/
  links : List Nat
  attrs : List (List AttrValue)
  /-- Tombstone flags. -/
  deleted : List Bool
  entryPoint : Option Nat
  maxLayer : Nat
  rng : UInt64
  deriving DecidableEq, Repr

/-- What `derived_params` computes from `m` and a raw `gamma`. -/
structure DerivedParams where
  gamma : F32
  mCap : Nat
  m0Cap : Nat
  ml : F64
  efFloor : Nat
  deriving DecidableEq, Repr

/-- The state after one step, which is also the drawn word. -/
def xorshift64 (state : UInt64) : UInt64 :=
  let x := state ^^^ (state <<< 13)
  let x := x ^^^ (x >>> 7)
  x ^^^ (x <<< 17)

/-- Uniform `f64` in `[0, 1)` from the 53 high bits of a drawn word. -/
def nextF64 (word : UInt64) : F64 := F64.ofDraw (word >>> 11).toNat

namespace Hnsw

/-- Largest node count the `u32` ids and layer offsets can address. -/
def maxNodes : Nat := 2 ^ 32 - 1

section Construction

variable [Arith]

/-- γ-scaled degree caps, the level normalizer, and the ef floor. -/
def derivedParams (m : Nat) (gamma : F32) : DerivedParams :=
  let gamma := if gamma.isFinite then gamma.clamp F32.one HnswParams.maxGamma else F32.one
  let m0Cap := (Arith.f32Mul (F32.ofUsize (m * 2)) gamma).round.toUsize
  { gamma
    mCap := (Arith.f32Mul (F32.ofUsize m) gamma).round.toUsize
    m0Cap
    ml := Arith.f64Div F64.one (Arith.f64Ln (F64.ofUsize m))
    efFloor := if gamma.gt F32.one then m0Cap else m }

/-- Create an empty index. -/
def new (params : HnswParams) : Hnsw :=
  let m := max params.m 2
  let derived := derivedParams m params.gamma
  let seed := if params.seed = 0 then defaultSeed else params.seed
  { metric := params.metric
    m
    gamma := derived.gamma
    mCap := derived.mCap
    m0Cap := derived.m0Cap
    efConstruction := max params.efConstruction derived.efFloor
    ml := derived.ml
    dim := 0
    seed
    n := 0
    vectors := []
    layerBase := [0]
    linkCounts := []
    links := []
    attrs := []
    deleted := []
    entryPoint := none
    maxLayer := 0
    rng := seed }

/-- Draw the level of the next node, advancing the generator. -/
def randomLevel (h : Hnsw) : Nat × Hnsw :=
  let rng := xorshift64 h.rng
  let draw := nextF64 rng
  let r := if draw.le F64.zero then F64.minPositive else draw
  ((Arith.f64Mul (Arith.f64Ln r).neg h.ml).floorToUsize, { h with rng })

end Construction

/-! ## Reading -/

/-- Filterable attribute row stored for `id`; empty for an unknown one. -/
def attrsOf (h : Hnsw) (id : Nat) : List AttrValue := h.attrs.getD id []

def maxDegree (h : Hnsw) (layer : Nat) : Nat := if layer = 0 then h.m0Cap else h.mCap

/-- One over the degree cap: `insert` appends a neighbor and only then prunes. -/
def slotWidth (h : Hnsw) (layer : Nat) : Nat := h.maxDegree layer + 1

/-- Layers node `id` participates in, by a `u32` subtraction. -/
def levels (h : Hnsw) (id : Nat) : Outcome HnswError Nat := do
  let stop ← index h.layerBase (id + 1)
  let start ← index h.layerBase id
  return (stop + 2 ^ 32 - start) % 2 ^ 32

/-- Start of node `id`'s slot run in `links`. -/
def linkBase (h : Hnsw) (id : Nat) : Outcome HnswError Nat := do
  let base ← index h.layerBase id
  let upper := base - id
  return id * h.slotWidth 0 + upper * h.slotWidth 1

/-- Where `layer`'s slots start within a node's run. -/
def slotWithin (h : Hnsw) (layer : Nat) : Nat :=
  if layer = 0 then 0 else h.slotWidth 0 + (layer - 1) * h.slotWidth 1

/-- Start of node `id`'s slots for `layer`. -/
def layerSlot (h : Hnsw) (id layer : Nat) : Outcome HnswError Nat := do
  return (← h.linkBase id) + h.slotWithin layer

/-- The stored vector for `id`. -/
def vector (h : Hnsw) (id : Nat) : Outcome HnswError (List F32) :=
  slice h.vectors (id * h.dim) h.dim

def neighbors (h : Hnsw) (id layer : Nat) : Outcome HnswError (List Nat) := do
  if id ≥ h.n then return []
  if layer ≥ (← h.levels id) then return []
  let start ← h.layerSlot id layer
  let count ← index h.linkCounts ((← index h.layerBase id) + layer)
  slice h.links start count

/-- The metric's distance between two vectors, with the error converted. -/
def distance [Arith] (h : Hnsw) (a b : List F32) : Outcome HnswError F32 :=
  match h.metric.distance a b with
  | .ok d => .ok d
  | .error e => Outcome.fail (.ofDistance e)

/-- Whether node `id` satisfies `predicate`, vacuously true without one. -/
def nodeMatches (h : Hnsw) (id : Nat) (predicate : Option Predicate) : Bool :=
  match predicate with
  | none => true
  | some p => p.satisfiedBy (h.attrsOf id)

/-- Whether `id` may be returned: live, and satisfying the predicate. -/
def admissible (h : Hnsw) (id : Nat) (predicate : Option Predicate) : Outcome HnswError Bool := do
  let deleted ← index h.deleted id
  return !deleted && h.nodeMatches id predicate

/-- Number of tombstoned nodes. -/
def deletedCount (h : Hnsw) : Nat := h.deleted.countP id

/-- Number of live nodes. -/
def liveLen (h : Hnsw) : Nat := h.n - h.deletedCount

/-! ## Writing -/

/-- Overwrite a run of `links` in place. -/
def copyIntoLinks (h : Hnsw) (start : Nat) (ids : List Nat) : Outcome HnswError Hnsw := do
  return { h with links := ← overwrite h.links start ids }

/-- Store one live count, panicking when `idx` is past the array. -/
def storeCount (h : Hnsw) (idx count : Nat) : Outcome HnswError Hnsw :=
  if idx < h.linkCounts.length then .ok { h with linkCounts := h.linkCounts.set idx (asU32 count) }
  else panicked

/-- Replace node `id`'s neighbor list at `layer`. -/
def setNeighbors (h : Hnsw) (id layer : Nat) (ids : List Nat) : Outcome HnswError Hnsw := do
  let start ← h.layerSlot id layer
  let h ← h.copyIntoLinks start ids
  h.storeCount ((← index h.layerBase id) + layer) ids.length

/-- Append one neighbor to node `id`'s list at `layer`, returning the new length. -/
def pushNeighbor (h : Hnsw) (id layer neighbor : Nat) : Outcome HnswError (Hnsw × Nat) := do
  let idx := (← index h.layerBase id) + layer
  let count ← index h.linkCounts idx
  let start ← h.layerSlot id layer
  let h ← h.copyIntoLinks (start + count) [neighbor]
  let h ← h.storeCount idx (count + 1)
  return (h, count + 1)

/-- Append a node's storage across the flat arrays and return its id. The layer offset is a `u32`
sum, which wraps. -/
def pushNode (h : Hnsw) (vector : List F32) (attrs : List AttrValue) (levels : Nat) :
    Outcome HnswError (Hnsw × Nat) := do
  if h.n ≥ maxNodes then Outcome.fail (.nodeLimitReached maxNodes)
  else
    let id := h.n
    let stop := asU32 ((← index h.layerBase id) + asU32 levels)
    let slots := h.slotWidth 0 + (levels - 1) * h.slotWidth 1
    return ({ h with
      vectors := h.vectors ++ vector
      attrs := h.attrs ++ [attrs]
      deleted := h.deleted ++ [false]
      layerBase := h.layerBase ++ [stop]
      linkCounts := h.linkCounts ++ List.replicate levels 0
      links := h.links ++ List.replicate slots 0
      n := h.n + 1 }, id)

/-- Soft-delete a node: it keeps routing but is never returned. -/
def delete (h : Hnsw) (id : Nat) : Except HnswError Hnsw :=
  if id ≥ h.deleted.length then .error (.unknownNode id)
  else .ok { h with deleted := h.deleted.set id true }

end Hnsw

end Brindle
