/-
# Brindle.Hnsw.Codec — the graph's serialized form.

`to_bytes_into`, `from_graph_bytes` and the attribute rows they share with the index layer. The
decoder is written over any `GraphBytes` source, as in the source; a `ByteReader` and a plain slice
are both the list of bytes not yet read. The header, one node, and the closing checks are separate
definitions here; `fromGraphBytes` runs them in order.
-/
import Brindle.Hnsw.Insert
import Brindle.Lib.Bytes
import Brindle.Lib.Reader

namespace Brindle

open Bytes (leBytes ofLe)
open Outcome (index overwrite)

/-- Errors from decoding a serialized graph. -/
inductive HnswDecodeError where
  | truncated
  | badMagic
  | unsupportedVersion (got : Nat)
  | invalid (what : String)
  deriving DecidableEq, Repr

def codecMagic : Nat := 0x42484E57
def codecVersion : Nat := 2

def attrTagNull : UInt8 := 0
def attrTagInt : UInt8 := 1
def attrTagFloat : UInt8 := 2

/-! ## Writing -/

def writeAttrValue : AttrValue → List UInt8
  | .null => [attrTagNull]
  | .int v => attrTagInt :: leBytes 8 v.toUInt64.toNat
  | .float v => attrTagFloat :: leBytes 8 v.bits.toNat

/-- One attribute row, length-prefixed. -/
def writeAttrRow (row : List AttrValue) : List UInt8 :=
  leBytes 8 row.length ++ row.flatMap writeAttrValue

/-- One neighbor list, length-prefixed. -/
def writeNeighborList (ids : List Nat) : List UInt8 :=
  leBytes 8 ids.length ++ ids.flatMap (leBytes 8)

def writeVector (vector : List F32) : List UInt8 :=
  vector.flatMap (fun x => leBytes 4 x.bits.toNat)

namespace Hnsw

/-- `u64::MAX`, which stands for no entry point. -/
def noEntry : Nat := 2 ^ 64 - 1

def writeHeader (h : Hnsw) : List UInt8 :=
  leBytes 4 codecMagic ++ leBytes 2 codecVersion ++ [h.metric.code, 0] ++ leBytes 8 h.m
    ++ leBytes 4 h.gamma.bits.toNat ++ leBytes 8 h.efConstruction ++ leBytes 8 h.dim
    ++ leBytes 8 h.maxLayer ++ leBytes 8 h.seed.toNat ++ leBytes 8 h.rng.toNat
    ++ leBytes 8 (h.entryPoint.getD noEntry) ++ leBytes 8 h.n

/-- One node: tombstone flag, layer count, vector, neighbor lists, attribute row. -/
def writeNode (h : Hnsw) (id : Nat) : Outcome HnswError (List UInt8) := do
  let deleted ← index h.deleted id
  let levels ← h.levels id
  let vector ← h.vector id
  let lists ← (List.range levels).mapM (h.neighbors id)
  let attrs ← index h.attrs id
  return (if deleted then 1 else 0) :: leBytes 8 levels ++ writeVector vector
    ++ lists.flatMap writeNeighborList ++ writeAttrRow attrs

/-- Serialize the graph to a self-contained, versioned little-endian blob. -/
def toBytes (h : Hnsw) : Outcome HnswError (List UInt8) := do
  let nodes ← (List.range h.n).mapM h.writeNode
  return h.writeHeader ++ nodes.flatten

end Hnsw

/-! ## Reading -/

/-- A computation that consumes a byte source front to back. -/
abbrev Decoder (S α : Type) := Reader HnswDecodeError S α

/-- The serialized bytes of a graph, consumed strictly front to back. -/
class GraphBytes (S : Type) where
  readExact : Nat → S → Outcome HnswDecodeError (List UInt8 × S)
  remaining : S → Nat

/-- Reading from a slice. -/
instance : GraphBytes (List UInt8) where
  readExact k bs := if k > bs.length then Outcome.fail .truncated else .ok (bs.take k, bs.drop k)
  remaining := List.length

namespace Decoder

variable {S : Type} [GraphBytes S]

def readExact (k : Nat) : Decoder S (List UInt8) := GraphBytes.readExact k

def remaining : Decoder S Nat := fun s => .ok (GraphBytes.remaining s, s)

def fail {α : Type} (e : HnswDecodeError) : Decoder S α := fun _ => Outcome.fail e

/-- A little-endian value of `k` bytes. -/
def readLe (k : Nat) : Decoder S Nat := do return ofLe (← readExact k)

def u8 : Decoder S Nat := readLe 1
def u16 : Decoder S Nat := readLe 2
def u32 : Decoder S Nat := readLe 4
def u64 : Decoder S Nat := readLe 8

/-- A `u64` that must fit in `usize`, which on a 64-bit target it does. -/
def readLen : Decoder S Nat := u64

/-- Read `k` items one after another. -/
def times {α : Type} (k : Nat) (item : Decoder S α) : Decoder S (List α) :=
  match k with
  | 0 => return []
  | k + 1 => do
    let x ← item
    return x :: (← times k item)

def require (ok : Bool) (e : HnswDecodeError) : Decoder S Unit :=
  if ok then pure () else fail e

/-- A computation that reads nothing. -/
def checked {S α : Type} (x : Outcome HnswDecodeError α) : Decoder S α := fun s => do
  return (← x, s)

end Decoder

open Decoder

section Decode

variable {S : Type} [GraphBytes S]

def readAttrValue : Decoder S AttrValue := do
  match ← u8 with
  | 0 => return .null
  | 1 => return .int (UInt64.ofNat (← u64)).toInt64
  | 2 => return .float ⟨UInt64.ofNat (← u64)⟩
  | _ => Decoder.fail (.invalid "bad attribute tag")

/-- Read one length-prefixed attribute row. -/
def readAttrRow : Decoder S (List AttrValue) := do
  let count ← readLen
  require (count ≤ (← remaining)) .truncated
  times count readAttrValue

/-- `as_chunks::<4>` and `f32::from_le_bytes`. -/
def floatsOfBytes : List UInt8 → List F32
  | b₀ :: b₁ :: b₂ :: b₃ :: rest => F32.ofNatBits (ofLe [b₀, b₁, b₂, b₃]) :: floatsOfBytes rest
  | _ => []

/-- The header fields of a serialized graph, checked, with what they derive. -/
structure GraphHeader where
  metric : Metric
  m : Nat
  gamma : F32
  derived : DerivedParams
  efConstruction : Nat
  dim : Nat
  maxLayer : Nat
  seed : UInt64
  rng : UInt64
  entryPoint : Option Nat
  n : Nat

def readEntryPoint (entryRaw n : Nat) : Decoder S (Option Nat) :=
  if entryRaw = Hnsw.noEntry then return none
  else if entryRaw < n then return some entryRaw
  else Decoder.fail (.invalid "entry point out of range")

def readMetric (code : Nat) : Decoder S Metric :=
  match Metric.fromCode (UInt8.ofNat code) with
  | some metric => return metric
  | none => Decoder.fail (.invalid "unknown metric code")

def readHeader [Arith] : Decoder S GraphHeader := do
  require ((← u32) = codecMagic) .badMagic
  let version ← u16
  require (version = codecVersion) (.unsupportedVersion version)
  let metric ← readMetric (← u8)
  let _reserved ← u8
  let m ← readLen
  require (2 ≤ m && m ≤ HnswParams.maxM) (.invalid "m out of range")
  let gamma := F32.ofNatBits (← u32)
  require (gamma.isFinite && F32.one.le gamma && gamma.le HnswParams.maxGamma)
    (.invalid "gamma out of range")
  let derived := Hnsw.derivedParams m gamma
  require (derived.m0Cap ≤ HnswParams.maxLayer0Degree) (.invalid "degree cap out of range")
  let efConstruction ← readLen
  require (derived.efFloor ≤ efConstruction) (.invalid "ef_construction below floor")
  let dim ← readLen
  require (dim ≤ HnswParams.maxDim) (.invalid "dimension out of range")
  let maxLayer ← readLen
  require (maxLayer ≤ HnswParams.maxLayer) (.invalid "top layer out of range")
  let seed := UInt64.ofNat (← u64)
  let rng := UInt64.ofNat (← u64)
  require (seed ≠ 0 && rng ≠ 0) (.invalid "PRNG state must be nonzero")
  let entryRaw ← u64
  let n ← readLen
  let entryPoint ← readEntryPoint entryRaw n
  require (n = 0 || entryPoint.isSome) (.invalid "nonempty graph without entry point")
  require (n = 0 || dim ≠ 0) (.invalid "nonempty graph with zero dimension")
  return { metric, m, gamma, derived, efConstruction, dim, maxLayer, seed, rng, entryPoint, n }

/-- The flat arrays as far as they have been decoded. -/
structure NodeTables where
  vectors : List F32 := []
  layerBase : List Nat := [0]
  linkCounts : List Nat := []
  links : List Nat := []
  attrs : List (List AttrValue) := []
  deleted : List Bool := []
  deriving DecidableEq, Repr

/-- Ceiling on the link slots the whole graph may reserve, from what the payload has left once the
header is read. -/
def maxSlots (remaining : Nat) : Nat := remaining + 2 ^ 22

def readTombstone : Decoder S Bool := do
  match ← u8 with
  | 0 => return false
  | 1 => return true
  | _ => Decoder.fail (.invalid "bad tombstone flag")

/-- One neighbor id, which must name a node. -/
def readNeighbor (n : Nat) : Decoder S Nat := do
  let id ← readLen
  require (id < n) (.invalid "link target out of range")
  return id

/-- One neighbor list of at most `cap` ids. -/
def readNeighborList (cap n : Nat) : Decoder S (List Nat) := do
  let count ← readLen
  require (count ≤ cap) (.invalid "neighbor list over degree cap")
  require (count ≤ (← remaining) / 8) .truncated
  times count (readNeighbor n)

/-- The neighbor lists of one node whose slot run starts at `nodeStart`, layer by layer. -/
def readLayers (hdr : GraphHeader) (nodeStart levels : Nat) (links linkCounts : List Nat) :
    Decoder S (List Nat × List Nat) :=
  (List.range levels).foldlM (fun (links, linkCounts) layer => do
    let ids ← readNeighborList (if layer = 0 then hdr.derived.m0Cap else hdr.derived.mCap) hdr.n
    let within :=
      if layer = 0 then 0 else hdr.derived.m0Cap + 1 + (layer - 1) * (hdr.derived.mCap + 1)
    let links ← checked (overwrite links (nodeStart + within) (ids.map asU32))
    return (links, linkCounts ++ [asU32 ids.length])) (links, linkCounts)

def readNode (hdr : GraphHeader) (slotCeiling : Nat) (tables : NodeTables) :
    Decoder S NodeTables := do
  let deleted ← readTombstone
  let levels ← readLen
  require (levels ≠ 0) (.invalid "node with no layers")
  require (levels - 1 ≤ hdr.maxLayer) (.invalid "node above the top layer")
  let vector := floatsOfBytes (← readExact (hdr.dim * 4))
  require (levels ≤ (← remaining) / 8) .truncated
  require (tables.linkCounts.length + levels < 2 ^ 32) (.invalid "too many layers")
  let nodeSlots := hdr.derived.m0Cap + 1 + (levels - 1) * (hdr.derived.mCap + 1)
  let nodeStart := tables.links.length
  require (nodeStart + nodeSlots ≤ slotCeiling)
    (.invalid "link storage exceeds what the payload could describe")
  let (links, linkCounts) ←
    readLayers hdr nodeStart levels (tables.links ++ List.replicate nodeSlots 0) tables.linkCounts
  let attrs ← readAttrRow
  return {
    vectors := tables.vectors ++ vector
    layerBase := tables.layerBase ++ [tables.linkCounts.length + levels]
    linkCounts
    links
    attrs := tables.attrs ++ [attrs]
    deleted := tables.deleted ++ [deleted] }

/-- `n` nodes, one after another. -/
def readNodes (hdr : GraphHeader) (slotCeiling : Nat) : Nat → NodeTables → Decoder S NodeTables
  | 0, tables => return tables
  | n + 1, tables => do readNodes hdr slotCeiling n (← readNode hdr slotCeiling tables)

/-- The decoded tables as a graph. -/
def assemble (hdr : GraphHeader) (tables : NodeTables) : Hnsw where
  metric := hdr.metric
  m := hdr.m
  gamma := hdr.gamma
  mCap := hdr.derived.mCap
  m0Cap := hdr.derived.m0Cap
  efConstruction := hdr.efConstruction
  ml := hdr.derived.ml
  dim := hdr.dim
  seed := hdr.seed
  n := hdr.n
  vectors := tables.vectors
  layerBase := tables.layerBase
  linkCounts := tables.linkCounts
  links := tables.links
  attrs := tables.attrs
  deleted := tables.deleted
  entryPoint := hdr.entryPoint
  maxLayer := hdr.maxLayer
  rng := hdr.rng

/-- The entry point must own the top layer, and an empty graph has none. -/
def checkEntry (hdr : GraphHeader) (tables : NodeTables) : Decoder S Unit :=
  match hdr.entryPoint with
  | some e => do
    let stop ← checked (index tables.layerBase (e + 1))
    let start ← checked (index tables.layerBase e)
    require (stop - start - 1 = hdr.maxLayer) (.invalid "entry point does not own the top layer")
  | none => require (hdr.maxLayer = 0) (.invalid "empty graph with nonzero top layer")

/-- Decode from any `GraphBytes` source. -/
def Hnsw.fromGraphBytes [Arith] : Decoder S Hnsw := do
  let hdr ← readHeader
  let slotCeiling := maxSlots (← remaining)
  let tables ← readNodes hdr slotCeiling hdr.n {}
  require ((← remaining) = 0) (.invalid "trailing bytes")
  checkEntry hdr tables
  return assemble hdr tables

end Decode

/-- Reconstruct a graph serialized by `toBytes`. -/
def Hnsw.fromBytes [Arith] (bytes : List UInt8) : Outcome HnswDecodeError Hnsw := do
  let (h, _) ← Hnsw.fromGraphBytes (S := List UInt8) bytes
  return h

end Brindle
