/-
# Brindle.Storage.Image — the stored image, a staged write, a write-back and a vacuum.

The decoded contents of `storage.rs`'s blob: the graph, the node-id → TID table, the table of rows
without a vector, and the generation in the metapage. A decoded graph answers every later call as the
one that was encoded does, so an image holds the graph itself and not its bytes. A `PendingWrite` is
a copy of an image with rows added; writing it back either stores the copy or, when another backend
has rewritten the image since, replays the added rows onto what is there now.
-/
import Brindle.Storage.Rows

namespace Brindle

open Outcome (fail index)

/-- A heap tuple address: block number and offset number. -/
abbrev TidPair := UInt32 × UInt16

/-- A heap row with filterable attributes and no vector to rank. -/
abbrev UnrankableRow := TidPair × List AttrValue

/-- A row of the graph with its heap address. -/
abbrev GraphRow := Stored × TidPair

abbrev Oid := Nat

/-- What the storage layer raises. -/
inductive StorageError where
  /-- `brindle: {e}` for an error of the graph. -/
  | hnsw (e : HnswError)
  /-- `brindle: index graph and heap-pointer table are out of step`. -/
  | outOfStep
  /-- `brindle: corrupted index: row (…) carries {values} attribute values, but the index has
  {arity} attribute columns`. -/
  | corruptRow (tid : TidPair) (values arity : Nat)
  /-- `brindle: corrupted index: {nodes} graph nodes but {pointers} heap pointers`. -/
  | corruptPointers (nodes pointers : Nat)
  /-- A page that cannot be read, written or decoded. -/
  | page
  deriving DecidableEq, Repr

/-- The decoded image of an index. -/
structure Image where
  hnsw : Hnsw
  /-- `tids[i]` addresses graph node `i`. -/
  tids : List TidPair
  unrankable : List UnrankableRow
  generation : UInt64
  deriving DecidableEq, Repr

/-- The generation `write_index_blob` stores. -/
def firstGeneration : UInt64 := 1

/-- The graph rows a graph and its pointer table hold, in id order. -/
def tableRows (hnsw : Hnsw) (tids : List TidPair) : List GraphRow := hnsw.rows.zip tids

/-- The row a live node with these contents has in the table. -/
def liveRow (row : List F32 × List AttrValue × TidPair) : GraphRow :=
  (⟨row.1, row.2.1, false⟩, row.2.2)

namespace Image

def graphRows (image : Image) : List GraphRow := tableRows image.hnsw image.tids

/-- The checks `load_index_with_generation` makes on what it decoded. -/
def load (arity : Nat) (image : Image) : Outcome StorageError Image :=
  match image.unrankable.find? fun row => row.2.length ≠ arity with
  | some (tid, row) => fail (.corruptRow tid row.length arity)
  | none =>
    if image.hnsw.n ≠ image.tids.length then
      fail (.corruptPointers image.hnsw.n image.tids.length)
    else .ok image

/-- `rewrite_index_blob`: store new contents over `image`, under the next generation. -/
def rewrite (image contents : Image) : Image :=
  { contents with generation := image.generation + 1 }

end Image

section Backend

variable [Arith]

/-- Insert one row, checking that it lands on `expectedId`: the graph as the call leaves it, and what
it raised. -/
def applyOne (hnsw : Hnsw) (expectedId : Nat) (vector : List F32) (attrs : List AttrValue) :
    Outcome StorageError (Hnsw × Except StorageError Unit) := do
  let (hnsw, inserted) ← (hnsw.insertWithAttrs vector attrs).mapError .hnsw
  match inserted with
  | .ok id => return (hnsw, if id ≠ expectedId then .error .outOfStep else .ok ())
  | .error e => return (hnsw, .error (.hnsw e))

/-- Insert one row into a graph that is dropped if the insert raises, and append its heap
pointer. -/
def appendRow (table : Hnsw × List TidPair) (row : List F32 × List AttrValue × TidPair) :
    Outcome StorageError (Hnsw × List TidPair) := do
  match ← applyOne table.1 table.2.length row.1 row.2.1 with
  | (hnsw, .ok ()) => return (hnsw, table.2 ++ [row.2.2])
  | (_, .error e) => fail e

end Backend

/-- Inserts a transaction has made and not yet written back. -/
structure PendingWrite where
  indexOid : Oid
  /-- The generation of the image the graph below was loaded from. -/
  baseGeneration : UInt64
  hnsw : Hnsw
  tids : List TidPair
  unrankable : List UnrankableRow
  /-- How many vectorless rows the loaded image had. -/
  baseUnrankable : Nat
  /-- How many nodes the loaded image had. -/
  baseN : Nat
  /-- How many rows were staged when each open subtransaction began, innermost first. -/
  marks : List (Nat × Nat)
  /-- Set by a subtransaction abort: staged rows past this many are rolled back. -/
  rewindTo : Option (Nat × Nat)
  deriving DecidableEq, Repr

namespace PendingWrite

/-- The graph nodes the transaction staged. -/
def stagedNodes (w : PendingWrite) : List Nat := List.range' w.baseN (w.hnsw.n - w.baseN)

/-- The vectorless rows the transaction staged. -/
def stagedUnrankable (w : PendingWrite) : List UnrankableRow := w.unrankable.drop w.baseUnrankable

/-- How many rows of each kind are staged. -/
def staged (w : PendingWrite) : Nat × Nat := (w.stagedNodes.length, w.stagedUnrankable.length)

def graphRows (w : PendingWrite) : List GraphRow := tableRows w.hnsw w.tids

/-- The graph rows the transaction staged. -/
def stagedRows (w : PendingWrite) : List GraphRow := w.graphRows.drop w.baseN

/-- Read one staged row back out of the graph. -/
def stagedRow (w : PendingWrite) (id : Nat) :
    Outcome StorageError (List F32 × List AttrValue × TidPair) := do
  let vector ← (w.hnsw.vector id).mapError .hnsw
  return (vector, w.hnsw.attrsOf id, ← index w.tids id)

/-- A fresh copy of an image, with nothing staged. -/
def ofImage (oid : Oid) (image : Image) : PendingWrite where
  indexOid := oid
  baseGeneration := image.generation
  hnsw := image.hnsw
  tids := image.tids
  unrankable := image.unrankable
  baseUnrankable := image.unrankable.length
  baseN := image.hnsw.n
  marks := []
  rewindTo := none

/-- The first `count` staged graph rows, read back out of the graph. -/
def survivors (w : PendingWrite) (count : Nat) :
    Outcome StorageError (List (List F32 × List AttrValue × TidPair)) :=
  (List.range' w.baseN count).mapM w.stagedRow

variable [Arith]

/-- Replay the staged rows onto an image another backend has written. -/
def replay (w : PendingWrite) (image : Image) : Outcome StorageError Image := do
  let (hnsw, tids) ← w.stagedNodes.foldlM (fun table id => do appendRow table (← w.stagedRow id))
    (image.hnsw, image.tids)
  return { image with hnsw, tids, unrankable := image.unrankable ++ w.stagedUnrankable }

/-- What `flush_locked` makes of the stored image. -/
def writeBack (w : PendingWrite) (arity : Nat) (image : Image) : Outcome StorageError Image := do
  let contents ←
    if image.generation = w.baseGeneration then
      pure { image with hnsw := w.hnsw, tids := w.tids, unrankable := w.unrankable }
    else do
      -- another backend wrote while this transaction was open: its image is the one to build on
      let image ← image.load arity
      w.replay image
  return image.rewrite contents

/-- Stage a row with a vector, into the graph held for the transaction. -/
def stageVector (w : PendingWrite) (vector : List F32) (attrs : List AttrValue) (tid : TidPair) :
    Outcome StorageError (PendingWrite × Except StorageError Unit) := do
  match ← applyOne w.hnsw w.tids.length vector attrs with
  | (hnsw, .ok ()) => return ({ w with hnsw, tids := w.tids ++ [tid] }, .ok ())
  | (hnsw, .error e) => return ({ w with hnsw }, .error e)

omit [Arith] in
/-- Stage a row without one. -/
def stageUnrankable (w : PendingWrite) (attrs : List AttrValue) (tid : TidPair) : PendingWrite :=
  { w with unrankable := w.unrankable ++ [(tid, attrs)] }

end PendingWrite

/-- Tombstone the nodes whose tuples a vacuum reports dead. -/
def tombstoneDead (isDead : TidPair → Bool) (image : Image) : Outcome StorageError Hnsw :=
  image.tids.zipIdx.foldlM (fun hnsw (entry : TidPair × Nat) =>
    if isDead entry.1 then
      match hnsw.delete entry.2 with
      | .ok hnsw => return hnsw
      | .error e => fail (.hnsw e)
    else return hnsw) image.hnsw

/-- A heap row as the index sees it: `none` for a row with nothing to rank. -/
structure Row where
  vector : Option (List F32)
  attrs : List AttrValue
  tid : TidPair
  deriving DecidableEq, Repr

/-- What `ambuild` stores for the rows of a heap, in scan order. -/
def ambuild [Arith] (params : HnswParams) (rows : List Row) : Outcome StorageError Image :=
  rows.foldlM (fun image row =>
    match row.vector with
    | none => return { image with unrankable := image.unrankable ++ [(row.tid, row.attrs)] }
    | some vector => do
      match ← (image.hnsw.insertWithAttrs vector row.attrs).mapError .hnsw with
      | (hnsw, .ok _) => return { image with hnsw, tids := image.tids ++ [row.tid] }
      | (_, .error e) => fail (.hnsw e)) ⟨Hnsw.new params, [], [], firstGeneration⟩

/-- What `ambulkdelete` makes of the stored image: it is rewritten only when a row went. -/
def ambulkdelete (arity : Nat) (isDead : TidPair → Bool) (image : Image) :
    Outcome StorageError Image := do
  let loaded ← image.load arity
  let hnsw ← tombstoneDead isDead loaded
  let unrankable := loaded.unrankable.filter fun row => !isDead row.1
  let removed := hnsw.deletedCount - loaded.hnsw.deletedCount
  let unrankableRemoved := loaded.unrankable.length - unrankable.length
  if removed > 0 ∨ unrankableRemoved > 0 then
    return image.rewrite { loaded with hnsw, unrankable }
  else return image

end Brindle
