/-
# Brindle.Storage.Cluster — backends that write one index, down to its pages.

The storage calls of `storage.rs` and `mod.rs` over the main fork itself: what is loaded is decoded
from the pages, what is stored is encoded onto them, and the fork is all the backends share. The
machine interleaves the inserts, savepoints, write-backs, commits and aborts of any number of backends
with bulk-delete passes. A load and a write-back run under the image lock and are one step each; the
settling a call begins with takes the lock on its own, so it may also be a step by itself, with
others in between. A call that raises aborts its transaction.

Where a transaction writes a second index, the write of this one is flushed first; that is the
write-back step.
-/
import Brindle.Lib.Nest
import Brindle.Storage.Copies

namespace Brindle

open Outcome (fail panicked)
open Rewind (Nest)
open Hnsw (layersOf)
open Row (counts)

/-- A heap row: how many attribute values it has is a machine word. -/
structure HeapRow extends Row where
  attrs_word : attrs.length < 2 ^ 64

/-- What `CREATE INDEX` goes by: the options, the attribute columns, and the heap in scan order. -/
structure Build where
  params : HnswParams
  m_word : params.m < 2 ^ 64
  ef_word : params.efConstruction < 2 ^ 64
  arity : Nat
  heap : List HeapRow

theorem HnswParams.default_m_word : HnswParams.default.m < 2 ^ 64 := by decide

theorem HnswParams.default_ef_word : HnswParams.default.efConstruction < 2 ^ 64 := by decide

def Build.rows (build : Build) : List Row := build.heap.map HeapRow.toRow

/-! ## The calls -/

section Calls

variable {capacity : Nat}

/-- An error of the graph, as the storage layer raises it. -/
def hnswError (e : HnswError) : PageError := .storage (.hnsw e)

/-- Replace the contents of the fork. A blob is a `Vec`, whose length is a machine word. -/
def storeBlob (fork : Fork capacity) (blob : List UInt8) : Outcome PageError (Fork capacity) :=
  if blob.length < 2 ^ 64 then rewriteIndexBlob fork blob else panicked

variable [Arith]

/-- `ambuild`: the fork of a new index. -/
def Build.fork (build : Build) : Outcome PageError (Fork capacity) := do
  let image ← (ambuild build.params build.rows).mapError .storage
  let blob ← image.encode.mapError hnswError
  if blob.length < 2 ^ 64 then writeIndexBlob [] blob else panicked

/-- Carry out a subtransaction rollback recorded by the callback. -/
def settlePending (arity : Nat) (fork : Fork capacity) (write : Option PendingWrite) :
    Outcome PageError (Option PendingWrite) :=
  match write with
  | none => return none
  | some w =>
    match w.rewindTo with
    | none => return some w
    | some mark =>
      -- nothing staged survives: dropping it all is the rollback
      if mark = (0, 0) then return none
      else do
        let survivors ← (w.survivors mark.1).mapError .storage
        let image ← loadIndexWithGeneration arity fork
        let (hnsw, tids) ←
          (survivors.foldlM appendRow (image.hnsw, image.tids)).mapError .storage
        return some
          { PendingWrite.ofImage w.indexOid image with
            hnsw
            tids
            unrankable := image.unrankable ++ w.stagedUnrankable.take mark.2
            marks := w.marks }

/-- Add one row to a staged write. -/
def PendingWrite.stage (w : PendingWrite) (row : Row) : Outcome PageError PendingWrite :=
  match row.vector with
  | none => return w.stageUnrankable row.attrs row.tid
  | some vector => do
    match ← (w.stageVector vector row.attrs row.tid).mapError .storage with
    | (w, .ok ()) => return w
    | (_, .error e) => fail (.storage e)

/-- The write a row is staged in: the stored image is loaded on first use. -/
def loadPending (arity : Nat) (fork : Fork capacity) (write : Option PendingWrite) :
    Outcome PageError PendingWrite :=
  match write with
  | some w => return w
  | none => do return PendingWrite.ofImage 0 (← loadIndexWithGeneration arity fork)

/-- Stage one row for write-back at the end of the transaction. -/
def pendingInsert (arity : Nat) (fork : Fork capacity) (write : Option PendingWrite) (row : Row) :
    Outcome PageError PendingWrite := do
  let write ← settlePending arity fork write
  let w ← loadPending arity fork write
  w.stage row

/-- The image a flush stores where nobody wrote since the write was loaded. -/
def PendingWrite.image (w : PendingWrite) : Image :=
  ⟨w.hnsw, w.tids, w.unrankable, w.baseGeneration⟩

/-- Write a staged write back, replaying it onto what is there now if another backend has written
since. -/
def flushLocked (arity : Nat) (fork : Fork capacity) (w : PendingWrite) :
    Outcome PageError (Fork capacity) := do
  let (_, _, current) ← readMeta fork
  let blob ←
    if current = w.baseGeneration then w.image.encode.mapError hnswError
    else do
      let image ← loadIndexWithGeneration arity fork
      let image ← (w.replay image).mapError .storage
      image.encode.mapError hnswError
  storeBlob fork blob

/-- `flush_pending_for`, and the end of the transaction: settle, take the slot and flush it. -/
def flushPending (arity : Nat) (fork : Fork capacity) (write : Option PendingWrite) :
    Outcome PageError (Option (Fork capacity)) := do
  match ← settlePending arity fork write with
  | none => return none
  | some w => return some (← flushLocked arity fork w)

/-- `ambulkdelete`: the fork it leaves when a row went. -/
def bulkDelete (arity : Nat) (fork : Fork capacity) (isDead : TidPair → Bool) :
    Outcome PageError (Option (Fork capacity)) := do
  let image ← loadIndexWithGeneration arity fork
  let hnsw ← (tombstoneDead isDead image).mapError .storage
  let unrankable := image.unrankable.filter fun row => !isDead row.1
  let removed := hnsw.deletedCount - image.hnsw.deletedCount
  let unrankableRemoved := image.unrankable.length - unrankable.length
  if removed > 0 ∨ unrankableRemoved > 0 then do
    let blob ← (encodeIndex hnsw image.tids unrankable).mapError hnswError
    return some (← storeBlob fork blob)
  else return none

end Calls

/-! ## The machine -/

/-- A completed change of the stored index. -/
inductive IndexEvent where
  | batch (rows : List Row)
  | vacuum (isDead : TidPair → Bool)

namespace IndexEvent

/-- The rows an event brings. -/
def rows : IndexEvent → List Row
  | .batch rows => rows
  | .vacuum _ => []

/-- The rows of a history, in write-back order. -/
def written (history : List IndexEvent) : List Row := history.flatMap rows

theorem written_concat (history : List IndexEvent) (e : IndexEvent) :
    written (history ++ [e]) = written history ++ e.rows := by
  simp [written]

end IndexEvent

/-- The open transaction of a backend. -/
structure Transaction where
  /-- `PENDING`. -/
  write : Option PendingWrite
  /-- The rows inserted and not yet written back, by open savepoint. The calls see how many savepoints
  are open and no row. -/
  nest : Nest Row

/-- No transaction, or one that has not written. -/
def Transaction.idle : Transaction := ⟨none, .empty⟩

structure Cluster (capacity : Nat) where
  fork : Fork capacity
  backends : Nat → Transaction
  /-- The completed write-backs and vacuums. No call looks at it. -/
  history : List IndexEvent
  /-- How often the fork has been rewritten. No call looks at it. -/
  rewrites : Nat

inductive ClusterAction where
  | insert (backend : Nat) (row : HeapRow)
  /-- A call settles, and others go before the rest of it. -/
  | settle (backend : Nat)
  | savepoint (backend : Nat)
  | release (backend : Nat)
  /-- The innermost subtransaction aborts; `ROLLBACK TO` aborts some and opens one. -/
  | rollback (backend : Nat)
  /-- A flush before the end of the transaction: a scan, a parallel plan, a second index. -/
  | writeBack (backend : Nat)
  | commit (backend : Nat)
  | abort (backend : Nat)
  | vacuum (isDead : TidPair → Bool)

namespace Cluster

variable {capacity : Nat}

/-- A built index, and nobody writing. -/
def start (fork : Fork capacity) : Cluster capacity := ⟨fork, fun _ => .idle, [], 0⟩

def setBackend (s : Cluster capacity) (b : Nat) (t : Transaction) : Cluster capacity :=
  { s with backends := Function.update s.backends b t }

/-- The fork is rewritten. -/
def store (s : Cluster capacity) (fork : Fork capacity) (e : IndexEvent) : Cluster capacity :=
  { s with fork, history := s.history ++ [e], rewrites := s.rewrites + 1 }

/-- Savepoint bookkeeping, on what is staged and on the rows. -/
def mark (s : Cluster capacity) (b : Nat) (event : SubXactEvent)
    (nest : Nest Row → Nest Row) : Cluster capacity :=
  let t := s.backends b
  s.setBackend b ⟨t.write.map fun w => w.applyMarkEvent event, nest t.nest⟩

variable [Arith]

/-- Flush what `b` has staged, and go on with `next`. -/
def flush (arity : Nat) (s : Cluster capacity) (b : Nat) (next : Transaction) : Cluster capacity :=
  let t := s.backends b
  match flushPending arity s.fork t.write with
  | .ok none => s.setBackend b next
  | .ok (some fork) => (s.setBackend b next).store fork (.batch t.nest.all)
  | .error _ => s.setBackend b .idle

/-- The state after a step. -/
def next (arity : Nat) (s : Cluster capacity) : ClusterAction → Cluster capacity
  | .insert b row =>
    match pendingInsert arity s.fork (s.backends b).write row.toRow with
    | .ok w => s.setBackend b ⟨some w, (s.backends b).nest.add row.toRow⟩
    | .error _ => s.setBackend b .idle
  | .settle b =>
    match settlePending arity s.fork (s.backends b).write with
    | .ok write => s.setBackend b ⟨write, (s.backends b).nest⟩
    | .error _ => s.setBackend b .idle
  | .savepoint b => s.mark b .startSub Nest.opened
  | .release b => if (s.backends b).nest.outer = [] then s else s.mark b .commitSub Nest.released
  | .rollback b => if (s.backends b).nest.outer = [] then s else s.mark b .abortSub Nest.rolledBack
  | .writeBack b => s.flush arity b ⟨none, (s.backends b).nest.cleared⟩
  | .commit b => s.flush arity b .idle
  | .abort b => s.setBackend b .idle
  | .vacuum isDead =>
    match bulkDelete arity s.fork isDead with
    | .ok none => { s with history := s.history ++ [.vacuum isDead] }
    | .ok (some fork) => s.store fork (.vacuum isDead)
    | .error _ => s

def step (arity : Nat) (s : Cluster capacity) (a : ClusterAction) :
    Outcome PageError (Cluster capacity) :=
  return s.next arity a

/-- How many nodes the stored graph has, tombstones included. -/
def nodes (build : Build) (s : Cluster capacity) : Nat :=
  (counts (build.rows ++ IndexEvent.written s.history)).1

/-- The layers of the graph the step writes to are counted by a `u32`. -/
def Fits (build : Build) (s : Cluster capacity) : ClusterAction → Prop
  | .insert b row =>
    layersOf build.params
      (s.nodes build + (counts ((s.backends b).nest.all ++ [row.toRow])).1) < 2 ^ 32
  | .settle b | .writeBack b | .commit b =>
    layersOf build.params (s.nodes build + (counts (s.backends b).nest.all).1) < 2 ^ 32
  | _ => True

instance (build : Build) (s : Cluster capacity) : ∀ a, Decidable (s.Fits build a)
  | .insert _ _ => inferInstanceAs (Decidable (_ < _))
  | .settle _ => inferInstanceAs (Decidable (_ < _))
  | .writeBack _ => inferInstanceAs (Decidable (_ < _))
  | .commit _ => inferInstanceAs (Decidable (_ < _))
  | .savepoint _ => .isTrue trivial
  | .release _ => .isTrue trivial
  | .rollback _ => .isTrue trivial
  | .abort _ => .isTrue trivial
  | .vacuum _ => .isTrue trivial

end Cluster

end Brindle
