/-
# Brindle.Storage.Backend — the staging slot of one backend, and the paths that fill and empty it.

`pending_insert`, `settle_pending`, `flush_locked`, `flush_pending_for`, `flush_pending`,
`forget_pending` and the two transaction callbacks of `storage.rs`. A function that can raise hands
back, with its error, the state it leaves behind: every write-back takes the slot before the work
that may fail. What the page layer does is one bit a call: the pages it touches can be read and
written, or the call raises.
-/
import Brindle.Storage.Image

namespace Brindle

open Outcome (fail)

abbrev SubTransactionId := Nat

/-- What one backend sees: its slot, the writes it set aside, and the stored images. -/
structure World where
  /-- `PENDING`. -/
  pending : Option PendingWrite
  /-- `DISCARDED`: staging set aside by a rebuild, against the subtransaction that did it. -/
  discarded : List (SubTransactionId × PendingWrite)
  /-- The file each index lives in; `none` for an index that is gone. -/
  catalog : Oid → Option Nat
  /-- The image in each file of each index. -/
  disk : Oid → Nat → Image
  /-- How many attribute columns each index has. -/
  columns : Oid → Nat

/-- An error, and the state it leaves behind. -/
structure Raised where
  error : StorageError
  world : World

/-- Whether the pages can be read and written, for each place a call touches them. -/
structure PageAccess where
  settle : Bool := true
  flush : Bool := true
  load : Bool := true
  deriving DecidableEq, Repr

/-- Every page can be read and written. -/
def PageAccess.good : PageAccess := {}

namespace World

/-- Raise `x`'s error, if it has one, from this state. -/
def raising {α : Type} (world : World) (x : Outcome StorageError α) : Outcome Raised α :=
  x.mapError fun error => ⟨error, world⟩

/-- Touch the pages of a relation. -/
def access (works : Bool) : Outcome StorageError Unit :=
  if works then return () else fail .page

/-- Put a write in the slot, or empty it. -/
def setPending (world : World) (pending : Option PendingWrite) : World := { world with pending }

/-- Replace the image in one file. -/
def store (world : World) (oid : Oid) (file : Nat) (image : Image) : World :=
  { world with
    disk := Function.update world.disk oid (Function.update (world.disk oid) file image) }

variable [Arith]

/-- Write a pending graph back. The callers have emptied the slot. -/
def flushLocked (works : Bool) (world : World) (write : Option PendingWrite) :
    Outcome Raised World :=
  match write with
  | none => return world
  | some w =>
    match world.catalog w.indexOid with
    -- the index is gone: there is nothing to write back
    | none => return world
    | some file => do
      world.raising (access works)
      let image ← world.raising
        (w.writeBack (world.columns w.indexOid) (world.disk w.indexOid file))
      return world.store w.indexOid file image

/-- Rebuild the staged graph from the stored image and the staged rows before `mark`. -/
def resettle (works : Bool) (world : World) (w : PendingWrite) (mark : Nat × Nat) :
    Outcome Raised World := do
  let survivors ← world.raising (w.survivors mark.1)
  match world.catalog w.indexOid with
  -- dropped since: the staged rows have nowhere to go
  | none => return world
  | some file => do
    world.raising (access works)
    let image ← world.raising
      ((world.disk w.indexOid file).load (world.columns w.indexOid))
    let (hnsw, tids) ← world.raising (survivors.foldlM appendRow (image.hnsw, image.tids))
    return world.setPending (some
      { PendingWrite.ofImage w.indexOid image with
        hnsw
        tids
        unrankable := image.unrankable ++ w.stagedUnrankable.take mark.2
        marks := w.marks })

/-- Carry out a subtransaction rollback recorded by the callback. -/
def settlePending (works : Bool) (world : World) : Outcome Raised World :=
  match world.pending with
  | none => return world
  | some w =>
    match w.rewindTo with
    | none => return world
    | some mark =>
      let world := world.setPending none
      -- nothing staged survives: dropping it all is the rollback
      if mark = (0, 0) then return world else world.resettle works w mark

/-- Flush the slot if it holds another index than `oid`: only one is tracked. -/
def flushOther (works : Bool) (world : World) (oid : Oid) : Outcome Raised World :=
  match world.pending with
  | some w =>
    if w.indexOid ≠ oid then (world.setPending none).flushLocked works (some w) else return world
  | none => return world

/-- Load the stored image of `oid` into an empty slot. -/
def loadPending (works : Bool) (world : World) (oid : Oid) : Outcome Raised (World × PendingWrite) :=
  match world.pending with
  | some w => return (world, w)
  | none =>
    match world.catalog oid with
    | none => world.raising (fail .page)
    | some file => do
      world.raising (access works)
      let image ← world.raising ((world.disk oid file).load (world.columns oid))
      let w := PendingWrite.ofImage oid image
      return (world.setPending (some w), w)

/-- Add one row to the write in the slot. A row the graph refuses leaves the slot filled. -/
def stageRow (world : World) (w : PendingWrite) (vector : Option (List F32))
    (attrs : List AttrValue) (tid : TidPair) : Outcome Raised World :=
  match vector with
  | none => return world.setPending (some (w.stageUnrankable attrs tid))
  | some vector => do
    match ← world.raising (w.stageVector vector attrs tid) with
    | (w, .ok ()) => return world.setPending (some w)
    | (w, .error e) => (world.setPending (some w)).raising (fail e)

/-- Stage one row for write-back at the end of the transaction, loading the stored image on first
use. -/
def pendingInsert (pages : PageAccess) (world : World) (oid : Oid) (vector : Option (List F32))
    (attrs : List AttrValue) (tid : TidPair) : Outcome Raised World := do
  let world ← world.settlePending pages.settle
  let world ← world.flushOther pages.flush oid
  let (world, w) ← world.loadPending pages.load oid
  world.stageRow w vector attrs tid

/-- Write back anything staged for `oid` before it is read. -/
def flushPendingFor (pages : PageAccess) (world : World) (oid : Oid) : Outcome Raised World := do
  let world ← world.settlePending pages.settle
  match world.pending with
  | some w =>
    if w.indexOid = oid then (world.setPending none).flushLocked pages.flush (some w)
    else return world
  | none => return world

/-- Write back whatever is pending, for any index. -/
def flushPending (pages : PageAccess) (world : World) : Outcome Raised World := do
  let world ← world.settlePending pages.settle
  (world.setPending none).flushLocked pages.flush world.pending

omit [Arith] in
/-- Set aside the rows staged for `oid`, because it is being rebuilt in subtransaction `subid`. -/
def forgetPending (world : World) (oid : Oid) (subid : SubTransactionId) : World :=
  match world.pending with
  | none => world
  | some w =>
    if w.indexOid ≠ oid then world
    else
      let world := world.setPending none
      -- at most one entry per subtransaction, and it is the first
      if world.discarded.any fun entry => entry.1 = subid then world
      else { world with discarded := world.discarded ++ [(subid, w)] }

/-- `XACT_EVENT_PRE_COMMIT`. -/
def preCommit (pages : PageAccess) (world : World) : Outcome Raised World := do
  let world ← world.settlePending pages.settle
  let world ← (world.setPending none).flushLocked pages.flush world.pending
  return { world with discarded := [] }

omit [Arith] in
/-- `XACT_EVENT_ABORT`. -/
def xactAbort (world : World) : World := { world with pending := none, discarded := [] }

end World

/-! ## Subtransaction boundaries -/

inductive SubXactEvent where
  | startSub
  | commitSub
  | abortSub
  deriving DecidableEq, Repr

/-- Componentwise minimum. -/
def minPair (a b : Nat × Nat) : Nat × Nat := (min a.1 b.1, min a.2 b.2)

namespace PendingWrite

/-- Move one write's savepoint bookkeeping across a subtransaction boundary. -/
def applyMarkEvent (w : PendingWrite) : SubXactEvent → PendingWrite
  -- clamped by any rewind not yet carried out
  | .startSub => { w with marks := minPair (w.rewindTo.getD w.staged) w.staged :: w.marks }
  | .commitSub => { w with marks := w.marks.tail }
  | .abortSub =>
    -- no mark means staging began inside the subtransaction being rolled back
    let mark := w.marks.headD (0, 0)
    { w with
      marks := w.marks.tail
      rewindTo :=
        if mark.1 < w.staged.1 ∨ mark.2 < w.staged.2 then
          some (minPair (w.rewindTo.getD mark) mark)
        else w.rewindTo }

end PendingWrite

namespace World

/-- Hand the set-aside write of `my` back to the slot: the rebuild is undone. -/
def restoreDiscarded (world : World) (my : SubTransactionId) : World :=
  let restored := (world.discarded.find? fun entry => entry.1 = my).map Prod.snd
  { world with
    discarded := world.discarded.filter fun entry => entry.1 ≠ my
    pending := restored <|> world.pending }

/-- Hand the set-aside write of `my` to `parent`, which keeps an older one of its own. -/
def reparentDiscarded (world : World) (my parent : SubTransactionId) : World :=
  { world with
    discarded :=
      if world.discarded.any fun entry => entry.1 = parent then
        world.discarded.filter fun entry => entry.1 ≠ my
      else world.discarded.map fun entry => if entry.1 = my then (parent, entry.2) else entry }

/-- Move every write, staged or set aside, across a subtransaction boundary. -/
def applyMarkEvents (world : World) (event : SubXactEvent) : World :=
  { world with
    pending := world.pending.map fun w => w.applyMarkEvent event
    discarded := world.discarded.map fun entry => (entry.1, entry.2.applyMarkEvent event) }

/-- `subxact_callback`. -/
def subxactCallback (world : World) (event : SubXactEvent) (my parent : SubTransactionId) : World :=
  let world :=
    match event with
    | .abortSub => world.restoreDiscarded my
    | .commitSub => world.reparentDiscarded my parent
    | .startSub => world
  world.applyMarkEvents event

end World

end Brindle
