/-
# Brindle.Storage.Session — one transaction against the storage layer.

The commands a transaction can give, one primitive step each: `ROLLBACK TO` is a `rollback` for every
subtransaction it aborts followed by a `savepoint`, and a `COMMIT` with savepoints open releases them
first. The catalog and the heap are transactional, so a frame keeps both as they were when its
subtransaction began; the files on disk are not. A command that raises leaves the transaction failed,
and nothing but a rollback is carried out from there.

Beside the program's own state a session keeps what the heap decides: the rows of this transaction
that each index owes (`own`), the entries it held for other reasons (`rest`), and per file what has
ever been brought to it since it was written (`since`).
-/
import Mathlib.Data.Multiset.Count
import Mathlib.Data.Multiset.AddSub
import Brindle.Storage.Backend
import Brindle.Lib.Run

namespace Brindle

open Outcome (panicked starved)

namespace Row

/-- The heap row a live graph row stands for. -/
def ofGraph (row : GraphRow) : Row := ⟨some row.1.vector, row.1.attrs, row.2⟩

def ofUnrankable (row : UnrankableRow) : Row := ⟨none, row.2, row.1⟩

/-- The graph row of a row with a vector. -/
def graph? (row : Row) : Option GraphRow :=
  row.vector.map fun vector => liveRow (vector, row.attrs, row.tid)

/-- The entry of a row without one. -/
def vectorless? (row : Row) : Option UnrankableRow :=
  match row.vector with
  | some _ => none
  | none => some (row.tid, row.attrs)

end Row

/-- The heap rows that live graph rows and vectorless rows stand for. -/
def heapRows (rows : List GraphRow) (unrankable : List UnrankableRow) : Multiset Row :=
  ↑((rows.filter fun row => !row.1.dead).map Row.ofGraph ++ unrankable.map Row.ofUnrankable)

/-- The rows an image returns to a scan. -/
def Image.contents (image : Image) : Multiset Row := heapRows image.graphRows image.unrankable

/-- What an index owes the heap: this transaction's rows, in insertion order, and other entries. -/
structure Dues where
  own : List Row
  rest : Multiset Row
  deriving DecidableEq

def Dues.due (d : Dues) : Multiset Row := ↑d.own + d.rest

/-- An open subtransaction, with what its rollback restores. -/
structure Frame where
  subid : SubTransactionId
  catalog : Oid → Option Nat
  dues : Oid → Dues

structure Session where
  world : World
  /-- The open subtransactions, innermost first. -/
  frames : List Frame
  nextSub : SubTransactionId
  nextFile : Nat
  /-- A command has raised, and nothing has been rolled back since. -/
  failed : Bool
  dues : Oid → Dues
  since : Oid → Nat → Multiset Row
  /-- How often other backends have rewritten an image. -/
  foreign : Nat
  /-- No index has been dropped or moved. -/
  steady : Bool

/-- What a transaction does. -/
inductive Command where
  | insert (oid : Oid) (row : Row) (pages : PageAccess)
  /-- An index scan. -/
  | scan (oid : Oid) (pages : PageAccess)
  /-- A statement with a parallel plan. -/
  | parallelPlan (pages : PageAccess)
  | savepoint
  | release
  /-- Abort the innermost subtransaction. -/
  | rollback
  | truncate (oid : Oid) (params : HnswParams)
  /-- `REINDEX`, with the rows live in the heap in scan order. -/
  | reindex (oid : Oid) (params : HnswParams) (rows : List Row)
  | dropIndex (oid : Oid)
  /-- `ALTER INDEX … SET TABLESPACE`: contents and generation are copied, nothing is rebuilt. -/
  | moveIndex (oid : Oid)
  /-- Another backend rewrites the image: entries go and come. -/
  | others (oid : Oid) (image : Image) (gone come : Multiset Row)

/-- `TopSubTransactionId`. -/
def topSubTransactionId : SubTransactionId := 1

/-- The innermost open subtransaction. -/
def subidOf (frames : List Frame) : SubTransactionId :=
  (frames.head?.map Frame.subid).getD topSubTransactionId

namespace Session

/-- A transaction that has done nothing yet. -/
def start (catalog : Oid → Option Nat) (disk : Oid → Nat → Image) (columns : Oid → Nat)
    (nextFile : Nat) : Session where
  world := { pending := none, discarded := [], catalog, disk, columns }
  frames := []
  nextSub := topSubTransactionId + 1
  nextFile
  failed := false
  dues oid := ⟨[], (catalog oid).elim 0 fun file => (disk oid file).contents⟩
  since oid file := (disk oid file).contents
  foreign := 0
  steady := true

/-- Go on after a call: to `done` when it returned, to a failed transaction when it raised. -/
def after (s : Session) (call : Outcome Raised World) (done : Session → Session) :
    Outcome Raised Session :=
  match call with
  | .ok world => return done { s with world }
  | .error (.error raised) => return { s with world := raised.world, failed := true }
  | .error .panic => panicked
  | .error .fuel => starved

def savepoint (s : Session) : Session :=
  { s with
    world := s.world.subxactCallback .startSub s.nextSub (subidOf s.frames)
    frames := ⟨s.nextSub, s.world.catalog, s.dues⟩ :: s.frames
    nextSub := s.nextSub + 1 }

/-- `RELEASE` of the innermost savepoint; without one the command changes nothing. -/
def release (s : Session) : Session :=
  match s.frames with
  | [] => s
  | frame :: rest =>
    { s with
      world := s.world.subxactCallback .commitSub frame.subid (subidOf rest)
      frames := rest }

/-- The innermost subtransaction aborts, and with it what it did to the catalog and the heap. -/
def rollback (s : Session) : Session :=
  match s.frames with
  | [] => s
  | frame :: rest =>
    { s with
      world :=
        { s.world.subxactCallback .abortSub frame.subid (subidOf rest) with
          catalog := frame.catalog }
      frames := rest
      dues := frame.dues
      failed := false }

/-- The index gets a new file that holds `image`. -/
def newFile (s : Session) (oid : Oid) (image : Image) (since : Multiset Row) : Session :=
  { s with
    world :=
      { s.world.store oid s.nextFile image with
        catalog := Function.update s.world.catalog oid (some s.nextFile) }
    nextFile := s.nextFile + 1
    since := Function.update s.since oid (Function.update (s.since oid) s.nextFile since) }

/-- Entries of a file go and come. -/
def addSince (s : Session) (oid : Oid) (file : Nat) (come : Multiset Row) : Session :=
  { s with
    since := Function.update s.since oid (Function.update (s.since oid) file
      (s.since oid file + come)) }

def setDues (s : Session) (oid : Oid) (dues : Dues) : Session :=
  { s with dues := Function.update s.dues oid dues }

/-- The row is in the heap, and the index owes it. -/
def arrive (s : Session) (oid : Oid) (file : Nat) (row : Row) : Session :=
  (s.addSince oid file {row}).setDues oid { s.dues oid with own := (s.dues oid).own ++ [row] }

variable [Arith]

/-- `ambuild` over `rows`: what is staged is set aside and the index gets a new file. -/
def rebuild (s : Session) (oid : Oid) (params : HnswParams) (rows : List Row) (dues : Dues) :
    Outcome Raised Session :=
  let set := { s with world := s.world.forgetPending oid (subidOf s.frames) }
  match ambuild params rows with
  | .ok image => return (set.newFile oid image ↑rows).setDues oid dues
  | .error (.error _) => return { set with failed := true }
  | .error .panic => panicked
  | .error .fuel => starved

omit [Arith] in
/-- Another backend's rewrite, which the heap of every open level sees. -/
def othersWrite (s : Session) (oid : Oid) (file : Nat) (image : Image) (gone come : Multiset Row) :
    Session :=
  let change (dues : Oid → Dues) : Oid → Dues :=
    Function.update dues oid { dues oid with rest := (dues oid).rest - gone + come }
  { s.addSince oid file come with
    world := s.world.store oid file image
    frames := s.frames.map fun frame => { frame with dues := change frame.dues }
    dues := change s.dues
    foreign := s.foreign + 1 }

/-- A command of a transaction that has not failed. An index that is gone refuses every command that
names it. -/
def act (s : Session) : Command → Outcome Raised Session
  | .insert oid row pages =>
    match s.world.catalog oid with
    | none => return s
    | some file =>
      s.after (s.world.pendingInsert pages oid row.vector row.attrs row.tid)
        fun s => s.arrive oid file row
  | .scan oid pages =>
    match s.world.catalog oid with
    | none => return s
    | some _ => s.after (s.world.flushPendingFor pages oid) id
  | .parallelPlan pages => s.after (s.world.flushPending pages) id
  | .savepoint => return s.savepoint
  | .release => return s.release
  | .rollback => return s.rollback
  | .truncate oid params =>
    match s.world.catalog oid with
    | none => return s
    | some _ => s.rebuild oid params [] ⟨[], 0⟩
  | .reindex oid params rows =>
    match s.world.catalog oid with
    | none => return s
    | some _ => s.rebuild oid params rows { s.dues oid with rest := ↑rows - ↑(s.dues oid).own }
  | .dropIndex oid =>
    return { s with
      world := { s.world with catalog := Function.update s.world.catalog oid none }
      steady := false }
  | .moveIndex oid =>
    match s.world.catalog oid with
    | none => return s
    | some file =>
      return { s.newFile oid (s.world.disk oid file) (s.since oid file) with steady := false }
  | .others oid image gone come =>
    match s.world.catalog oid with
    | none => return s
    | some file => return s.othersWrite oid file image gone come

/-- One command. A failed transaction carries out nothing but a rollback; other backends go on. -/
def step (s : Session) (command : Command) : Outcome Raised Session :=
  match s.failed, command with
  | true, .rollback => return s.rollback
  | true, .others oid image gone come => s.act (.others oid image gone come)
  | true, _ => return s
  | false, command => s.act command

end Session

end Brindle
