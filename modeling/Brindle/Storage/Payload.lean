/-
# Brindle.Storage.Payload — the framing of the stored blob.

`encode_index` writes the graph behind its length, then the node-id → TID table, then the rows
without a vector; each table declares its own count. The readers are generic over the byte source, as
the decoder of the graph is: `load_index` drives them off the index pages, `decode_index_payload` off
a slice.
-/
import Brindle.Hnsw.Sources
import Brindle.Storage.Image

namespace Brindle

open Bytes (leBytes ofLe)
open Outcome (Alike fail)
open Reader (Agrees)

/-- Errors from decoding the blob payload framing. -/
inductive PayloadError where
  /-- `index payload is truncated`. -/
  | truncated
  /-- `index payload has trailing bytes`. -/
  | trailingBytes
  /-- `index payload is corrupt: {what}`. -/
  | corrupt (what : String)
  deriving DecidableEq, Repr

/-! ## Writing -/

def writeTid (tid : TidPair) : List UInt8 := leBytes 4 tid.1.toNat ++ leBytes 2 tid.2.toNat

def appendTidTable (tids : List TidPair) : List UInt8 :=
  leBytes 8 tids.length ++ tids.flatMap writeTid

def appendUnrankable (rows : List UnrankableRow) : List UInt8 :=
  leBytes 8 rows.length ++ rows.flatMap fun row => writeTid row.1 ++ writeAttrRow row.2

/-- Frame a graph, its node-id → TID table and the rows without a vector into one blob. -/
def encodeIndex (hnsw : Hnsw) (tids : List TidPair) (unrankable : List UnrankableRow) :
    Outcome HnswError (List UInt8) := do
  let graph ← hnsw.toBytes
  return leBytes 8 graph.length ++ graph ++ appendTidTable tids ++ appendUnrankable unrankable

/-! ## Reading -/

/-- A reader of the framing. -/
abbrev PayloadReader (S α : Type) := Reader PayloadError S α

namespace PayloadReader

variable {S α : Type}

/-- Run a decoder, its errors translated. -/
def ofDecoder (f : HnswDecodeError → PayloadError) (d : Decoder S α) : PayloadReader S α :=
  fun s => (d s).mapError f

def require (ok : Bool) (e : PayloadError) : PayloadReader S Unit :=
  if ok then pure () else fun _ => fail e

end PayloadReader

open PayloadReader (ofDecoder require)

/-- `map_err(|_| PayloadError::Truncated)`. -/
def asTruncated : HnswDecodeError → PayloadError := fun _ => .truncated

/-- What an attribute row that does not decode is reported as. -/
def attrRowError : HnswDecodeError → PayloadError
  | .invalid what => .corrupt what
  | _ => .truncated

section Read

variable {S : Type} [GraphBytes S]

def readTid : PayloadReader S TidPair := do
  let entry ← ofDecoder asTruncated (Decoder.readExact 6)
  return (UInt32.ofNat (ofLe (entry.take 4)), UInt16.ofNat (ofLe (entry.drop 4)))

/-- The graph's declared byte length, which the source must be able to supply. -/
def readGraphLen : PayloadReader S Nat := do
  let len ← ofDecoder asTruncated Decoder.readLen
  require (len ≤ (← ofDecoder asTruncated Decoder.remaining)) .truncated
  return len

/-- Read `k` items one after another. -/
def readItems {α : Type} (k : Nat) (item : PayloadReader S α) : PayloadReader S (List α) :=
  match k with
  | 0 => return []
  | k + 1 => do
    let x ← item
    return x :: (← readItems k item)

/-- The node-id → heap-TID table that follows the graph. -/
def readTidTable : PayloadReader S (List TidPair) := do
  let count ← ofDecoder asTruncated Decoder.readLen
  require (count ≤ (← ofDecoder asTruncated Decoder.remaining) / 6) .truncated
  readItems count readTid

def readUnrankableRow : PayloadReader S UnrankableRow := do
  let tid ← readTid
  return (tid, ← ofDecoder attrRowError readAttrRow)

/-- The table of rows that have attributes but no vector. -/
def readUnrankable : PayloadReader S (List UnrankableRow) := do
  let count ← ofDecoder asTruncated Decoder.readLen
  require (count ≤ (← ofDecoder asTruncated Decoder.remaining) / 14) .truncated
  readItems count readUnrankableRow

end Read

/-- Split a blob back into the serialized graph, the TID table and the rows without a vector. -/
def decodeIndexPayload (blob : List UInt8) :
    Outcome PayloadError (List UInt8 × List TidPair × List UnrankableRow) := do
  let (graphLen, rest) ← readGraphLen blob
  let graph ← Outcome.slice rest 0 graphLen
  let (tids, rest) ← readTidTable (rest.drop graphLen)
  let (unrankable, rest) ← readUnrankable rest
  if rest.length ≠ 0 then fail .trailingBytes
  return (graph, tids, unrankable)

/-! ## Either kind of source -/

namespace Bisimilar

variable {S T : Type} [GraphBytes S] [GraphBytes T] {R : S → T → Prop}

omit [GraphBytes S] [GraphBytes T] in
theorem agrees_ofDecoder {α : Type} {d : Decoder S α} {e : Decoder T α}
    (f : HnswDecodeError → PayloadError) (h : Agrees R d e) :
    Agrees R (ofDecoder f d) (ofDecoder f e) :=
  fun s t hst => (h s t hst).mapError f

omit [GraphBytes S] [GraphBytes T] in
theorem agrees_payload_require (ok : Bool) (e : PayloadError) :
    Agrees R (require ok e : PayloadReader S Unit) (require ok e) := by
  unfold require
  split
  · exact Agrees.pure ()
  · exact fun _ _ _ => .error _

omit [GraphBytes S] [GraphBytes T] in
theorem agrees_items {α : Type} {d : PayloadReader S α} {e : PayloadReader T α}
    (h : Agrees R d e) (k : Nat) : Agrees R (readItems k d) (readItems k e) := by
  induction k with
  | zero => exact Agrees.pure []
  | succ k ih =>
    refine h.bind fun x => ?_
    exact ih.bind fun xs => Agrees.pure (x :: xs)

variable (B : Bisimilar R)
include B

theorem agrees_tid : Agrees R (readTid : PayloadReader S TidPair) readTid :=
  (agrees_ofDecoder asTruncated (B.readExact 6)).bind fun _ => Agrees.pure _

theorem agrees_graphLen : Agrees R (readGraphLen : PayloadReader S Nat) readGraphLen := by
  refine (agrees_ofDecoder asTruncated B.agrees_readLen).bind fun len => ?_
  refine (agrees_ofDecoder asTruncated B.agrees_remaining).bind fun left => ?_
  exact (agrees_payload_require _ _).bind fun _ => Agrees.pure len

/-- A table declares its count, which what is left of the source must be able to hold. -/
theorem agrees_tidTable :
    Agrees R (readTidTable : PayloadReader S (List TidPair)) readTidTable := by
  refine (agrees_ofDecoder asTruncated B.agrees_readLen).bind fun count => ?_
  refine (agrees_ofDecoder asTruncated B.agrees_remaining).bind fun left => ?_
  exact (agrees_payload_require _ _).bind fun _ => agrees_items B.agrees_tid count

theorem agrees_unrankable :
    Agrees R (readUnrankable : PayloadReader S (List UnrankableRow)) readUnrankable := by
  refine (agrees_ofDecoder asTruncated B.agrees_readLen).bind fun count => ?_
  refine (agrees_ofDecoder asTruncated B.agrees_remaining).bind fun left => ?_
  refine (agrees_payload_require _ _).bind fun _ => agrees_items ?_ count
  refine B.agrees_tid.bind fun tid => ?_
  exact (agrees_ofDecoder attrRowError B.agrees_attrRow).bind fun _ => Agrees.pure _

end Bisimilar

end Brindle
