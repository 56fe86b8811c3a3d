/-
# Brindle.Hnsw.Sources — one decoder, two kinds of source.

The decoder is written over any `GraphBytes` source and touches it through `readExact` and
`remaining` alone. So it cannot tell apart two sources whose answers to these two calls agree for as
long as the calls go on: it fails alike on both, or returns the same graph from both and leaves
sources that agree again.
-/
import Brindle.Hnsw.Codec

namespace Brindle

open Outcome (Alike)
open Reader (Agrees)
open Decoder

variable {S T : Type} [GraphBytes S] [GraphBytes T] {R : S → T → Prop}

/-- Related sources give the same answer to either call, and are related again after it. -/
structure Bisimilar (R : S → T → Prop) : Prop where
  remaining : ∀ s t, R s t → GraphBytes.remaining s = GraphBytes.remaining t
  readExact : ∀ k, Agrees R (Decoder.readExact (S := S) k) (Decoder.readExact (S := T) k)

namespace Bisimilar

omit [GraphBytes S] [GraphBytes T] in
/-- A refusal reads nothing. -/
theorem agrees_fail {α : Type} (e : HnswDecodeError) :
    Agrees R (Decoder.fail e : Decoder S α) (Decoder.fail e) :=
  fun _ _ _ => .error _

omit [GraphBytes S] [GraphBytes T] in
/-- A check reads nothing either: what it tests has been read before. -/
theorem agrees_require (ok : Bool) (e : HnswDecodeError) :
    Agrees R (require ok e : Decoder S Unit) (require ok e) := by
  unfold require
  split
  · exact Agrees.pure ()
  · exact agrees_fail e

omit [GraphBytes S] [GraphBytes T] in
/-- Nor does a computation on what has been read. -/
theorem agrees_checked {α : Type} (x : Outcome HnswDecodeError α) :
    Agrees R (checked x : Decoder S α) (checked x) := by
  intro s t hst
  cases x with
  | ok a => exact .ok ⟨rfl, hst⟩
  | error fault => exact .error fault

variable (B : Bisimilar R)
include B

theorem agrees_remaining : Agrees R (Decoder.remaining : Decoder S Nat) Decoder.remaining :=
  fun s t hst => .ok ⟨B.remaining s t hst, hst⟩

/-- Every number is one `readExact`, of the number's width. -/
theorem agrees_readLe (k : Nat) : Agrees R (readLe k : Decoder S Nat) (readLe k) :=
  (B.readExact k).bind fun _ => Agrees.pure _

theorem agrees_u8 : Agrees R (u8 : Decoder S Nat) u8 := B.agrees_readLe 1

theorem agrees_u16 : Agrees R (u16 : Decoder S Nat) u16 := B.agrees_readLe 2

theorem agrees_u32 : Agrees R (u32 : Decoder S Nat) u32 := B.agrees_readLe 4

theorem agrees_u64 : Agrees R (u64 : Decoder S Nat) u64 := B.agrees_readLe 8

theorem agrees_readLen : Agrees R (readLen : Decoder S Nat) readLen := B.agrees_u64

omit [GraphBytes S] [GraphBytes T] B in
/-- A list of items, one read after another. -/
theorem agrees_times {α : Type} {d : Decoder S α} {e : Decoder T α} (h : Agrees R d e) (k : Nat) :
    Agrees R (times k d) (times k e) := by
  induction k with
  | zero => exact Agrees.pure []
  | succ k ih =>
    refine h.bind fun x => ?_
    exact ih.bind fun xs => Agrees.pure (x :: xs)

/-! ## The parts of a node -/

/-- The tag decides how much is read, and it is the same tag. -/
theorem agrees_attrValue : Agrees R (readAttrValue : Decoder S AttrValue) readAttrValue := by
  refine B.agrees_u8.bind fun tag => ?_
  match tag with
  | 0 => exact Agrees.pure AttrValue.null
  | 1 => exact B.agrees_u64.bind fun _ => Agrees.pure _
  | 2 => exact B.agrees_u64.bind fun _ => Agrees.pure _
  | _ + 3 => exact agrees_fail _

/-- The count is checked against what remains, which the two sources agree on. -/
theorem agrees_attrRow : Agrees R (readAttrRow : Decoder S (List AttrValue)) readAttrRow := by
  refine B.agrees_readLen.bind fun count => ?_
  refine B.agrees_remaining.bind fun left => ?_
  refine (agrees_require _ _).bind fun _ => ?_
  exact agrees_times B.agrees_attrValue count

/-- One byte. -/
theorem agrees_tombstone : Agrees R (readTombstone : Decoder S Bool) readTombstone := by
  refine B.agrees_u8.bind fun flag => ?_
  match flag with
  | 0 => exact Agrees.pure false
  | 1 => exact Agrees.pure true
  | _ + 2 => exact agrees_fail _

theorem agrees_neighbor (n : Nat) :
    Agrees R (readNeighbor n : Decoder S Nat) (readNeighbor n) := by
  refine B.agrees_readLen.bind fun id => ?_
  exact (agrees_require _ _).bind fun _ => Agrees.pure id

/-- The count is checked against the cap, and against what remains. -/
theorem agrees_neighborList (cap n : Nat) :
    Agrees R (readNeighborList cap n : Decoder S (List Nat)) (readNeighborList cap n) := by
  refine B.agrees_readLen.bind fun count => ?_
  refine (agrees_require _ _).bind fun _ => ?_
  refine B.agrees_remaining.bind fun left => ?_
  refine (agrees_require _ _).bind fun _ => ?_
  exact agrees_times (B.agrees_neighbor n) count

/-- The lists go into an arena that is no part of the source. -/
theorem agrees_layers (hdr : GraphHeader) (nodeStart levels : Nat) (links linkCounts : List Nat) :
    Agrees R (readLayers hdr nodeStart levels links linkCounts : Decoder S _)
      (readLayers hdr nodeStart levels links linkCounts) := by
  refine Agrees.foldlM (fun lists layer => ?_) (List.range levels) (links, linkCounts)
  refine (B.agrees_neighborList _ _).bind fun ids => ?_
  exact (agrees_checked _).bind fun _ => Agrees.pure _

/-- A node looks at what remains before its lists, and again in each list and in the attribute row. -/
theorem agrees_node (hdr : GraphHeader) (slotCeiling : Nat) (tables : NodeTables) :
    Agrees R (readNode hdr slotCeiling tables : Decoder S NodeTables)
      (readNode hdr slotCeiling tables) := by
  refine B.agrees_tombstone.bind fun deleted => ?_
  refine B.agrees_readLen.bind fun levels => ?_
  refine (agrees_require _ _).bind fun _ => (agrees_require _ _).bind fun _ => ?_
  refine (B.readExact _).bind fun vector => ?_
  refine B.agrees_remaining.bind fun left => ?_
  refine (agrees_require _ _).bind fun _ => (agrees_require _ _).bind fun _ => ?_
  refine (agrees_require _ _).bind fun _ => ?_
  refine (B.agrees_layers hdr _ levels _ _).bind fun lists => ?_
  exact B.agrees_attrRow.bind fun attrs => Agrees.pure _

/-- By induction on the nodes that are left to read. -/
theorem agrees_nodes (hdr : GraphHeader) (slotCeiling n : Nat) (tables : NodeTables) :
    Agrees R (readNodes hdr slotCeiling n tables : Decoder S NodeTables)
      (readNodes hdr slotCeiling n tables) := by
  induction n generalizing tables with
  | zero => exact Agrees.pure tables
  | succ n ih => exact (B.agrees_node hdr slotCeiling tables).bind ih

/-! ## The graph -/

omit [GraphBytes S] [GraphBytes T] B in
theorem agrees_metric (code : Nat) :
    Agrees R (readMetric code : Decoder S Metric) (readMetric code) := by
  unfold readMetric
  cases Metric.fromCode (UInt8.ofNat code) with
  | some metric => exact Agrees.pure metric
  | none => exact agrees_fail _

omit [GraphBytes S] [GraphBytes T] B in
theorem agrees_entryPoint (entryRaw n : Nat) :
    Agrees R (readEntryPoint entryRaw n : Decoder S (Option Nat)) (readEntryPoint entryRaw n) := by
  unfold readEntryPoint
  split
  · exact Agrees.pure none
  · split
    · exact Agrees.pure (some entryRaw)
    · exact agrees_fail _

omit [GraphBytes S] [GraphBytes T] B in
/-- The entry point is checked against the tables, not against the source. -/
theorem agrees_checkEntry (hdr : GraphHeader) (tables : NodeTables) :
    Agrees R (checkEntry hdr tables : Decoder S Unit) (checkEntry hdr tables) := by
  unfold checkEntry
  cases hdr.entryPoint with
  | some e =>
    refine (agrees_checked _).bind fun stop => (agrees_checked _).bind fun start => ?_
    exact agrees_require _ _
  | none => exact agrees_require _ _

variable [Arith]

/-- The header is read field by field, each with its check. -/
theorem agrees_header : Agrees R (readHeader : Decoder S GraphHeader) readHeader := by
  refine B.agrees_u32.bind fun magic => (agrees_require _ _).bind fun _ => ?_
  refine B.agrees_u16.bind fun version => (agrees_require _ _).bind fun _ => ?_
  refine B.agrees_u8.bind fun code => (agrees_metric code).bind fun metric => ?_
  refine B.agrees_u8.bind fun reserved => ?_
  refine B.agrees_readLen.bind fun m => (agrees_require _ _).bind fun _ => ?_
  refine B.agrees_u32.bind fun gamma => (agrees_require _ _).bind fun _ => ?_
  refine (agrees_require _ _).bind fun _ => ?_
  refine B.agrees_readLen.bind fun efConstruction => (agrees_require _ _).bind fun _ => ?_
  refine B.agrees_readLen.bind fun dim => (agrees_require _ _).bind fun _ => ?_
  refine B.agrees_readLen.bind fun maxLayer => (agrees_require _ _).bind fun _ => ?_
  refine B.agrees_u64.bind fun seed => B.agrees_u64.bind fun rng => ?_
  refine (agrees_require _ _).bind fun _ => ?_
  refine B.agrees_u64.bind fun entryRaw => B.agrees_readLen.bind fun n => ?_
  refine (agrees_entryPoint entryRaw n).bind fun entryPoint => ?_
  refine (agrees_require _ _).bind fun _ => (agrees_require _ _).bind fun _ => ?_
  exact Agrees.pure _

/-- **Decoding does not depend on the kind of source.** -/
theorem agrees_fromGraphBytes :
    Agrees R (Hnsw.fromGraphBytes : Decoder S Hnsw) Hnsw.fromGraphBytes := by
  refine B.agrees_header.bind fun hdr => ?_
  refine B.agrees_remaining.bind fun left => ?_
  refine (B.agrees_nodes hdr _ _ _).bind fun tables => ?_
  refine B.agrees_remaining.bind fun rest => (agrees_require _ _).bind fun _ => ?_
  exact (agrees_checkEntry hdr tables).bind fun _ => Agrees.pure _

end Bisimilar

end Brindle
