/-
# Brindle.Storage.PayloadSpec — a framed blob reads back as the index it was made of.

The framing is self-delimiting: each reader consumes exactly the bytes its writer appended. With the
codec of the graph underneath, an encoded index that loads comes back with its tables as they were
and with a twin of its graph.
-/
import Brindle.Hnsw.Transparent
import Brindle.Storage.ImageSpec
import Brindle.Storage.PageWalk

namespace Brindle

open Bytes (leBytes ofLe)
open Outcome (fail)
open PayloadReader (ofDecoder require)
open Reader (Reads)

/-! ## One reader after another -/

/-- What the graph's decoder reads, the payload's reader reads, with its own names for errors. -/
theorem reads_ofDecoder {α : Type} {f : HnswDecodeError → PayloadError}
    {d : Decoder (List UInt8) α} {bs rest : List UInt8} {a : α} (h : Reads d bs rest a) :
    Reads (ofDecoder f d) bs rest a := by
  unfold Reads at h ⊢
  exact Outcome.mapError_eq_ok.mpr h

theorem reads_payload_require {ok : Bool} (e : PayloadError) (bs : List UInt8) (hok : ok = true) :
    Reads (require ok e : PayloadReader (List UInt8) Unit) [] bs () := by
  subst hok
  rfl

theorem writeTid_length (tid : TidPair) : (writeTid tid).length = 6 := by
  simp [writeTid, Bytes.leBytes_length]

/-- A heap address is four bytes of block and two of offset. -/
theorem reads_tid (tid : TidPair) (rest : List UInt8) :
    Reads (readTid : PayloadReader (List UInt8) TidPair) (writeTid tid) rest tid := by
  have hblock : (writeTid tid).take 4 = leBytes 4 tid.1.toNat :=
    List.take_left' (Bytes.leBytes_length 4 _)
  have hoffset : (writeTid tid).drop 4 = leBytes 2 tid.2.toNat :=
    List.drop_left' (Bytes.leBytes_length 4 _)
  have hpair : (UInt32.ofNat (ofLe ((writeTid tid).take 4)),
      UInt16.ofNat (ofLe ((writeTid tid).drop 4))) = tid := by
    rw [hblock, hoffset, Bytes.ofLe_leBytes_of_lt (UInt32.toNat_lt _),
      Bytes.ofLe_leBytes_of_lt (UInt16.toNat_lt _), UInt32.ofNat_toNat, UInt16.ofNat_toNat]
  have h := (reads_ofDecoder (f := asTruncated)
    (reads_readExact (writeTid_length tid) rest)).bind_pure
    (f := fun entry => (UInt32.ofNat (ofLe (entry.take 4)), UInt16.ofNat (ofLe (entry.drop 4))))
  rw [hpair] at h
  exact h

/-- Entries one after another. -/
theorem reads_items {α : Type} {item : PayloadReader (List UInt8) α} {chunk : α → List UInt8}
    (xs : List α) (h : ∀ x ∈ xs, ∀ rest, Reads item (chunk x) rest x) (rest : List UInt8) :
    Reads (readItems xs.length item) (xs.flatMap chunk) rest xs := by
  induction xs with
  | nil => exact Reads.pure _ _
  | cons x xs ih =>
    rw [List.length_cons, readItems, List.flatMap_cons]
    apply (h x List.mem_cons_self _).bind
    exact (ih fun y hy => h y (List.mem_cons_of_mem _ hy)).bind_pure (f := fun ys => x :: ys)

/-- The count is checked against six bytes an entry. -/
theorem reads_tidTable {tids : List TidPair} (hcount : tids.length < 2 ^ 64) (rest : List UInt8) :
    Reads (readTidTable : PayloadReader (List UInt8) _) (appendTidTable tids) rest tids := by
  unfold readTidTable appendTidTable
  refine (reads_ofDecoder (reads_u64 hcount _)).bind ?_
  refine (reads_ofDecoder (reads_remaining _)).bind_nil ?_
  refine (reads_payload_require _ _ ?_).bind_nil ?_
  · have hlen := length_flatMap_ge tids fun tid _ => (writeTid_length tid).ge
    rw [decide_eq_true_eq, List.length_append, Nat.le_div_iff_mul_le (by decide)]
    omega
  · exact reads_items tids (fun tid _ => reads_tid tid) rest

/-- An entry of the side table takes at least fourteen bytes. -/
theorem unrankable_chunk_ge (row : UnrankableRow) :
    14 ≤ (writeTid row.1 ++ writeAttrRow row.2).length := by
  rw [List.length_append, writeTid_length, writeAttrRow, List.length_append, Bytes.leBytes_length]
  omega

/-- The count is checked against fourteen bytes an entry. -/
theorem reads_unrankable {rows : List UnrankableRow} (hcount : rows.length < 2 ^ 64)
    (hrows : ∀ row ∈ rows, row.2.length < 2 ^ 64) (rest : List UInt8) :
    Reads (readUnrankable : PayloadReader (List UInt8) _) (appendUnrankable rows) rest rows := by
  unfold readUnrankable appendUnrankable
  refine (reads_ofDecoder (reads_u64 hcount _)).bind ?_
  refine (reads_ofDecoder (reads_remaining _)).bind_nil ?_
  refine (reads_payload_require _ _ ?_).bind_nil ?_
  · have hlen := length_flatMap_ge rows fun row _ => unrankable_chunk_ge row
    rw [decide_eq_true_eq, List.length_append, Nat.le_div_iff_mul_le (by decide)]
    omega
  · refine reads_items rows (fun row hrow rest => ?_) rest
    unfold readUnrankableRow
    refine (reads_tid row.1 _).bind ?_
    exact (reads_ofDecoder (reads_attrRow (hrows row hrow) rest)).bind_pure
      (f := fun attrs => (row.1, attrs))

/-! ## The whole blob -/

theorem encodeIndex_ok {hnsw : Hnsw} {tids : List TidPair} {unrankable : List UnrankableRow}
    {blob : List UInt8} : encodeIndex hnsw tids unrankable = .ok blob ↔
      ∃ graph, hnsw.toBytes = .ok graph ∧
        blob = leBytes 8 graph.length ++ graph ++ appendTidTable tids ++
          appendUnrankable unrankable := by
  unfold encodeIndex
  rw [Outcome.bind_eq_ok]
  constructor
  · rintro ⟨graph, hgraph, hdone⟩
    cases hdone
    exact ⟨graph, hgraph, rfl⟩
  · rintro ⟨graph, hgraph, rfl⟩
    exact ⟨graph, hgraph, rfl⟩

/-- Every row of an index takes at least one byte of its encoding. -/
theorem encodeIndex_rows_le {hnsw : Hnsw} {tids : List TidPair} {unrankable : List UnrankableRow}
    {blob : List UInt8} (henc : encodeIndex hnsw tids unrankable = .ok blob) :
    tids.length + unrankable.length ≤ blob.length := by
  obtain ⟨graph, -, rfl⟩ := encodeIndex_ok.mp henc
  have htids := length_flatMap_ge tids fun tid _ => (writeTid_length tid).ge
  have hrows := length_flatMap_ge unrankable fun row _ => unrankable_chunk_ge row
  simp only [appendTidTable, appendUnrankable, List.length_append]
  omega

/-- The framing is undone exactly. -/
theorem decodeIndexPayload_encodeIndex {graph : List UInt8} {tids : List TidPair}
    {unrankable : List UnrankableRow} (hrows : ∀ row ∈ unrankable, row.2.length < 2 ^ 64)
    {blob : List UInt8} (hblob : blob = leBytes 8 graph.length ++ graph ++ appendTidTable tids ++
      appendUnrankable unrankable) (hlen : blob.length < 2 ^ 64) :
    decodeIndexPayload blob = .ok (graph, tids, unrankable) := by
  have htids := length_flatMap_ge tids fun tid _ => (writeTid_length tid).ge
  have hunr := length_flatMap_ge unrankable fun row _ => unrankable_chunk_ge row
  have htotal := congrArg List.length hblob
  simp only [appendTidTable, appendUnrankable, List.length_append] at htotal
  have hgraphLen : Reads (readGraphLen : PayloadReader (List UInt8) Nat)
      (leBytes 8 graph.length) (graph ++ (appendTidTable tids ++ appendUnrankable unrankable))
      graph.length := by
    have hread : Reads (readGraphLen : PayloadReader (List UInt8) Nat)
        (leBytes 8 graph.length ++ []) (graph ++ (appendTidTable tids ++ appendUnrankable unrankable))
        graph.length := by
      unfold readGraphLen
      refine (reads_ofDecoder (reads_u64 (by omega) _)).bind ?_
      refine (reads_ofDecoder (reads_remaining _)).bind_nil ?_
      refine (reads_payload_require _ _ ?_).bind_nil (Reads.pure _ _)
      rw [decide_eq_true_eq, List.nil_append, List.length_append]
      omega
    rwa [List.append_nil] at hread
  have hbytes : blob = leBytes 8 graph.length ++
      (graph ++ (appendTidTable tids ++ appendUnrankable unrankable)) := by
    rw [hblob]
    simp only [List.append_assoc]
  unfold Reads at hgraphLen
  rw [← hbytes] at hgraphLen
  refine decodeIndexPayload_ok.mpr ⟨graph.length, _, appendUnrankable unrankable, hgraphLen, ?_,
    List.take_left.symm, ?_, ?_⟩
  · rw [List.length_append]
    omega
  · rw [List.drop_left]
    exact reads_tidTable (by omega) _
  · have hread := reads_unrankable (by omega) hrows []
    unfold Reads at hread
    rwa [List.append_nil] at hread

variable [Arith]

namespace Hnsw

theorem Twins.encodeIndex_eq {h g : Hnsw} (T : Twins h g) (K : Kept h) (tids : List TidPair)
    (unrankable : List UnrankableRow) :
    encodeIndex g tids unrankable = encodeIndex h tids unrankable := by
  unfold encodeIndex
  rw [T.toBytes_eq K.1.toLayout]

/-- **An encoded index that loads** comes back with its tables and a twin of its graph. -/
theorem Kept.loadSlice {h : Hnsw} (K : Kept h) {tids : List TidPair}
    {unrankable : List UnrankableRow} (hrows : ∀ row ∈ unrankable, row.2.length < 2 ^ 64)
    {blob : List UInt8} (henc : encodeIndex h tids unrankable = .ok blob)
    (hlen : blob.length < 2 ^ 64) {arity : Nat} {generation : UInt64} {image : Image}
    (hload : Brindle.loadSlice arity generation blob = .ok image) :
    Twins h image.hnsw ∧ image = ⟨image.hnsw, tids, unrankable, generation⟩ := by
  obtain ⟨graph, hgraph, hblob⟩ := encodeIndex_ok.mp henc
  obtain ⟨graph', hnsw, tids', unrankable', hpayload, hdecode, himage⟩ := loadSlice_ok.mp hload
  cases (decodeIndexPayload_encodeIndex hrows hblob hlen).symm.trans hpayload
  obtain ⟨bytes, hbytes, -, hmirror⟩ := decode_encode K.1 K.2
  cases hgraph.symm.trans hbytes
  have hread : Hnsw.fromBytes graph = .ok hnsw := by
    unfold Hnsw.fromBytes
    rw [hdecode]
    rfl
  cases (load_eq himage).1
  refine ⟨?_, rfl⟩
  rw [show hnsw = h.mirrored from hmirror hnsw hread]
  exact relinked_mirrored K.1 K.2

end Hnsw

end Brindle
