/-
# Brindle.Hnsw.Untrusted — the graph decoder on arbitrary bytes.

Every header field is chosen by whoever wrote the bytes, and several of them are used as offsets long
after they were read. `Tabled` is what the node loop keeps of the flat arrays for that to be harmless:
the layer offsets rise, the last of them is the number of counts stored, and a node's slots are there
before any link is written. From any source that keeps the contract of `GraphBytes`, the decoder then
returns a graph or reports an error.

`ByteReader` is the source `from_bytes` decodes from, with its cursor and its checked sum.
-/
import Brindle.Hnsw.CodecSpec
import Brindle.Lib.Usize

namespace Brindle

open Outcome (Safe index overwrite slice)
open Reader (Handles)
open Decoder

/-- What the decoder relies on in a source: a read returns as many bytes as were asked for or reports
an error, and never leaves more than there was. -/
class LawfulBytes (S : Type) [GraphBytes S] : Prop where
  handles_readExact : ∀ k, Handles GraphBytes.remaining
    (Decoder.readExact k : Decoder S (List UInt8)) fun bs => bs.length = k

/-! ## Two sources -/

instance : LawfulBytes (List UInt8) where
  handles_readExact k := by
    refine ⟨fun s => ?_, fun s bs s' h => ?_⟩
    · show Safe (if k > s.length then Outcome.fail HnswDecodeError.truncated
        else .ok (s.take k, s.drop k))
      split_ifs
      · exact Outcome.safe_fail _
      · exact Outcome.safe_pure _
    · have hread : (if k > s.length then Outcome.fail HnswDecodeError.truncated
        else .ok (s.take k, s.drop k)) = .ok (bs, s') := h
      split_ifs at hread with hk
      · cases hread
      · cases hread
        refine ⟨?_, ?_⟩
        · rw [List.length_take]
          omega
        · show (s.drop k).length ≤ s.length
          rw [List.length_drop]
          exact Nat.sub_le _ _

/-- Bounds-checked reader over a buffer, from a position inside it. -/
structure ByteReader where
  buf : List UInt8
  pos : Nat
  pos_le : pos ≤ buf.length

namespace ByteReader

def new (buf : List UInt8) : ByteReader := ⟨buf, 0, Nat.zero_le _⟩

/-- The next `n` bytes. The end of the run is a sum that must neither wrap nor leave the buffer. -/
def take (n : Nat) (r : ByteReader) : Outcome HnswDecodeError (List UInt8 × ByteReader) :=
  if h : r.pos + n < Usize.words ∧ r.pos + n ≤ r.buf.length then do
    return (← slice r.buf r.pos n, { r with pos := r.pos + n, pos_le := h.2 })
  else Outcome.fail .truncated

theorem take_ok {n : Nat} {r : ByteReader} (h : r.pos + n < Usize.words ∧ r.pos + n ≤ r.buf.length) :
    r.take n = .ok ((r.buf.drop r.pos).take n, { r with pos := r.pos + n, pos_le := h.2 }) := by
  unfold take
  rw [dif_pos h, Outcome.slice_ok h.2]
  rfl

end ByteReader

instance : GraphBytes ByteReader where
  readExact k r := r.take k
  remaining r := r.buf.length - r.pos

instance : LawfulBytes ByteReader where
  handles_readExact k := by
    refine ⟨fun r => ?_, fun r bs r' h => ?_⟩
    · show Safe (r.take k)
      by_cases hfits : r.pos + k < Usize.words ∧ r.pos + k ≤ r.buf.length
      · rw [ByteReader.take_ok hfits]
        exact Outcome.safe_pure _
      · unfold ByteReader.take
        rw [dif_neg hfits]
        exact Outcome.safe_fail _
    · have hread : r.take k = .ok (bs, r') := h
      by_cases hfits : r.pos + k < Usize.words ∧ r.pos + k ≤ r.buf.length
      · rw [ByteReader.take_ok hfits] at hread
        cases hread
        refine ⟨?_, ?_⟩
        · rw [List.length_take, List.length_drop]
          omega
        · show r.buf.length - (r.pos + k) ≤ r.buf.length - r.pos
          omega
      · unfold ByteReader.take at hread
        rw [dif_neg hfits] at hread
        cases hread

section Parts

variable {S : Type} [GraphBytes S]

/-! ## Steps -/

theorem handles_fail {α : Type} (e : HnswDecodeError) (Q : α → Prop) :
    Handles GraphBytes.remaining (Decoder.fail e : Decoder S α) Q where
  safe _ := Outcome.safe_fail e
  post _ _ _ h := nomatch h

theorem handles_require (ok : Bool) (e : HnswDecodeError) :
    Handles GraphBytes.remaining (require ok e : Decoder S Unit) fun _ => ok = true := by
  cases ok with
  | true => exact Handles.pure rfl
  | false => exact handles_fail e _

theorem handles_remaining :
    Handles GraphBytes.remaining (Decoder.remaining : Decoder S Nat) fun _ => True where
  safe _ := Outcome.safe_pure _
  post s a s' h := by
    cases h
    exact ⟨trivial, le_rfl⟩

theorem handles_checked {α : Type} {x : Outcome HnswDecodeError α} {a : α} (hx : x = .ok a) :
    Handles GraphBytes.remaining (checked x : Decoder S α) fun b => b = a := by
  subst hx
  exact Handles.pure rfl

variable [LawfulBytes S]

theorem handles_readExact (k : Nat) : Handles GraphBytes.remaining
    (Decoder.readExact k : Decoder S (List UInt8)) fun bs => bs.length = k :=
  LawfulBytes.handles_readExact k

theorem handles_readLe (k : Nat) :
    Handles GraphBytes.remaining (readLe k : Decoder S Nat) (· < 256 ^ k) := by
  apply (handles_readExact k).bind
  intro bs hbs
  apply Handles.pure
  rw [← hbs]
  exact Bytes.ofLe_lt bs

theorem handles_readLen :
    Handles GraphBytes.remaining (readLen : Decoder S Nat) (· < 256 ^ 8) := handles_readLe 8

omit [LawfulBytes S] in
theorem handles_times {α : Type} {d : Decoder S α} {Q : α → Prop}
    (h : Handles GraphBytes.remaining d Q) (k : Nat) :
    Handles GraphBytes.remaining (times k d) fun xs => xs.length = k ∧ ∀ x ∈ xs, Q x := by
  induction k with
  | zero => exact Handles.pure ⟨rfl, nofun⟩
  | succ k ih =>
    apply h.bind
    intro x hx
    apply ih.bind
    rintro xs ⟨hlen, hxs⟩
    apply Handles.pure
    refine ⟨congrArg (· + 1) hlen, ?_⟩
    simpa [hx] using hxs

/-! ## The parts of a node -/

theorem handles_attrValue :
    Handles GraphBytes.remaining (readAttrValue : Decoder S AttrValue) fun _ => True := by
  apply (handles_readLe 1).bind
  intro tag _
  match tag with
  | 0 => exact Handles.pure trivial
  | 1 => exact (handles_readLe 8).bind fun _ _ => Handles.pure trivial
  | 2 => exact (handles_readLe 8).bind fun _ _ => Handles.pure trivial
  | _ + 3 => exact handles_fail _ _

theorem handles_attrRow :
    Handles GraphBytes.remaining (readAttrRow : Decoder S (List AttrValue)) fun _ => True := by
  apply handles_readLen.bind
  intro count _
  apply handles_remaining.bind
  intro left _
  apply (handles_require _ _).bind
  intro _ _
  exact (handles_times handles_attrValue count).mono fun _ _ => trivial

theorem handles_tombstone :
    Handles GraphBytes.remaining (readTombstone : Decoder S Bool) fun _ => True := by
  apply (handles_readLe 1).bind
  intro flag _
  match flag with
  | 0 => exact Handles.pure trivial
  | 1 => exact Handles.pure trivial
  | _ + 2 => exact handles_fail _ _

theorem handles_neighborList (cap n : Nat) :
    Handles GraphBytes.remaining (readNeighborList cap n : Decoder S (List Nat))
      fun ids => ids.length ≤ cap := by
  apply handles_readLen.bind
  intro count _
  apply (handles_require _ _).bind
  intro _ hcap
  apply handles_remaining.bind
  intro left _
  apply (handles_require _ _).bind
  intro _ _
  have hitem : Handles GraphBytes.remaining (readNeighbor n : Decoder S Nat) fun _ => True := by
    apply handles_readLen.bind
    intro id _
    apply (handles_require _ _).bind
    intro _ _
    exact Handles.pure trivial
  refine (handles_times hitem count).mono fun ids hids => ?_
  rw [hids.1]
  exact of_decide_eq_true hcap

/-- Slots a node of `levels` layers reserves. -/
def nodeSlots (hdr : GraphHeader) (levels : Nat) : Nat :=
  hdr.derived.m0Cap + 1 + (levels - 1) * (hdr.derived.mCap + 1)

/-- Where the slots of a layer start within a node's, and that a list within its cap fits. -/
theorem within_fits (hdr : GraphHeader) {levels layer count : Nat} (hlayer : layer < levels)
    (hcount : count ≤ if layer = 0 then hdr.derived.m0Cap else hdr.derived.mCap) :
    (if layer = 0 then 0 else hdr.derived.m0Cap + 1 + (layer - 1) * (hdr.derived.mCap + 1)) + count
      ≤ nodeSlots hdr levels := by
  unfold nodeSlots
  split_ifs at hcount ⊢ with hzero
  · omega
  · have hmul : (layer - 1 + 1) * (hdr.derived.mCap + 1) ≤ (levels - 1) * (hdr.derived.mCap + 1) :=
      Nat.mul_le_mul_right _ (by omega)
    rw [Nat.add_one_mul] at hmul
    omega

/-- One layer of a node: the list is written into slots that are there. -/
theorem handles_layer (hdr : GraphHeader) {nodeStart levels layer : Nat} (hlayer : layer < levels)
    {links : List Nat} (counts : List Nat)
    (hlinks : links.length = nodeStart + nodeSlots hdr levels) :
    Handles GraphBytes.remaining (do
      let ids ← readNeighborList (if layer = 0 then hdr.derived.m0Cap else hdr.derived.mCap) hdr.n
      let within :=
        if layer = 0 then 0 else hdr.derived.m0Cap + 1 + (layer - 1) * (hdr.derived.mCap + 1)
      let links ← checked (overwrite links (nodeStart + within) (ids.map asU32))
      return (links, counts ++ [asU32 ids.length]) : Decoder S (List Nat × List Nat)) fun r =>
        r.1.length = links.length ∧ r.2.length = counts.length + 1 := by
  apply (handles_neighborList _ hdr.n).bind
  intro ids hids
  have hfits := within_fits hdr hlayer hids
  have hok : (overwrite links (nodeStart + if layer = 0 then 0 else
      hdr.derived.m0Cap + 1 + (layer - 1) * (hdr.derived.mCap + 1)) (ids.map asU32) :
      Outcome HnswDecodeError (List Nat)) = .ok _ :=
    if_pos (by rw [List.length_map, hlinks]; omega)
  apply (handles_checked hok).bind
  rintro links' rfl
  apply Handles.pure
  refine ⟨?_, by simp⟩
  simp only [List.length_append, List.length_take, List.length_drop, List.length_map]
  omega

/-- The layers of one node. -/
theorem handles_layers (hdr : GraphHeader) {nodeStart levels : Nat} {links : List Nat}
    (counts : List Nat) (hlinks : links.length = nodeStart + nodeSlots hdr levels) :
    Handles GraphBytes.remaining
      (readLayers hdr nodeStart levels links counts : Decoder S (List Nat × List Nat)) fun r =>
        r.1.length = links.length ∧ r.2.length = counts.length + levels := by
  refine (Handles.foldlM (fun done (r : List Nat × List Nat) =>
    r.1.length = links.length ∧ r.2.length = counts.length + done.length) (List.range levels) ?_
    ⟨rfl, rfl⟩).mono fun r hr => ?_
  · rintro done layer rest ⟨links', counts'⟩ hsplit ⟨hlen, hlen'⟩
    have hlayer : layer < levels := by
      rw [← List.mem_range, hsplit]
      simp
    refine (handles_layer hdr hlayer counts' (hlen.trans hlinks)).mono fun r hr => ?_
    refine ⟨hr.1.trans hlen, ?_⟩
    rw [hr.2, hlen', List.length_append]
    rfl
  · rw [List.length_range] at hr
    exact hr

/-- What the node loop keeps of the flat arrays: after `k` nodes there are `k + 1` rising offsets, the
last of them counts what is stored, and the slots are under the ceiling. -/
structure Tabled (ceiling : Nat) (tables : NodeTables) (k : Nat) : Prop where
  base_len : tables.layerBase.length = k + 1
  base_lt : tables.layerBase.Pairwise (· < ·)
  base_le : ∀ b ∈ tables.layerBase, b ≤ tables.linkCounts.length
  fits : tables.linkCounts.length < 2 ^ 32
  links_le : tables.links.length ≤ ceiling

omit [GraphBytes S] [LawfulBytes S] in
theorem Tabled.nil (ceiling : Nat) : Tabled ceiling {} 0 where
  base_len := rfl
  base_lt := List.pairwise_singleton _ _
  base_le := by simp
  fits := Nat.two_pow_pos 32
  links_le := Nat.zero_le _

/-- One node more. -/
theorem Tabled.readNode {hdr : GraphHeader} {ceiling : Nat} {tables : NodeTables} {k : Nat}
    (T : Tabled ceiling tables k) :
    Handles GraphBytes.remaining (readNode hdr ceiling tables : Decoder S NodeTables)
      fun tables' => Tabled ceiling tables' (k + 1) := by
  apply handles_tombstone.bind
  intro deleted _
  apply handles_readLen.bind
  intro levels _
  apply (handles_require _ _).bind
  intro _ hpos
  apply (handles_require _ _).bind
  intro _ _
  apply (handles_readExact _).bind
  intro bytes _
  apply handles_remaining.bind
  intro left _
  apply (handles_require _ _).bind
  intro _ _
  apply (handles_require _ _).bind
  intro _ hfits
  apply (handles_require _ _).bind
  intro _ hceiling
  have hlinks : (tables.links ++ List.replicate (nodeSlots hdr levels) 0).length =
      tables.links.length + nodeSlots hdr levels := by
    rw [List.length_append, List.length_replicate]
  apply (handles_layers hdr tables.linkCounts hlinks).bind
  rintro ⟨links, counts⟩ ⟨hlinks', hcounts⟩
  apply handles_attrRow.bind
  intro attrs _
  apply Handles.pure
  have hfits' : tables.linkCounts.length + levels < 2 ^ 32 := of_decide_eq_true hfits
  have hceiling' : tables.links.length + nodeSlots hdr levels ≤ ceiling := of_decide_eq_true hceiling
  have hpos' : levels ≠ 0 := of_decide_eq_true hpos
  dsimp only at hlinks' hcounts
  -- the new offset is the count of links before it and the layers of the node
  refine ⟨?_, ?_, fun b hb => ?_, ?_, ?_⟩
  · rw [List.length_append, T.base_len]
    rfl
  · refine List.pairwise_append.mpr ⟨T.base_lt, List.pairwise_singleton _ _, fun b hb c hc => ?_⟩
    rw [List.mem_singleton.mp hc]
    have hle := T.base_le b hb
    omega
  · show b ≤ counts.length
    rw [hcounts]
    rcases List.mem_append.mp hb with hb | hb
    · exact (T.base_le b hb).trans (Nat.le_add_right _ _)
    · exact (List.mem_singleton.mp hb).le
  · show counts.length < 2 ^ 32
    rw [hcounts]
    exact hfits'
  · show links.length ≤ ceiling
    rw [hlinks', hlinks]
    exact hceiling'

theorem Tabled.readNodes {hdr : GraphHeader} {ceiling : Nat} (count : Nat) {tables : NodeTables}
    {k : Nat} (T : Tabled ceiling tables k) :
    Handles GraphBytes.remaining (readNodes hdr ceiling count tables : Decoder S NodeTables)
      fun tables' => Tabled ceiling tables' (k + count) := by
  induction count generalizing tables k with
  | zero => exact Handles.pure T
  | succ count ih =>
    apply T.readNode.bind
    intro tables' T'
    have h := ih T'
    rwa [show k + 1 + count = k + (count + 1) by omega] at h

omit [GraphBytes S] [LawfulBytes S] in
/-- The offsets around a stored node, and that the later one is the larger. -/
theorem Tabled.offsets {ceiling : Nat} {tables : NodeTables} {n e : Nat} (T : Tabled ceiling tables n)
    (he : e < n) : ∃ start stop,
      (index tables.layerBase (e + 1) : Outcome HnswDecodeError Nat) = .ok stop ∧
        (index tables.layerBase e : Outcome HnswDecodeError Nat) = .ok start ∧ start < stop := by
  have hstop : e + 1 < tables.layerBase.length := by
    rw [T.base_len]
    omega
  have hstart : e < tables.layerBase.length := by omega
  refine ⟨tables.layerBase[e], tables.layerBase[e + 1],
    Outcome.index_ok (List.getElem?_eq_getElem hstop),
    Outcome.index_ok (List.getElem?_eq_getElem hstart), ?_⟩
  exact List.pairwise_iff_getElem.mp T.base_lt e (e + 1) hstart hstop (Nat.lt_succ_self e)

omit [LawfulBytes S] in
theorem Tabled.checkEntry {hdr : GraphHeader} {ceiling : Nat} {tables : NodeTables}
    (T : Tabled ceiling tables hdr.n) (hentry : ∀ e, hdr.entryPoint = some e → e < hdr.n) :
    Handles GraphBytes.remaining (checkEntry hdr tables : Decoder S Unit) fun _ => True := by
  unfold Brindle.checkEntry
  cases he : hdr.entryPoint with
  | none => exact (handles_require _ _).mono fun _ _ => trivial
  | some e =>
    obtain ⟨start, stop, hstop, hstart, -⟩ := T.offsets (hentry e he)
    dsimp only
    apply (handles_checked hstop).bind
    rintro stop' rfl
    apply (handles_checked hstart).bind
    rintro start' rfl
    exact (handles_require _ _).mono fun _ _ => trivial

/-! ## The graph -/

omit [LawfulBytes S] in
theorem handles_metric (code : Nat) :
    Handles GraphBytes.remaining (readMetric code : Decoder S Metric) fun _ => True := by
  unfold readMetric
  cases Metric.fromCode (UInt8.ofNat code) with
  | some metric => exact Handles.pure trivial
  | none => exact handles_fail _ _

omit [LawfulBytes S] in
theorem handles_entryPoint (entryRaw n : Nat) :
    Handles GraphBytes.remaining (readEntryPoint entryRaw n : Decoder S (Option Nat))
      fun entry => ∀ e, entry = some e → e < n := by
  unfold readEntryPoint
  split_ifs with hnone hlt
  · exact Handles.pure nofun
  · apply Handles.pure
    rintro e ⟨⟩
    exact hlt
  · exact handles_fail _ _

/-- What the header's checks leave to the sizes computed from it. -/
structure HeaderBounds [Arith] (hdr : GraphHeader) : Prop where
  m_le : hdr.m ≤ HnswParams.maxM
  derived_eq : hdr.derived = Hnsw.derivedParams hdr.m hdr.gamma
  m0Cap_le : hdr.derived.m0Cap ≤ HnswParams.maxLayer0Degree
  dim_le : hdr.dim ≤ HnswParams.maxDim
  top_le : hdr.maxLayer ≤ HnswParams.maxLayer
  n_word : hdr.n < Usize.words
  entry_lt : ∀ e, hdr.entryPoint = some e → e < hdr.n

variable [Arith]

theorem handles_header :
    Handles GraphBytes.remaining (readHeader : Decoder S GraphHeader) HeaderBounds := by
  refine (handles_readLe 4).bind fun magic _ => (handles_require _ _).bind fun _ _ => ?_
  refine (handles_readLe 2).bind fun version _ => (handles_require _ _).bind fun _ _ => ?_
  refine (handles_readLe 1).bind fun code _ => (handles_metric code).bind fun metric _ => ?_
  refine (handles_readLe 1).bind fun reserved _ => ?_
  refine handles_readLen.bind fun m _ => (handles_require _ _).bind fun _ hm => ?_
  refine (handles_readLe 4).bind fun gamma _ => (handles_require _ _).bind fun _ _ => ?_
  refine (handles_require _ _).bind fun _ hcap => ?_
  refine handles_readLen.bind fun efConstruction _ => (handles_require _ _).bind fun _ _ => ?_
  refine handles_readLen.bind fun dim _ => (handles_require _ _).bind fun _ hdim => ?_
  refine handles_readLen.bind fun maxLayer _ => (handles_require _ _).bind fun _ htop => ?_
  refine (handles_readLe 8).bind fun seed _ => (handles_readLe 8).bind fun rng _ => ?_
  refine (handles_require _ _).bind fun _ _ => ?_
  refine (handles_readLe 8).bind fun entryRaw _ => handles_readLen.bind fun n hn => ?_
  refine (handles_entryPoint entryRaw n).bind fun entryPoint hentry => ?_
  refine (handles_require _ _).bind fun _ _ => (handles_require _ _).bind fun _ _ => ?_
  apply Handles.pure
  rw [Bool.and_eq_true, decide_eq_true_eq, decide_eq_true_eq] at hm
  exact ⟨hm.2, rfl, of_decide_eq_true hcap, of_decide_eq_true hdim, of_decide_eq_true htop,
    hn, hentry⟩

/-- **The decoder on untrusted bytes**: a graph or an error, from any source. -/
theorem handles_graph :
    Handles GraphBytes.remaining (Hnsw.fromGraphBytes : Decoder S Hnsw) fun _ => True := by
  apply handles_header.bind
  intro hdr H
  apply handles_remaining.bind
  intro left _
  apply ((Tabled.nil _).readNodes hdr.n).bind
  intro tables T
  rw [Nat.zero_add] at T
  apply handles_remaining.bind
  intro left' _
  apply (handles_require _ _).bind
  intro _ _
  apply (T.checkEntry H.entry_lt).bind
  intro _ _
  exact Handles.pure trivial

end Parts

theorem fromBytes_safe [Arith] (bytes : List UInt8) : Safe (Hnsw.fromBytes bytes) := by
  have hgraph := (handles_graph (S := List UInt8)).safe bytes
  unfold Hnsw.fromBytes
  cases hrun : Hnsw.fromGraphBytes (S := List UInt8) bytes with
  | ok r => exact Outcome.safe_pure _
  | error fault =>
    intro fault' hfault
    cases hfault
    exact hgraph fault hrun

end Brindle
