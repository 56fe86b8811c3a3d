/-
# Brindle.Hnsw.Generator — the generator's state over any history of a graph.

Zero is the one state `xorshift64` never leaves, and the decoder refuses it. `new` puts another seed
in its place, every later state is the successor of one that is not zero, and a decoded state has
been checked: so no graph the index ever holds has it, and no bytes it ever wrote are refused for it.
Nothing here asks the graph to be laid out, or its layers to be counted without wrapping.
-/
import Brindle.Hnsw.Configured
import Brindle.Hnsw.Frame
import Brindle.Hnsw.Oblivious

namespace Brindle

open Bytes (leBytes ofLe)
open Outcome (panicked)
open Run (run After after_iff after_true after_foldlM_const after_run along_of_forall)
open Reader (Reads Yields Avoids)
open Decoder

/-! ## The refusal -/

/-- What the decoder says of a zero state. -/
def zeroState : HnswDecodeError := .invalid "PRNG state must be nonzero"

/-- The decoder says it of no source whatever. -/
def NeverZeroState {α : Type} (d : Decoder (List UInt8) α) : Prop := ∀ s, Avoids zeroState d s

theorem reads_readLe_any (k n : Nat) (rest : List UInt8) :
    Reads (readLe k : Decoder (List UInt8) Nat) (leBytes k n) rest (ofLe (leBytes k n)) :=
  (reads_readExact (Bytes.leBytes_length k n) rest).bind_pure (f := ofLe)

namespace NeverZeroState

theorem pure {α : Type} (a : α) : NeverZeroState (Pure.pure a) := Avoids.pure a

theorem bind {α β : Type} {d : Decoder (List UInt8) α} {f : α → Decoder (List UInt8) β}
    (hd : NeverZeroState d) (hf : ∀ a, NeverZeroState (f a)) : NeverZeroState (d >>= f) :=
  fun s => (hd s).bind fun a s' _ => hf a s'

theorem fail {α : Type} {e : HnswDecodeError} (he : e ≠ zeroState) :
    NeverZeroState (Decoder.fail e : Decoder (List UInt8) α) := by
  intro s heq
  exact he (Outcome.Fault.error.inj (Except.error.inj heq))

theorem require {ok : Bool} {e : HnswDecodeError} (he : e ≠ zeroState) :
    NeverZeroState (Decoder.require ok e) := by
  cases ok with
  | true => exact pure ()
  | false => exact fail he

/-- A check with another complaint. -/
theorem bind_require {α : Type} {ok : Bool} {e : HnswDecodeError} (he : e ≠ zeroState)
    {f : Unit → Decoder (List UInt8) α} {s : List UInt8} (hf : Avoids zeroState (f ()) s) :
    Avoids zeroState (Decoder.require ok e >>= f) s := by
  refine (require he s).bind fun u s' hs => ?_
  cases ok <;> cases hs
  exact hf

theorem readExact (k : Nat) : NeverZeroState (Decoder.readExact k) := by
  intro s
  show (if k > s.length then Outcome.fail HnswDecodeError.truncated else .ok (s.take k, s.drop k)) ≠ _
  split_ifs
  · simp [Outcome.fail, zeroState]
  · intro h
    cases h

theorem readLe (k : Nat) : NeverZeroState (Decoder.readLe k) := (readExact k).bind fun _ => pure _

theorem remaining : NeverZeroState Decoder.remaining := fun _ => nofun

theorem times {α : Type} {item : Decoder (List UInt8) α} (h : NeverZeroState item) (k : Nat) :
    NeverZeroState (Decoder.times k item) := by
  induction k with
  | zero => exact pure []
  | succ k ih => exact h.bind fun x => ih.bind fun xs => pure (x :: xs)

/-- A computation that hands back no error. -/
theorem checked {α : Type} {x : Outcome HnswDecodeError α} (hx : x ≠ Outcome.fail zeroState) :
    NeverZeroState (Decoder.checked x) := by
  intro s heq
  unfold Decoder.checked at heq
  cases x with
  | ok a => cases heq
  | error fault => exact hx (congrArg Except.error (Except.error.inj heq))

end NeverZeroState

open NeverZeroState (readLe bind_require)

theorem neverZeroState_attrValue : NeverZeroState readAttrValue := by
  unfold readAttrValue
  refine (readLe 1).bind fun tag => ?_
  split
  · exact .pure _
  · exact (readLe 8).bind fun _ => .pure _
  · exact (readLe 8).bind fun _ => .pure _
  · exact .fail (by decide)

theorem neverZeroState_neighborList (cap n : Nat) : NeverZeroState (readNeighborList cap n) := by
  have hneighbor : NeverZeroState (readNeighbor n) :=
    (readLe 8).bind fun _ => (NeverZeroState.require (by decide)).bind fun _ => .pure _
  unfold readNeighborList
  refine (readLe 8).bind fun count => (NeverZeroState.require (by decide)).bind fun _ => ?_
  refine NeverZeroState.remaining.bind fun _ => (NeverZeroState.require (by decide)).bind fun _ => ?_
  exact hneighbor.times count

theorem neverZeroState_layers (hdr : GraphHeader) (nodeStart levels : Nat)
    (links linkCounts : List Nat) :
    NeverZeroState (readLayers hdr nodeStart levels links linkCounts) := by
  unfold readLayers
  refine Avoids.foldlM ?_ (List.range levels) (links, linkCounts)
  rintro ⟨links, linkCounts⟩ layer
  refine (neverZeroState_neighborList _ hdr.n).bind fun ids => ?_
  refine (NeverZeroState.checked ?_).bind fun _ => .pure _
  unfold Outcome.overwrite
  split_ifs <;> exact nofun

theorem neverZeroState_node (hdr : GraphHeader) (ceiling : Nat) (tables : NodeTables) :
    NeverZeroState (readNode hdr ceiling tables) := by
  have htombstone : NeverZeroState readTombstone := by
    unfold readTombstone
    refine (readLe 1).bind fun flag => ?_
    split
    · exact .pure _
    · exact .pure _
    · exact .fail (by decide)
  have hrow : NeverZeroState readAttrRow :=
    (readLe 8).bind fun count => NeverZeroState.remaining.bind fun _ =>
      (NeverZeroState.require (by decide)).bind fun _ => neverZeroState_attrValue.times count
  unfold readNode
  refine htombstone.bind fun _ => (readLe 8).bind fun levels => ?_
  refine (NeverZeroState.require (by decide)).bind fun _ => ?_
  refine (NeverZeroState.require (by decide)).bind fun _ => ?_
  refine (NeverZeroState.readExact _).bind fun _ => NeverZeroState.remaining.bind fun _ => ?_
  refine (NeverZeroState.require (by decide)).bind fun _ => ?_
  refine (NeverZeroState.require (by decide)).bind fun _ => ?_
  refine (NeverZeroState.require (by decide)).bind fun _ => ?_
  exact (neverZeroState_layers hdr _ levels _ _).bind fun _ => hrow.bind fun _ => .pure _

theorem neverZeroState_nodes (hdr : GraphHeader) (ceiling count : Nat) (tables : NodeTables) :
    NeverZeroState (readNodes hdr ceiling count tables) := by
  induction count generalizing tables with
  | zero => exact .pure tables
  | succ count ih => exact (neverZeroState_node hdr ceiling tables).bind fun tables => ih tables

namespace Hnsw

variable [Arith]

/-- Behind a header whose two words are not zero the decoder does not speak of a zero state. -/
theorem avoids_header {h : Hnsw} (hseed : h.seed ≠ 0) (hrng : h.rng ≠ 0) (rest : List UInt8) :
    Avoids zeroState (Hnsw.fromGraphBytes : Decoder (List UInt8) Hnsw) (h.writeHeader ++ rest) := by
  have hwords : (decide (h.seed ≠ 0) && decide (h.rng ≠ 0)) = true := by
    simp only [hseed, hrng, ne_eq, not_false_eq_true, decide_true, Bool.and_self]
  unfold Hnsw.fromGraphBytes
  refine Avoids.bind ?_ fun hdr s _ => ?_
  · unfold readHeader writeHeader
    simp only [List.append_assoc, List.cons_append, List.nil_append]
    refine .reads (reads_u32 (by decide) _) (bind_require (by decide) ?_)
    refine .reads (reads_u16 (by decide) _) (bind_require (by decide) ?_)
    refine .reads_cons (reads_u8 _ _) ?_
    refine .reads_nil (reads_metric _ _) ?_
    refine .reads_cons (reads_u8 _ _) ?_
    refine .reads (reads_readLe_any 8 _ _) (bind_require (by decide) ?_)
    refine .reads (reads_readLe_any 4 _ _) (bind_require (by decide) ?_)
    refine bind_require (by decide) ?_
    refine .reads (reads_readLe_any 8 _ _) (bind_require (by decide) ?_)
    refine .reads (reads_readLe_any 8 _ _) (bind_require (by decide) ?_)
    refine .reads (reads_readLe_any 8 _ _) (bind_require (by decide) ?_)
    refine .reads (reads_u64 h.seed.toNat_lt _) (.reads (reads_u64 h.rng.toNat_lt _) ?_)
    rw [UInt64.ofNat_toNat, UInt64.ofNat_toNat]
    -- the check in question; what follows it has other complaints
    refine .reads_nil (reads_require _ _ hwords) ?_
    refine (?_ : NeverZeroState _) _
    refine (readLe 8).bind fun entryRaw => (readLe 8).bind fun n => ?_
    refine NeverZeroState.bind ?_ fun entryPoint => ?_
    · unfold readEntryPoint
      split_ifs
      · exact .pure _
      · exact .pure _
      · exact .fail (by decide)
    · refine (NeverZeroState.require (by decide)).bind fun _ => ?_
      exact (NeverZeroState.require (by decide)).bind fun _ => .pure _
  · have hentry : ∀ tables, NeverZeroState (checkEntry hdr tables) := by
      intro tables
      have hindex : ∀ i, (Outcome.index tables.layerBase i : Outcome HnswDecodeError Nat) ≠
          Outcome.fail zeroState := by
        intro i
        unfold Outcome.index
        split <;> exact nofun
      unfold checkEntry
      cases hdr.entryPoint with
      | none => exact .require (by decide)
      | some e =>
        refine (NeverZeroState.checked (hindex _)).bind fun _ => ?_
        exact (NeverZeroState.checked (hindex _)).bind fun _ => .require (by decide)
    refine (?_ : NeverZeroState _) s
    refine NeverZeroState.remaining.bind fun _ => ?_
    refine (neverZeroState_nodes hdr _ hdr.n {}).bind fun tables => ?_
    refine NeverZeroState.remaining.bind fun _ => (NeverZeroState.require (by decide)).bind fun _ => ?_
    exact (hentry tables).bind fun _ => .pure (assemble hdr tables)

/-! ## The graph's own operations -/

/-- Neither the seed nor the generator's state is zero. -/
def Nonzero (h : Hnsw) : Prop := h.seed ≠ 0 ∧ h.rng ≠ 0

theorem nonzero_new (params : HnswParams) : Nonzero (Hnsw.new params) := by
  have hseed : (if params.seed = 0 then defaultSeed else params.seed) ≠ 0 := by
    split_ifs with hz
    · decide
    · exact hz
  exact ⟨hseed, hseed⟩

theorem Nonzero.insertWithAttrs {h : Hnsw} (N : Nonzero h) (vector : List F32)
    (attrs : List AttrValue) : After (fun r => Nonzero r.1) (h.insertWithAttrs vector attrs) := by
  rw [insertWithAttrs_eq]
  refine (after_insertDrawn h vector attrs h.drawnLevel).mono fun r A => ⟨?_, ?_⟩
  · rw [show r.1.seed = h.seed from congrArg HnswParams.seed A.params_eq]
    exact N.1
  · rcases A.rng_eq with hrng | hrng
    · rw [hrng]
      exact N.2
    · rw [hrng]
      exact xorshift64_ne_zero N.2

/-- A compaction starts over from the seed. -/
theorem Nonzero.compact (h : Hnsw) : After (fun r => Nonzero r.1) h.compact := by
  unfold Hnsw.compact
  refine (after_true _).bind fun rows _ => ?_
  refine After.bind (after_foldlM_const Nonzero rows (fun row g _ hg => ?_) (nonzero_new _))
    fun g hg => hg
  refine (hg.insertWithAttrs row.1 row.2).bind ?_
  rintro ⟨g', _ | id⟩ hg'
  · trivial
  · exact hg'

theorem Nonzero.call {h : Hnsw} (N : Nonzero h) (c : Call) :
    After (fun r => Nonzero r.1) (h.call c) := by
  cases c with
  | insert vector attrs => exact (N.insertWithAttrs vector attrs).bind fun r hr => hr
  | delete id =>
    cases hdel : h.delete id with
    | error e =>
      simp only [Hnsw.call, hdel]
      exact N
    | ok g =>
      simp only [Hnsw.call, hdel]
      obtain ⟨-, rfl⟩ := delete_eq hdel
      exact N
  | compact =>
    have hafter := Nonzero.compact h
    cases hrun : h.compact with
    | ok r =>
      simp only [Hnsw.call, hrun]
      exact hafter.elim hrun
    | error fault =>
      simp only [Hnsw.call, hrun]
      cases fault with
      | error e => exact N
      | panic => trivial
      | fuel => trivial

theorem nonzero_fromBytes {bytes : List UInt8} {h : Hnsw} (hdec : Hnsw.fromBytes bytes = .ok h) :
    Nonzero h :=
  ⟨(fromBytes_configured hdec).seed_ne, (fromBytes_configured hdec).rng_ne⟩

/-- What a graph like this writes is not refused for a zero state. -/
theorem Nonzero.toBytes {h : Hnsw} (N : Nonzero h) :
    After (fun bytes => Hnsw.fromBytes bytes ≠ Outcome.fail zeroState) h.toBytes := by
  unfold Hnsw.toBytes
  refine (after_true _).bind fun nodes _ => ?_
  show Hnsw.fromBytes (h.writeHeader ++ nodes.flatten) ≠ _
  have hheader := avoids_header N.1 N.2 nodes.flatten
  unfold Hnsw.fromBytes
  cases hrun : (Hnsw.fromGraphBytes : Decoder (List UInt8) Hnsw) (h.writeHeader ++ nodes.flatten) with
  | ok r => exact nofun
  | error fault =>
    intro heq
    exact hheader (hrun.trans (congrArg Except.error (Except.error.inj heq)))

end Hnsw

/-! ## Histories -/

/-- What happens to the graph an index holds: a call changes it, it is written out, or what some bytes
hold is put in its place. -/
inductive GraphOp where
  | call (call : Hnsw.Call)
  | encode
  | decode (bytes : List UInt8)
  deriving DecidableEq, Repr

/-- The graph an index holds, and every encoding made of it so far. -/
structure GraphLog where
  graph : Hnsw
  written : List (List UInt8)
  deriving DecidableEq, Repr

namespace GraphLog

open Hnsw (Nonzero)

variable [Arith]

/-- One operation. Bytes that are refused leave the graph as it was. -/
def step (s : GraphLog) : GraphOp → Outcome HnswError GraphLog
  | .call c => do
    let (graph, _) ← s.graph.call c
    return { s with graph }
  | .encode => do
    let bytes ← s.graph.toBytes
    return { s with written := s.written ++ [bytes] }
  | .decode bytes =>
    match Hnsw.fromBytes bytes with
    | .ok graph => return { s with graph }
    | .error (.error _) => return s
    | .error _ => panicked

/-- A new index, not written out yet. -/
def new (params : HnswParams) : GraphLog := ⟨Hnsw.new params, []⟩

/-- No zero state, now or in anything written. -/
def Alive (s : GraphLog) : Prop :=
  Nonzero s.graph ∧ ∀ bytes ∈ s.written, Hnsw.fromBytes bytes ≠ Outcome.fail zeroState

theorem Alive.step {s : GraphLog} (A : Alive s) (op : GraphOp) : After Alive (s.step op) := by
  obtain ⟨N, hwritten⟩ := A
  cases op with
  | call c => exact (N.call c).bind fun r hr => ⟨hr, hwritten⟩
  | encode =>
    refine N.toBytes.bind fun bytes hbytes => ⟨N, fun written hin => ?_⟩
    rcases List.mem_append.mp hin with hin | hin
    · exact hwritten written hin
    · rw [List.mem_singleton.mp hin]
      exact hbytes
  | decode bytes =>
    cases hdec : Hnsw.fromBytes bytes with
    | ok graph =>
      simp only [GraphLog.step, hdec]
      exact ⟨Hnsw.nonzero_fromBytes hdec, hwritten⟩
    | error fault =>
      simp only [GraphLog.step, hdec]
      cases fault with
      | error e => exact ⟨N, hwritten⟩
      | panic => trivial
      | fuel => trivial

/-- **The generator never stops.** Whatever seed an index is created with and whatever is then done to
it, for as long as it runs: neither its seed nor its generator's state is zero, because one step is
injective and fixes zero, and none of its encodings is refused for a zero state. -/
theorem alive_run (params : HnswParams) (ops : List GraphOp) :
    Function.Injective xorshift64 ∧ xorshift64 0 = 0 ∧
      After (fun s => s.graph.seed ≠ 0 ∧ s.graph.rng ≠ 0 ∧
          ∀ bytes ∈ s.written, Hnsw.fromBytes bytes ≠ Outcome.fail zeroState)
        (run step (new params) ops) := by
  refine ⟨xorshift64_injective, xorshift64_zero, ?_⟩
  have hnew : Alive (new params) := ⟨Hnsw.nonzero_new params, by simp [new]⟩
  refine (after_run (C := fun _ _ => True) (fun s op A _ => A.step op) hnew ?_).mono ?_
  · exact along_of_forall (fun _ _ _ => trivial) _
  · intro s A
    exact ⟨A.1.1, A.1.2, A.2⟩

end GraphLog

end Brindle
