/-
# Brindle.Hnsw.Runs — any sequence of inserts, deletes and compactions.

A graph starts as `Hnsw.new` and is changed by `insert_with_attrs`, `delete` and `compact` only. An
operation names the levels its inserts draw, so that a result about every run is a result whatever
the generator produces; a refused call leaves the graph as it was. The structural invariant holds
after every run whose layer total fits the `u32` the offsets are stored in.
-/
import Brindle.Hnsw.DecodeSpec

namespace Brindle

open Outcome (Ensures ensures_ok ensures_pure)
open Run (run Along After)

/-- A change to the rows, with the level an insert draws. -/
inductive Edit where
  | insert (vector : List F32) (attrs : List AttrValue) (level : Nat)
  | delete (id : Nat)
  deriving DecidableEq, Repr

/-- An operation on a graph, with the levels its inserts draw. -/
inductive Op where
  | edit (edit : Edit)
  | compact (draws : List Nat)
  deriving DecidableEq, Repr

namespace Hnsw

variable [Arith]

/-- Make one change; a refused call changes nothing. -/
def editStep (h : Hnsw) : Edit → Outcome HnswError Hnsw
  | .insert vector attrs level => do
    let (h, _) ← h.insertDrawn vector attrs level
    return h
  | .delete id =>
    match h.delete id with
    | .ok h => return h
    | .error _ => return h

/-- Carry out one operation; a refused call changes nothing. -/
def opStep (h : Hnsw) : Op → Outcome HnswError Hnsw
  | .edit edit => h.editStep edit
  | .compact draws =>
    match h.compactDrawn draws with
    | .ok (fresh, _) => return fresh
    | .error (.error _) => return h
    | .error fault => .error fault

omit [Arith] in
/-- The layers stored after the change fit a `u32`. -/
def EditFits (h : Hnsw) : Edit → Prop
  | .insert _ _ level => h.base h.n + (level + 1) < 2 ^ 32
  | .delete _ => True

omit [Arith] in
/-- The layers stored after the operation fit a `u32`. -/
def OpFits (h : Hnsw) : Op → Prop
  | .edit edit => h.EditFits edit
  | .compact draws => After (fun rows => drawnLayers rows.zipIdx draws < 2 ^ 32) h.liveRows

omit [Arith] in
instance (h : Hnsw) : ∀ edit, Decidable (h.EditFits edit)
  | .insert _ _ level => inferInstanceAs (Decidable (h.base h.n + (level + 1) < 2 ^ 32))
  | .delete _ => inferInstanceAs (Decidable True)

omit [Arith] in
instance (h : Hnsw) : ∀ op, Decidable (h.OpFits op)
  | .edit edit => inferInstanceAs (Decidable (h.EditFits edit))
  | .compact draws => inferInstanceAs (Decidable (After (fun rows =>
      drawnLayers rows.zipIdx draws < 2 ^ 32) h.liveRows))

/-- One change keeps the structural invariant. -/
theorem WellFormed.editStep {h : Hnsw} (W : WellFormed h) (edit : Edit) (hfit : h.EditFits edit) :
    Ensures (h.editStep edit) WellFormed := by
  cases edit with
  | insert vector attrs level =>
    refine (W.insertDrawn attrs vector hfit).bind ?_
    rintro ⟨h', r⟩ ⟨W', -⟩
    exact ensures_pure.mpr W'
  | delete id =>
    cases hdel : h.delete id with
    | error e =>
      simp only [Hnsw.editStep, hdel]
      exact ensures_pure.mpr W
    | ok h' =>
      simp only [Hnsw.editStep, hdel]
      exact ensures_pure.mpr (W.delete hdel)

/-- One operation keeps the structural invariant. -/
theorem WellFormed.opStep {h : Hnsw} (W : WellFormed h) (op : Op) (hfit : h.OpFits op) :
    Ensures (h.opStep op) WellFormed := by
  cases op with
  | edit edit => exact W.editStep edit hfit
  | compact draws =>
    have hrows : ∀ rows, h.liveRows = .ok rows → drawnLayers rows.zipIdx draws < 2 ^ 32 := by
      intro rows hrows
      have hafter : After (fun rows => drawnLayers rows.zipIdx draws < 2 ^ 32) h.liveRows := hfit
      rw [hrows] at hafter
      exact hafter
    obtain ⟨⟨fresh, n⟩, hrun, W'⟩ := W.compactDrawn draws hrows
    simp only [Hnsw.opStep, hrun]
    exact ensures_pure.mpr W'

/-- A run of changes from a new graph keeps the structural invariant. -/
theorem wellFormed_edits (params : HnswParams) {edits : List Edit}
    (hfit : Along editStep EditFits (Hnsw.new params) edits) :
    Ensures (run editStep (Hnsw.new params) edits) WellFormed :=
  Run.ensures_run (fun _ edit W hf => WellFormed.editStep W edit hf) (WellFormed.new params) hfit

/-- No index of the insert, search and encode paths is out of range: an insert at any level that
fits returns, a search returns or reports the dimension, the encoder returns. -/
def InBounds (h : Hnsw) : Prop :=
  (∀ vector attrs level, h.base h.n + (level + 1) < 2 ^ 32 →
      Ensures (h.insertDrawn vector attrs level) fun _ => True) ∧
    (∀ query k efSearch predicate, Outcome.Safe (h.searchInner query k efSearch predicate)) ∧
    Ensures h.toBytes fun _ => True

theorem WellFormed.inBounds {h : Hnsw} (W : WellFormed h) : InBounds h :=
  ⟨fun vector attrs _ hfit => (W.insertDrawn attrs vector hfit).mono fun _ _ => trivial,
    fun query k efSearch predicate =>
      searchInner_safe W.toInRange W.entry_lt query k efSearch predicate,
    ⟨_, W.toBytes_eq, trivial⟩⟩

/-- **The structural invariant.** Every run of inserts, deletes and compactions whose layers fit a
`u32` returns a well-formed graph, on which no insert, search or encoding indexes out of range. -/
theorem wellFormed_run (params : HnswParams) (ops : List Op)
    (hfit : Along opStep OpFits (Hnsw.new params) ops) :
    Ensures (run opStep (Hnsw.new params) ops) fun h => WellFormed h ∧ InBounds h :=
  (Run.ensures_run (fun _ op W hf => WellFormed.opStep W op hf) (WellFormed.new params) hfit).mono
    fun _ W => ⟨W, W.inBounds⟩

omit [Arith] in
/-- Two rows, one of them deleted and compacted away, then a third on a layer of its own. -/
def sampleOps : List Op :=
  [.edit (.insert [F32.one] [] 0), .edit (.insert [F32.zero] [.null] 1), .edit (.delete 0),
    .compact [2], .edit (.insert [F32.one] [] 3)]

omit [Arith] in
theorem wellFormed_run_sample :
    Ensures (@run _ _ _ (@opStep Arith.ieee) (@Hnsw.new Arith.ieee HnswParams.default) sampleOps)
      fun h => WellFormed h ∧ @InBounds Arith.ieee h :=
  @wellFormed_run Arith.ieee HnswParams.default sampleOps (by decide +kernel)

/-! ## A price list -/

omit [Arith]

/-- Two links a row, so that one row can be the only way to another. -/
def sparseParams : HnswParams :=
  { HnswParams.default with m := 2, efConstruction := 10, metric := .l2 }

/-- Six rows with a price each, two of them on a second layer. The fifth has a `-0.0` and, beside its
price, a NaN. -/
def pricedEdits : List Edit :=
  [.insert [F32.ofUsize 9, F32.ofUsize 6] [.int 1, .null] 0,
    .insert [F32.ofUsize 1, F32.ofUsize 2] [.int 5, .null] 1,
    .insert [F32.ofUsize 6, F32.ofUsize 4] [.int 2, .null] 0,
    .insert [F32.ofUsize 10, F32.ofUsize 3] [.int 6, .null] 1,
    .insert [F32.negZero, F32.ofUsize 2] [.int 3, .float ⟨0xFFF8000000000001⟩] 0,
    .insert [F32.ofUsize 6, F32.ofUsize 7] [.int 4, .null] 0]

/-- The graph of the price list. -/
def pricedGraph : Outcome HnswError Hnsw :=
  @run _ _ _ (@editStep Arith.ieee) (@Hnsw.new Arith.ieee sparseParams) pricedEdits

/-- The same with the third row deleted. -/
def soldGraph : Outcome HnswError Hnsw :=
  @run _ _ _ (@editStep Arith.ieee) (@Hnsw.new Arith.ieee sparseParams)
    (pricedEdits ++ [.delete 2])

/-- `(9, 0)`. -/
def pricedQuery : List F32 := [F32.ofUsize 9, F32.ofUsize 0]

/-- A price of at most `limit`. -/
def pricedUpTo (limit : Int64) : Predicate := .and [.range 0 .unbounded (.included (.int limit))]

theorem soldEdits_fit : Along (@editStep Arith.ieee) EditFits (@Hnsw.new Arith.ieee sparseParams)
    (pricedEdits ++ [.delete 2]) := by
  decide +kernel

theorem pricedEdits_fit : Along (@editStep Arith.ieee) EditFits
    (@Hnsw.new Arith.ieee sparseParams) pricedEdits :=
  (Run.along_split soldEdits_fit).1

theorem pricedGraph_wellFormed : Ensures pricedGraph WellFormed :=
  @wellFormed_edits Arith.ieee sparseParams _ pricedEdits_fit

theorem soldGraph_wellFormed : Ensures soldGraph WellFormed :=
  @wellFormed_edits Arith.ieee sparseParams _ soldEdits_fit

end Hnsw

end Brindle
