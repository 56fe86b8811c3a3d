/-
# Brindle.Storage.Reserved — an image fits the buffer reserved for it.

Before it is written an image is measured: the graph by its real layers and attribute rows, the tables
by their entries, every attribute value at its widest. The blob is never longer, so writing it never
moves it; what is left over is what the nulls do not take up.
-/
import Mathlib.Algebra.BigOperators.Ring.List
import Brindle.Hnsw.Readable
import Brindle.Storage.Payload

namespace Brindle

open Outcome (Ensures ensures_pure index)

/-- The attribute values that are null. -/
def nulls (row : List AttrValue) : Nat := row.countP (· = .null)

theorem nulls_size (row : List AttrValue) :
    (row.map AttrValue.size).sum + 8 * nulls row = row.length * 9 := by
  induction row with
  | nil => rfl
  | cons v row ih =>
    unfold nulls at ih ⊢
    rw [List.map_cons, List.sum_cons, List.countP_cons, List.length_cons]
    cases v <;> simp [AttrValue.size] <;> omega

namespace Hnsw

/-- Upper bound on the byte length of this graph's serialization. -/
def serializedLenHint (h : Hnsw) : Outcome HnswError Nat :=
  (List.range h.n).foldlM (fun total id => do
    let total ← (List.range (← h.levels id)).foldlM (fun total layer => do
      return total + (8 + (← h.neighbors id layer).length * 8)) total
    return total + (← index h.attrs id).length * 9) (76 + h.n * (17 + h.dim * 4))

variable {h : Hnsw}

/-- The bound, node by node. -/
theorem Layout.serializedLenHint_eq (L : Layout h) : h.serializedLenHint =
    .ok (76 + ((List.range h.n).map fun id => h.recordSize id + 8 * nulls (h.attrsOf id)).sum) := by
  have hnode : ∀ id ∈ List.range h.n, ∀ total : Nat, (do
      let total ← (List.range (← h.levels id)).foldlM (fun total layer => do
        return total + (8 + (← h.neighbors id layer).length * 8)) total
      return total + (← index h.attrs id).length * 9 : Outcome HnswError Nat) =
      .ok (total + (((List.range (h.levelsOf id)).map fun l => 8 + (h.nbrs id l).length * 8).sum +
        (h.attrsOf id).length * 9)) := by
    intro id hid total
    rw [L.levels_eq (List.mem_range.mp hid), Outcome.ok_bind,
      Outcome.foldlM_add (g := fun l => 8 + (h.nbrs id l).length * 8), Outcome.ok_bind,
      L.index_attrs (List.mem_range.mp hid), Outcome.ok_bind, Nat.add_assoc]
    · rfl
    · intro l _ total
      rw [L.neighbors_eq, Outcome.ok_bind]
      rfl
  unfold serializedLenHint
  rw [Outcome.foldlM_add _ hnode]
  refine congrArg Except.ok ?_
  rw [Nat.add_assoc]
  have hconst : h.n * (17 + h.dim * 4) =
      ((List.range h.n).map fun _ => 17 + h.dim * 4).sum := by
    simp
  rw [hconst, ← List.sum_map_add]
  refine congrArg (76 + ·) (congrArg List.sum (List.map_congr_left fun id _ => ?_))
  have hsize := nulls_size (h.attrsOf id)
  have hlayers : ((List.range (h.levelsOf id)).map fun l => 8 + (h.nbrs id l).length * 8) =
      (List.range (h.levelsOf id)).map fun l => 8 + 8 * (h.nbrs id l).length :=
    List.map_congr_left fun l _ => by rw [Nat.mul_comm]
  unfold recordSize
  rw [hlayers]
  omega

end Hnsw

/-- What `encode_index` reserves. -/
def reservation (hnsw : Hnsw) (tids : List TidPair) (unrankable : List UnrankableRow) :
    Outcome HnswError Nat := do
  let unrankableHint := (unrankable.map fun row => 14 + row.2.length * 9).sum
  return 16 + (← hnsw.serializedLenHint) + tids.length * 6 + 8 + unrankableHint

/-- **The reservation holds the image**, with eight bytes to spare for each null. -/
theorem encodeIndex_reserved {hnsw : Hnsw} (L : Hnsw.Layout hnsw) (tids : List TidPair)
    (unrankable : List UnrankableRow) :
    Ensures (reservation hnsw tids unrankable) fun capacity =>
      Ensures (encodeIndex hnsw tids unrankable) fun blob =>
        blob.length + 8 * (((List.range hnsw.n).map fun id => nulls (hnsw.attrsOf id)).sum +
          (unrankable.map fun row => nulls row.2).sum) = capacity := by
  have htids : (appendTidTable tids).length = 8 + tids.length * 6 := by
    simp [appendTidTable, writeTid, List.length_flatMap]
  have hunrankable : (appendUnrankable unrankable).length +
      8 * (unrankable.map fun row => nulls row.2).sum =
      8 + (unrankable.map fun row => 14 + row.2.length * 9).sum := by
    unfold appendUnrankable
    rw [List.length_append, Bytes.leBytes_length, List.length_flatMap, Nat.add_assoc,
      ← List.sum_map_mul_left, ← List.sum_map_add]
    refine congrArg (8 + ·) (congrArg List.sum (List.map_congr_left fun row _ => ?_))
    have hsize := nulls_size row.2
    rw [List.length_append, Hnsw.writeAttrRow_length]
    simp only [writeTid, List.length_append, Bytes.leBytes_length]
    omega
  have hgraph : (hnsw.writeHeader ++ (List.range hnsw.n).flatMap hnsw.nodeBytes).length +
      8 * ((List.range hnsw.n).map fun id => nulls (hnsw.attrsOf id)).sum =
      76 + ((List.range hnsw.n).map fun id =>
        hnsw.recordSize id + 8 * nulls (hnsw.attrsOf id)).sum := by
    rw [List.length_append, Hnsw.writeHeader_length, List.length_flatMap, Nat.add_assoc,
      ← List.sum_map_mul_left, ← List.sum_map_add]
    refine congrArg (76 + ·) (congrArg List.sum (List.map_congr_left fun id hid => ?_))
    rw [L.nodeBytes_length (List.mem_range.mp hid)]
  unfold reservation encodeIndex
  rw [L.serializedLenHint_eq, L.toBytes_eq, Outcome.ok_bind, Outcome.ok_bind]
  refine ensures_pure.mpr (ensures_pure.mpr ?_)
  rw [List.length_append, List.length_append, List.length_append, Bytes.leBytes_length, htids]
  omega

/-- A row with a null in it, and a vectorless row of nothing else. -/
theorem encodeIndex_reserved_nulls :
    Ensures (@Hnsw.insertDrawn Arith.ieee (@Hnsw.new Arith.ieee HnswParams.default) [F32.one]
      [.null, .int 7] 1) fun r =>
        Ensures (reservation r.1 [(0, 1)] [((0, 2), [.null])]) fun capacity =>
          Ensures (encodeIndex r.1 [(0, 1)] [((0, 2), [.null])]) fun blob =>
            blob.length + 8 * (((List.range r.1.n).map fun id => nulls (r.1.attrsOf id)).sum +
              ([((0, 2), [.null])].map fun row : UnrankableRow => nulls row.2).sum) = capacity := by
  let := Arith.ieee
  obtain ⟨r, hrun, W, -⟩ := (Hnsw.WellFormed.new HnswParams.default).insertDrawn [.null, .int 7]
    [F32.one] (show _ + (1 + 1) < 2 ^ 32 by decide +kernel)
  exact ⟨r, hrun, encodeIndex_reserved W.toLayout [(0, 1)] [((0, 2), [.null])]⟩

end Brindle
