/-
# Brindle.Storage.ImageSpec — what staging, a write-back and a vacuum do to the rows.

Stated over the rows alone: staging appends one row to the staged ones, a write-back appends the
staged rows to the image's, whichever branch it takes, as long as equal generations mean that the
image is still the one the write was loaded from, and a vacuum tombstones the graph rows and drops
the vectorless rows reported dead.
-/
import Brindle.Storage.Image

namespace Brindle

open Outcome (fail index)
open Hnsw (Rowed rows_getElem? rows_length insertWithAttrs_rows delete_rows)
open Run (After after_foldlM after_foldlM_const after_iff)

/-- The graph's rows are whole and the pointer table covers them. -/
structure InStep (hnsw : Hnsw) (tids : List TidPair) : Prop where
  rowed : Rowed hnsw
  tids_len : tids.length = hnsw.n

/-- An image every load accepts, up to its attribute columns. -/
def Image.Valid (image : Image) : Prop := InStep image.hnsw image.tids

theorem load_eq {arity : Nat} {image loaded : Image} (hload : image.load arity = .ok loaded) :
    loaded = image ∧ image.hnsw.n = image.tids.length := by
  unfold Image.load at hload
  split at hload
  · cases hload
  · split at hload
    · cases hload
    · rename_i hlen
      cases hload
      exact ⟨rfl, not_not.mp hlen⟩

/-- One row of the table, by id. -/
def rowOf (hnsw : Hnsw) (tids : List TidPair) (id : Nat) : GraphRow :=
  (hnsw.rowAt id, tids.getD id (0, 0))

namespace InStep

variable {hnsw : Hnsw} {tids : List TidPair} (T : InStep hnsw tids)
include T

theorem length_tableRows : (tableRows hnsw tids).length = hnsw.n := by
  simp [tableRows, T.tids_len]

theorem tableRows_eq_map : tableRows hnsw tids = (List.range hnsw.n).map (rowOf hnsw tids) := by
  apply List.ext_getElem?
  intro id
  rcases Nat.lt_or_ge id hnsw.n with hid | hid
  · have hlt : id < tids.length := by rw [T.tids_len]; exact hid
    have hrow := rows_getElem? hid
    simp only [tableRows, List.getElem?_zip_eq_some, rowOf, List.getElem?_map,
      List.getElem?_range hid, Option.map_some, List.getD_eq_getElem?_getD,
      List.getElem?_eq_getElem hlt, Option.getD_some, hrow, and_self]
  · rw [List.getElem?_eq_none (by rw [T.length_tableRows]; exact hid),
      List.getElem?_eq_none (by simpa using hid)]

/-- The rows from `start` on, `count` of them, read one id at a time. -/
theorem map_range' {start count : Nat} (hle : start + count ≤ hnsw.n) :
    (List.range' start count).map (rowOf hnsw tids) =
      ((tableRows hnsw tids).drop start).take count := by
  have hsplit : List.range' start (hnsw.n - start) =
      List.range' start count ++ List.range' (start + count) (hnsw.n - start - count) := by
    rw [List.range'_append_1]
    congr 1
    omega
  rw [T.tableRows_eq_map, ← List.map_drop, ← List.map_take, List.range_eq_range', List.drop_range',
    Nat.zero_add, Nat.mul_one, hsplit, List.take_left' List.length_range']

end InStep

section Backend

variable [Arith] {hnsw : Hnsw} {tids : List TidPair}

/-- `apply_one` appends one live row, or raises and appends none. -/
theorem applyOne_spec (T : InStep hnsw tids) (vector : List F32) (attrs : List AttrValue) :
    After (fun r => Rowed r.1 ∧ match r.2 with
        | .ok () => r.1.n = hnsw.n + 1 ∧ r.1.rows = hnsw.rows ++ [⟨vector, attrs, false⟩]
        | .error _ => r.1.n = hnsw.n ∧ r.1.rows = hnsw.rows)
      (applyOne hnsw tids.length vector attrs) := by
  unfold applyOne
  cases hrun : (hnsw.insertWithAttrs vector attrs).mapError StorageError.hnsw with
  | error fault => trivial
  | ok r =>
    obtain ⟨g, inserted⟩ := r
    obtain ⟨G, hins⟩ :=
      (insertWithAttrs_rows T.rowed vector attrs).elim (Outcome.mapError_eq_ok.mp hrun)
    cases inserted with
    | error e =>
      have hlen := congrArg List.length hins
      exact ⟨G, by simpa using hlen, hins⟩
    | ok id =>
      obtain ⟨hid, hrows⟩ := hins
      have hlen := congrArg List.length hrows
      -- ids are dense insertion order, so the new one is the length of the table
      have hexpected : ¬ id ≠ tids.length := by
        rw [hid, T.tids_len]
        exact not_not.mpr rfl
      simp only [Outcome.ok_bind, if_neg hexpected]
      exact ⟨G, by simpa using hlen, hrows⟩

omit [Arith] in
theorem InStep.append (T : InStep hnsw tids) {g : Hnsw} (G : Rowed g) (hn : g.n = hnsw.n + 1)
    {row : Stored} (hrows : g.rows = hnsw.rows ++ [row]) (tid : TidPair) :
    InStep g (tids ++ [tid]) ∧
      tableRows g (tids ++ [tid]) = tableRows hnsw tids ++ [(row, tid)] := by
  refine ⟨⟨G, by simp [hn, T.tids_len]⟩, ?_⟩
  show g.rows.zip (tids ++ [tid]) = _
  rw [hrows, List.zip_append (by rw [rows_length, T.tids_len])]
  rfl

theorem appendRow_spec {table : Hnsw × List TidPair} (T : InStep table.1 table.2)
    (row : List F32 × List AttrValue × TidPair) :
    After (fun table' => InStep table'.1 table'.2 ∧
        tableRows table'.1 table'.2 = tableRows table.1 table.2 ++ [liveRow row])
      (appendRow table row) := by
  unfold appendRow
  refine (applyOne_spec T row.1 row.2.1).bind ?_
  rintro ⟨g, raised⟩ ⟨G, hraised⟩
  cases raised with
  | error e => trivial
  | ok u => exact T.append G hraised.1 hraised.2 row.2.2

/-- Inserting rows one after another appends them in order. -/
theorem appendRows_spec {table : Hnsw × List TidPair} (T : InStep table.1 table.2)
    (rows : List (List F32 × List AttrValue × TidPair)) :
    After (fun table' => InStep table'.1 table'.2 ∧
        tableRows table'.1 table'.2 = tableRows table.1 table.2 ++ rows.map liveRow)
      (rows.foldlM appendRow table) := by
  refine after_foldlM (fun done (table' : Hnsw × List TidPair) => InStep table'.1 table'.2 ∧
    tableRows table'.1 table'.2 = tableRows table.1 table.2 ++ done.map liveRow) rows ?_
    ⟨T, by simp⟩
  rintro done row table' - ⟨T', hrows⟩
  refine (appendRow_spec T' row).mono fun table'' h => ⟨h.1, ?_⟩
  rw [h.2, hrows, List.map_append, List.append_assoc]
  rfl

end Backend

/-! ## Rows of a staged write -/

/-- What the code maintains about a staged write: the graph and its pointer table in step, the base
counts within them, and no staged row tombstoned. -/
structure PendingWrite.Coherent (w : PendingWrite) : Prop extends InStep w.hnsw w.tids where
  base_le : w.baseN ≤ w.hnsw.n
  baseUnrankable_le : w.baseUnrankable ≤ w.unrankable.length
  alive : ∀ row ∈ w.stagedRows, row.1.dead = false

/-- The write still extends what `image` holds. -/
structure PendingWrite.Extends (w : PendingWrite) (image : Image) : Prop where
  rows : w.graphRows.take w.baseN = image.graphRows
  unrankable : w.unrankable.take w.baseUnrankable = image.unrankable

namespace PendingWrite

theorem coherent_ofImage {image : Image} (V : image.Valid) (oid : Oid) :
    (ofImage oid image).Coherent where
  toInStep := V
  base_le := le_rfl
  baseUnrankable_le := le_rfl
  alive := by
    intro row hrow
    have hnil : (ofImage oid image).stagedRows = [] := by
      apply List.drop_eq_nil_of_le
      exact V.length_tableRows.le
    rw [hnil] at hrow
    cases hrow

theorem stagedRows_ofImage {image : Image} (V : image.Valid) (oid : Oid) :
    (ofImage oid image).stagedRows = [] :=
  List.drop_eq_nil_of_le V.length_tableRows.le

theorem stagedUnrankable_ofImage (oid : Oid) (image : Image) :
    (ofImage oid image).stagedUnrankable = [] :=
  List.drop_eq_nil_of_le le_rfl

theorem extends_ofImage {image : Image} (V : image.Valid) (oid : Oid) :
    (ofImage oid image).Extends image where
  rows := List.take_of_length_le V.length_tableRows.le
  unrankable := List.take_of_length_le le_rfl

namespace Coherent

variable {w : PendingWrite} (C : w.Coherent)
include C

theorem length_stagedRows : w.stagedRows.length = w.stagedNodes.length := by
  have hlen : w.graphRows.length = w.hnsw.n := C.toInStep.length_tableRows
  simp [stagedRows, stagedNodes, hlen]

theorem stagedRow_eq {id : Nat} (hid : id < w.hnsw.n) :
    w.stagedRow id = .ok (w.hnsw.vec id, w.hnsw.attrsOf id, w.tids.getD id (0, 0)) := by
  have hvec : (w.hnsw.vector id).mapError StorageError.hnsw = .ok (w.hnsw.vec id) :=
    Outcome.mapError_eq_ok.mpr (C.rowed.vector_eq hid)
  have htid : (index w.tids id : Outcome StorageError TidPair) = .ok (w.tids.getD id (0, 0)) :=
    Outcome.index_lt _ (by rw [C.tids_len]; exact hid)
  unfold stagedRow
  rw [hvec, htid]
  rfl

theorem alive_at {id : Nat} (hlo : w.baseN ≤ id) (hid : id < w.hnsw.n) :
    (w.hnsw.rowAt id).dead = false := by
  refine C.alive (rowOf w.hnsw w.tids id) ?_
  show _ ∈ (tableRows w.hnsw w.tids).drop w.baseN
  rw [C.toInStep.tableRows_eq_map, ← List.map_drop]
  refine List.mem_map_of_mem ?_
  rw [List.range_eq_range', List.drop_range', List.mem_range'_1]
  omega

/-- The first staged rows, read back, are those rows. -/
theorem survivors_spec {count : Nat} (hle : w.baseN + count ≤ w.hnsw.n) :
    ∃ rows, w.survivors count = .ok rows ∧ rows.map liveRow = w.stagedRows.take count := by
  refine ⟨_, Outcome.mapM_ok _ fun id hid => C.stagedRow_eq ?_, ?_⟩
  · rw [List.mem_range'_1] at hid
    omega
  · rw [List.map_map]
    show _ = ((tableRows w.hnsw w.tids).drop w.baseN).take count
    rw [← C.toInStep.map_range' hle]
    apply List.map_congr_left
    intro id hid
    rw [List.mem_range'_1] at hid
    have halive := C.alive_at hid.1 (by omega)
    simp only [Function.comp_apply, liveRow, rowOf, Hnsw.rowAt] at halive ⊢
    rw [halive]

variable [Arith]

/-- Reading the rows one at a time, as they are replayed, is reading them first. -/
theorem replay_loop_eq (table : Hnsw × List TidPair) {count : Nat}
    (hle : w.baseN + count ≤ w.hnsw.n) :
    (List.range' w.baseN count).foldlM (fun table id => do appendRow table (← w.stagedRow id))
        table = w.survivors count >>= fun rows => rows.foldlM appendRow table := by
  have hread : ∀ id ∈ List.range' w.baseN count, w.stagedRow id =
      .ok (w.hnsw.vec id, w.hnsw.attrsOf id, w.tids.getD id (0, 0)) := by
    intro id hid
    rw [List.mem_range'_1] at hid
    exact C.stagedRow_eq (by omega)
  rw [survivors, Outcome.mapM_ok _ hread, Outcome.ok_bind, List.foldlM_map]
  generalize List.range' w.baseN count = ids at hread
  induction ids generalizing table with
  | nil => rfl
  | cons id ids ih =>
    rw [List.foldlM_cons, List.foldlM_cons, hread id List.mem_cons_self, Outcome.ok_bind]
    congr 1
    funext table'
    exact ih table' fun id' hid' => hread id' (List.mem_cons_of_mem _ hid')

end Coherent

/-! ## Staging a row -/

/-- `w'` is `w` with more rows staged. -/
structure Stages (w w' : PendingWrite) (rows : List GraphRow) (unrankable : List UnrankableRow) :
    Prop where
  coherent : w'.Coherent
  rows_eq : w'.stagedRows = w.stagedRows ++ rows
  unrankable_eq : w'.stagedUnrankable = w.stagedUnrankable ++ unrankable
  indexOid_eq : w'.indexOid = w.indexOid
  baseGeneration_eq : w'.baseGeneration = w.baseGeneration
  marks_eq : w'.marks = w.marks
  rewindTo_eq : w'.rewindTo = w.rewindTo
  extends_of : ∀ image, w.Extends image → w'.Extends image

namespace Coherent

variable {w : PendingWrite} (C : w.Coherent)
include C

theorem stages_refl : w.Stages w [] [] where
  coherent := C
  rows_eq := (List.append_nil _).symm
  unrankable_eq := (List.append_nil _).symm
  indexOid_eq := rfl
  baseGeneration_eq := rfl
  marks_eq := rfl
  rewindTo_eq := rfl
  extends_of _ E := E

/-- Staging a vector stages its row, or raises and stages none. -/
theorem stageVector_spec [Arith] (vector : List F32) (attrs : List AttrValue) (tid : TidPair) :
    After (fun r => match r.2 with
        | .ok () => Stages w r.1 [liveRow (vector, attrs, tid)] []
        | .error _ => Stages w r.1 [] []) (w.stageVector vector attrs tid) := by
  unfold stageVector
  refine (applyOne_spec C.toInStep vector attrs).bind ?_
  rintro ⟨hnsw, raised⟩ ⟨H, hraised⟩
  dsimp only at H hraised
  cases raised with
  | error e =>
    -- a refused vector may have moved the random state, and no row
    obtain ⟨hn, hrows⟩ := hraised
    have htable : tableRows hnsw w.tids = w.graphRows := by
      show hnsw.rows.zip w.tids = w.hnsw.rows.zip w.tids
      rw [hrows]
    have hdrop : (tableRows hnsw w.tids).drop w.baseN = w.stagedRows := by
      rw [htable]
      rfl
    refine ⟨⟨⟨H, C.tids_len.trans hn.symm⟩, hn ▸ C.base_le, C.baseUnrankable_le, ?_⟩, ?_, ?_, rfl,
      rfl, rfl, rfl, ?_⟩
    · intro row hrow
      exact C.alive row (hdrop ▸ hrow)
    · exact hdrop.trans (List.append_nil _).symm
    · simp [stagedUnrankable]
    · intro image E
      exact ⟨(congrArg (List.take w.baseN) htable).trans E.rows, E.unrankable⟩
  | ok u =>
    obtain ⟨T, hrows⟩ := C.toInStep.append H hraised.1 hraised.2 tid
    have hlen : w.baseN ≤ w.graphRows.length := by
      rw [show w.graphRows.length = w.hnsw.n from C.toInStep.length_tableRows]
      exact C.base_le
    have hdrop : (tableRows hnsw (w.tids ++ [tid])).drop w.baseN =
        w.stagedRows ++ [liveRow (vector, attrs, tid)] := by
      rw [hrows]
      exact List.drop_append_of_le_length hlen
    have htake : (tableRows hnsw (w.tids ++ [tid])).take w.baseN = w.graphRows.take w.baseN := by
      rw [hrows]
      exact List.take_append_of_le_length hlen
    have hn : w.baseN ≤ hnsw.n := by
      have := C.base_le
      omega
    refine ⟨⟨T, hn, C.baseUnrankable_le, ?_⟩, hdrop, ?_, rfl, rfl, rfl, rfl, ?_⟩
    · intro row hrow
      have hrow : row ∈ (tableRows hnsw (w.tids ++ [tid])).drop w.baseN := hrow
      rw [hdrop] at hrow
      rcases List.mem_append.mp hrow with hold | hnew
      · exact C.alive row hold
      · rw [List.mem_singleton.mp hnew]
        rfl
    · simp [stagedUnrankable]
    · intro image E
      exact ⟨htake.trans E.rows, E.unrankable⟩

theorem stageUnrankable_spec (attrs : List AttrValue) (tid : TidPair) :
    Stages w (w.stageUnrankable attrs tid) [] [(tid, attrs)] where
  coherent :=
    { toInStep := C.toInStep
      base_le := C.base_le
      baseUnrankable_le := by
        have hle := C.baseUnrankable_le
        simp only [stageUnrankable, List.length_append, List.length_singleton]
        omega
      alive := C.alive }
  rows_eq := by
    rw [List.append_nil]
    rfl
  unrankable_eq := List.drop_append_of_le_length C.baseUnrankable_le
  indexOid_eq := rfl
  baseGeneration_eq := rfl
  marks_eq := rfl
  rewindTo_eq := rfl
  extends_of image E :=
    ⟨E.rows, (List.take_append_of_le_length C.baseUnrankable_le).trans E.unrankable⟩

/-! ## Writing back -/

variable [Arith]

theorem replay_spec {image : Image} (V : image.Valid) :
    After (fun image' => image'.Valid ∧ image'.graphRows = image.graphRows ++ w.stagedRows ∧
        image'.unrankable = image.unrankable ++ w.stagedUnrankable) (w.replay image) := by
  have hle : w.baseN + (w.hnsw.n - w.baseN) ≤ w.hnsw.n := by
    have := C.base_le
    omega
  obtain ⟨rows, hread, hrows⟩ := C.survivors_spec hle
  unfold replay
  rw [show w.stagedNodes = List.range' w.baseN (w.hnsw.n - w.baseN) from rfl,
    C.replay_loop_eq _ hle, hread, Outcome.ok_bind]
  have T₀ : InStep (image.hnsw, image.tids).1 (image.hnsw, image.tids).2 := V
  refine (appendRows_spec T₀ rows).bind ?_
  rintro ⟨hnsw, tids⟩ ⟨T, htable⟩
  refine ⟨T, ?_, rfl⟩
  rw [List.take_of_length_le] at hrows
  · exact htable.trans (congrArg _ hrows)
  · rw [C.length_stagedRows, stagedNodes, List.length_range']

/-- **A write-back appends the staged rows**, by either branch, when equal generations mean that the
image is the one the write was loaded from. -/
theorem writeBack_spec (arity : Nat) {image : Image} (V : image.Valid)
    (hbase : image.generation = w.baseGeneration → w.Extends image) :
    After (fun image' => image'.Valid ∧ image'.graphRows = image.graphRows ++ w.stagedRows ∧
        image'.unrankable = image.unrankable ++ w.stagedUnrankable ∧
        image'.generation = image.generation + 1) (w.writeBack arity image) := by
  unfold writeBack
  split_ifs with hgen
  · -- nobody wrote since the load: the copy is stored as it is
    have E := hbase hgen
    refine ⟨C.toInStep, ?_, ?_, rfl⟩
    · show w.graphRows = image.graphRows ++ w.stagedRows
      rw [← E.rows]
      exact (List.take_append_drop ..).symm
    · show w.unrankable = image.unrankable ++ w.stagedUnrankable
      rw [← E.unrankable]
      exact (List.take_append_drop ..).symm
  · cases hload : image.load arity with
    | error fault => trivial
    | ok loaded =>
      obtain ⟨rfl, -⟩ := load_eq hload
      refine (C.replay_spec V).bind ?_
      rintro image' ⟨V', hrows, hunr⟩
      exact ⟨V', hrows, hunr, rfl⟩

end Coherent

end PendingWrite

/-! ## Vacuum -/

namespace GraphRow

def killed (row : GraphRow) : GraphRow := (row.1.killed, row.2)

/-- A graph row after a vacuum that reports `isDead`. -/
def vacuumed (isDead : TidPair → Bool) (row : GraphRow) : GraphRow :=
  if isDead row.2 then row.killed else row

end GraphRow

/-- A delete tombstones its row of the table. -/
theorem InStep.delete {hnsw g : Hnsw} {tids : List TidPair} (T : InStep hnsw tids) {id : Nat}
    (hdel : hnsw.delete id = .ok g) :
    InStep g tids ∧ tableRows g tids = (tableRows hnsw tids).modify id GraphRow.killed := by
  obtain ⟨G, -, hrows⟩ := delete_rows T.rowed hdel
  obtain ⟨-, hset⟩ := Hnsw.delete_eq hdel
  refine ⟨⟨G, ?_⟩, ?_⟩
  · rw [hset]
    exact T.tids_len
  · apply List.ext_getElem?
    intro x
    simp only [tableRows, hrows, List.getElem?_modify, List.zip, List.getElem?_zipWith]
    cases hnsw.rows[x]? with
    | none => simp
    | some row =>
      cases tids[x]? with
      | none => simp
      | some tid => by_cases hx : id = x <;> simp [hx, GraphRow.killed]

/-- One step of the vacuum's loop over the table. -/
def vacuumStep (isDead : TidPair → Bool) (hnsw : Hnsw) (entry : TidPair × Nat) :
    Outcome StorageError Hnsw :=
  if isDead entry.1 then
    match hnsw.delete entry.2 with
    | .ok hnsw => return hnsw
    | .error e => fail (.hnsw e)
  else return hnsw

/-- The rows of the ids gone through are vacuumed, the others are as they were. -/
def Vacuumed (isDead : TidPair → Bool) (image : Image) (ids : List Nat) (hnsw : Hnsw) : Prop :=
  InStep hnsw image.tids ∧ ∀ id, (tableRows hnsw image.tids)[id]? =
    if id ∈ ids then image.graphRows[id]?.map (GraphRow.vacuumed isDead) else image.graphRows[id]?

theorem vacuumStep_spec (isDead : TidPair → Bool) {image : Image} (V : image.Valid)
    {ids : List Nat} {hnsw : Hnsw} (D : Vacuumed isDead image ids hnsw) {tid : TidPair} {id : Nat}
    (htid : image.tids[id]? = some tid) :
    After (Vacuumed isDead image (ids ++ [id])) (vacuumStep isDead hnsw (tid, id)) := by
  obtain ⟨T, hrows⟩ := D
  have hmem : ∀ x, x ≠ id → (x ∈ ids ++ [id] ↔ x ∈ ids) := fun x hx => by simp [hx]
  -- the row at `id` is the one of `tid`
  obtain ⟨row, hrow, hsnd⟩ : ∃ row, image.graphRows[id]? = some row ∧ row.2 = tid := by
    have hlt : id < image.hnsw.n := by
      rw [← V.tids_len]
      exact (List.getElem?_eq_some_iff.mp htid).1
    refine ⟨(image.hnsw.rowAt id, tid), ?_, rfl⟩
    exact List.getElem?_zip_eq_some.mpr ⟨rows_getElem? hlt, htid⟩
  unfold vacuumStep
  by_cases hdead : isDead tid = true
  · rw [if_pos hdead]
    cases hdel : hnsw.delete id with
    | error e => trivial
    | ok g =>
      obtain ⟨G, hg⟩ := T.delete hdel
      refine ⟨G, fun x => ?_⟩
      rw [hg, List.getElem?_modify, hrows x]
      by_cases hx : x = id
      · have hvac : row.vacuumed isDead = row.killed := by
          rw [GraphRow.vacuumed, hsnd, if_pos hdead]
        subst hx
        simp only [hrow, Option.map_some, hvac, List.mem_append, List.mem_singleton, or_true,
          if_true]
        split_ifs <;> rfl
      · simp only [Ne.symm hx, if_false, if_congr (hmem x hx) rfl rfl]
        simp
  · rw [if_neg hdead]
    refine ⟨T, fun x => ?_⟩
    rw [hrows x]
    by_cases hx : x = id
    · have hvac : row.vacuumed isDead = row := by
        rw [GraphRow.vacuumed, hsnd, if_neg hdead]
      rw [hx, hrow, Option.map_some, hvac]
      split_ifs <;> rfl
    · rw [if_congr (hmem x hx) rfl rfl]

/-- The loop tombstones the rows of the table that are reported dead, and no other. -/
theorem tombstoneDead_spec (isDead : TidPair → Bool) {image : Image} (V : image.Valid) :
    After (fun hnsw => InStep hnsw image.tids ∧
        tableRows hnsw image.tids = image.graphRows.map (GraphRow.vacuumed isDead))
      (tombstoneDead isDead image) := by
  have hdone : After (fun hnsw => Vacuumed isDead image (image.tids.zipIdx.map Prod.snd) hnsw)
      (tombstoneDead isDead image) := by
    refine after_foldlM (f := vacuumStep isDead)
      (fun done hnsw => Vacuumed isDead image (done.map Prod.snd) hnsw) image.tids.zipIdx ?_
      ⟨V, fun id => by simp; rfl⟩
    rintro done ⟨tid, id⟩ hnsw hmem D
    rw [List.map_append]
    exact vacuumStep_spec isDead V D (List.mk_mem_zipIdx_iff_getElem?.mp hmem)
  refine hdone.mono ?_
  rintro hnsw ⟨T, hrows⟩
  refine ⟨T, List.ext_getElem? fun id => ?_⟩
  rw [hrows id, List.getElem?_map]
  split_ifs with hid
  · rfl
  · have hge : image.graphRows.length ≤ id := by
      rw [show image.graphRows.length = image.hnsw.n from V.length_tableRows, ← V.tids_len]
      by_contra hlt
      refine hid (List.mem_map.mpr ⟨(image.tids.get ⟨id, not_le.mp hlt⟩, id), ?_, rfl⟩)
      exact List.mk_mem_zipIdx_iff_getElem?.mpr (by simp)
    rw [List.getElem?_eq_none hge]
    rfl

theorem InStep.deletedCount_eq {hnsw : Hnsw} {tids : List TidPair} (T : InStep hnsw tids) :
    hnsw.deletedCount = (tableRows hnsw tids).countP fun row => row.1.dead := by
  have hdead : hnsw.deleted = (tableRows hnsw tids).map fun row => row.1.dead := by
    rw [T.tableRows_eq_map, List.map_map]
    apply List.ext_getElem?
    intro id
    rcases Nat.lt_or_ge id hnsw.n with hid | hid
    · have hlt : id < hnsw.deleted.length := by rw [T.rowed.deleted_len]; exact hid
      simp [hid, rowOf, Hnsw.rowAt, Hnsw.isDeleted, hlt]
    · rw [List.getElem?_eq_none (by rw [T.rowed.deleted_len]; exact hid),
        List.getElem?_eq_none (by simpa using hid)]
  rw [Hnsw.deletedCount, hdead, List.countP_map]
  rfl

/-- A vacuum that tombstones nothing new leaves every row as it was. -/
theorem map_vacuumed_eq (isDead : TidPair → Bool) (rows : List GraphRow)
    (hcount : (rows.map (GraphRow.vacuumed isDead)).countP (fun row => row.1.dead) ≤
      rows.countP fun row => row.1.dead) : rows.map (GraphRow.vacuumed isDead) = rows := by
  have hle : ∀ rows : List GraphRow, rows.countP (fun row => row.1.dead) ≤
      (rows.map (GraphRow.vacuumed isDead)).countP fun row => row.1.dead := by
    intro rows
    rw [List.countP_map]
    apply List.countP_mono_left
    intro row _ hdead
    simp only [Function.comp_apply, GraphRow.vacuumed]
    split_ifs
    · rfl
    · exact hdead
  induction rows with
  | nil => rfl
  | cons row rows ih =>
    simp only [List.map_cons, List.countP_cons] at hcount ⊢
    have hrest := hle rows
    have hhead : row.vacuumed isDead = row := by
      by_cases hdead : isDead row.2 = true
      · have hkilled : (row.vacuumed isDead).1.dead = true := by
          rw [GraphRow.vacuumed, if_pos hdead]
          rfl
        -- a live row would add one to the count
        have hrow : row.1.dead = true := by
          by_contra hlive
          rw [if_pos hkilled, if_neg hlive] at hcount
          omega
        rw [GraphRow.vacuumed, if_pos hdead]
        obtain ⟨⟨vector, attrs, dead⟩, tid⟩ := row
        cases hrow
        rfl
      · rw [GraphRow.vacuumed, if_neg hdead]
    rw [hhead] at hcount ⊢
    rw [ih (by omega)]

/-- **A vacuum.** The graph rows reported dead are tombstoned, the vectorless ones dropped, and
nothing else changes; the image is rewritten unless nothing changed at all. -/
theorem ambulkdelete_spec (arity : Nat) (isDead : TidPair → Bool) {image : Image}
    (V : image.Valid) :
    After (fun image' => image'.Valid ∧
        image'.graphRows = image.graphRows.map (GraphRow.vacuumed isDead) ∧
        image'.unrankable = image.unrankable.filter (fun row => !isDead row.1) ∧
        (image' = image ∨ image'.generation = image.generation + 1))
      (ambulkdelete arity isDead image) := by
  unfold ambulkdelete
  cases hload : image.load arity with
  | error fault => trivial
  | ok loaded =>
    obtain ⟨rfl, -⟩ := load_eq hload
    refine (tombstoneDead_spec isDead V).bind ?_
    rintro hnsw ⟨T, hrows⟩
    dsimp only
    split_ifs with hremoved
    · exact ⟨T, hrows, rfl, Or.inr rfl⟩
    · -- nothing was removed: no tombstone is new and no vectorless row went
      obtain ⟨hgraph, hunr⟩ := not_or.mp hremoved
      have hnew := T.deletedCount_eq
      rw [hrows] at hnew
      have hold : loaded.hnsw.deletedCount = loaded.graphRows.countP fun row => row.1.dead :=
        V.deletedCount_eq
      have hsame := map_vacuumed_eq isDead loaded.graphRows (by omega)
      refine ⟨V, hsame.symm, (List.filter_eq_self.mpr ?_).symm, Or.inl rfl⟩
      rw [← List.length_filter_eq_length_iff]
      have hle := List.length_filter_le (fun row : UnrankableRow => !isDead row.1) loaded.unrankable
      omega

end Brindle
