/-
# Brindle.Storage.Rows — the rows a graph stores, and what an insert or a delete does to them.

The storage layer looks at a graph through its rows only: the vector, the attributes and the
tombstone of each node, in id order. Linking a node reads and writes neighbor lists and nothing
else, so whatever the links are, an insert that returns an id has appended one row, one that is
refused has appended none, and a delete has set one tombstone.
-/
import Brindle.Hnsw.WellFormed

namespace Brindle

open Outcome (ensures_ok)
open Run (After after_foldlM_const after_iff after_true)

/-- What a graph stores of a node, its links apart. -/
structure Stored where
  vector : List F32
  attrs : List AttrValue
  dead : Bool
  deriving DecidableEq, Repr

/-- The row with its tombstone set. -/
def Stored.killed (row : Stored) : Stored := { row with dead := true }

namespace Hnsw

/-- The stored row of one node. -/
def rowAt (h : Hnsw) (id : Nat) : Stored := ⟨h.vec id, h.attrsOf id, h.isDeleted id⟩

/-- The stored rows, in id order. -/
def rows (h : Hnsw) : List Stored := (List.range h.n).map h.rowAt

/-- Every node has a whole row. -/
structure Rowed (h : Hnsw) : Prop where
  vectors_len : h.vectors.length = h.n * h.dim
  attrs_len : h.attrs.length = h.n
  deleted_len : h.deleted.length = h.n
  dim_pos : 0 < h.n → 0 < h.dim

theorem Sound.rowed {h : Hnsw} (S : Sound h) : Rowed h :=
  ⟨S.vectors_len, S.attrs_len, S.deleted_len, S.dim_pos⟩

@[simp] theorem rows_length (h : Hnsw) : h.rows.length = h.n := by
  simp [rows]

theorem rows_getElem? {h : Hnsw} {id : Nat} (hid : id < h.n) : h.rows[id]? = some (h.rowAt id) := by
  simp [rows, hid]

theorem Rowed.vector_eq {h : Hnsw} (H : Rowed h) {id : Nat} (hid : id < h.n) :
    h.vector id = .ok (h.vec id) := by
  apply Outcome.slice_ok
  rw [H.vectors_len]
  have hle : (id + 1) * h.dim ≤ h.n * h.dim := Nat.mul_le_mul_right _ hid
  rw [Nat.add_mul, Nat.one_mul] at hle
  exact hle

theorem matching_eq {h : Hnsw} (H : Rowed h) (predicate : Predicate) :
    h.matching predicate = .ok ((List.range h.n).filter fun id =>
      !h.isDeleted id && predicate.satisfiedBy (h.attrsOf id)) := by
  apply Outcome.filterM_ok
  intro id hid
  have hdeleted : id < h.deleted.length := by
    rw [H.deleted_len]
    exact List.mem_range.mp hid
  unfold admissible
  rw [Outcome.index_lt false hdeleted]
  rfl

/-! ## Linking changes no row -/

/-- The two graphs store the same rows. -/
structure SameRows (h h' : Hnsw) : Prop where
  n_eq : h'.n = h.n
  dim_eq : h'.dim = h.dim
  vectors_eq : h'.vectors = h.vectors
  attrs_eq : h'.attrs = h.attrs
  deleted_eq : h'.deleted = h.deleted

namespace SameRows

variable {h h' h'' : Hnsw}

theorem refl (h : Hnsw) : SameRows h h := ⟨rfl, rfl, rfl, rfl, rfl⟩

theorem trans (S : SameRows h h') (T : SameRows h' h'') : SameRows h h'' :=
  ⟨T.n_eq.trans S.n_eq, T.dim_eq.trans S.dim_eq, T.vectors_eq.trans S.vectors_eq,
    T.attrs_eq.trans S.attrs_eq, T.deleted_eq.trans S.deleted_eq⟩

theorem rows_eq (S : SameRows h h') : h'.rows = h.rows := by
  have hat : h'.rowAt = h.rowAt := by
    funext id
    simp only [rowAt, vec, attrsOf, isDeleted, S.dim_eq, S.vectors_eq, S.attrs_eq, S.deleted_eq]
  unfold rows
  rw [hat, S.n_eq]

theorem rowed (S : SameRows h h') (H : Rowed h) : Rowed h' where
  vectors_len := by rw [S.vectors_eq, S.n_eq, S.dim_eq]; exact H.vectors_len
  attrs_len := by rw [S.attrs_eq, S.n_eq]; exact H.attrs_len
  deleted_len := by rw [S.deleted_eq, S.n_eq]; exact H.deleted_len
  dim_pos := by rw [S.n_eq, S.dim_eq]; exact H.dim_pos

end SameRows

theorem sameRows_storeCount (h : Hnsw) (idx count : Nat) :
    After (SameRows h) (h.storeCount idx count) := by
  unfold storeCount
  split_ifs
  · exact ⟨rfl, rfl, rfl, rfl, rfl⟩
  · trivial

theorem sameRows_copyIntoLinks (h : Hnsw) (start : Nat) (ids : List Nat) :
    After (SameRows h) (h.copyIntoLinks start ids) := by
  unfold copyIntoLinks
  cases Outcome.overwrite h.links start ids with
  | error fault => trivial
  | ok links => exact ⟨rfl, rfl, rfl, rfl, rfl⟩

theorem sameRows_setNeighbors (h : Hnsw) (id layer : Nat) (ids : List Nat) :
    After (SameRows h) (h.setNeighbors id layer ids) := by
  unfold setNeighbors
  refine (after_true _).bind fun start _ => ?_
  refine (sameRows_copyIntoLinks h start ids).bind fun g hg => ?_
  refine (after_true _).bind fun base _ => ?_
  exact (sameRows_storeCount g _ _).mono fun _ => hg.trans

theorem sameRows_pushNeighbor (h : Hnsw) (id layer neighbor : Nat) :
    After (fun r => SameRows h r.1) (h.pushNeighbor id layer neighbor) := by
  unfold pushNeighbor
  refine (after_true _).bind fun base _ => (after_true _).bind fun count _ => ?_
  refine (after_true _).bind fun start _ => ?_
  refine (sameRows_copyIntoLinks h _ _).bind fun g hg => ?_
  exact (sameRows_storeCount g _ _).bind fun g' hg' => hg.trans hg'

variable [Arith]

theorem sameRows_linkBack (h : Hnsw) (id lc n : Nat) : After (SameRows h) (h.linkBack id lc n) := by
  unfold linkBack
  refine (sameRows_pushNeighbor h n lc (asU32 id)).bind ?_
  rintro ⟨g, len⟩ hg
  dsimp only
  split_ifs
  · exact hg
  · refine (after_true _).bind fun nbase _ => (after_true _).bind fun nbrs _ => ?_
    refine (after_true _).bind fun cands _ => (after_true _).bind fun kept _ => ?_
    exact (sameRows_setNeighbors g n lc _).mono fun _ => hg.trans

theorem sameRows_connectLayer (h : Hnsw) (query : List F32) (id lc : Nat) (epIds : List Nat)
    (tr : Traversal) : After (fun r => SameRows h r.1) (h.connectLayer query id lc epIds tr) := by
  unfold connectLayer
  refine (after_true _).bind ?_
  rintro ⟨w, tr'⟩ -
  refine (after_true _).bind fun selected _ => ?_
  refine (sameRows_setNeighbors h id lc _).bind fun g hg => ?_
  refine (after_foldlM_const (SameRows h) selected ?_ hg).bind fun g' hg' => hg'
  intro n g' _ hg'
  exact (sameRows_linkBack g' id lc n).mono fun _ => hg'.trans

theorem sameRows_connectLayers (h : Hnsw) (query : List F32) (id entry : Nat) (layers : List Nat)
    (epIds : List Nat) (tr : Traversal) :
    After (fun r => SameRows h r.1) (h.connectLayers query id entry layers epIds tr) := by
  unfold connectLayers
  refine after_foldlM_const (fun r : Hnsw × List Nat × Traversal => SameRows h r.1) layers ?_
    (SameRows.refl h)
  rintro lc ⟨g, epIds', tr'⟩ - hg
  refine (sameRows_connectLayer g query id lc epIds' tr').bind ?_
  rintro ⟨g', w, tr''⟩ hg'
  exact SameRows.trans hg hg'

theorem sameRows_linkNode (h : Hnsw) (id level : Nat) : After (SameRows h) (h.linkNode id level) := by
  unfold linkNode
  cases h.entryPoint with
  | none => exact ⟨rfl, rfl, rfl, rfl, rfl⟩
  | some entry =>
    refine (after_true _).bind fun query _ => (after_true _).bind ?_
    rintro ⟨epIds, tr⟩ -
    refine (sameRows_connectLayers h query id entry _ epIds tr).bind ?_
    rintro ⟨g, epIds', tr'⟩ hg
    dsimp only
    split_ifs
    · exact hg.trans ⟨rfl, rfl, rfl, rfl, rfl⟩
    · exact hg

/-! ## Inserting appends one row -/

omit [Arith] in
/-- The checks on a vector change no row, and an accepted vector has the graph's dimension. -/
theorem acceptVector_rows {h g : Hnsw} (H : Rowed h) {vector : List F32}
    (hv : h.acceptVector vector = .ok g) :
    Rowed g ∧ g.rows = h.rows ∧ g.n = h.n ∧ g.dim = vector.length ∧ 0 < g.dim := by
  unfold acceptVector at hv
  split at hv
  · cases hv
  rename_i hne
  have hpos : 0 < vector.length := by
    rw [List.isEmpty_iff] at hne
    exact List.length_pos_iff.mpr hne
  split at hv
  · cases hv
  split at hv
  · rename_i hdim
    cases hv
    -- a graph whose dimension is not fixed yet holds no row
    have hn : h.n = 0 := by
      by_contra hne
      have := H.dim_pos (Nat.pos_of_ne_zero hne)
      omega
    refine ⟨⟨?_, H.attrs_len, H.deleted_len, fun _ => hpos⟩, ?_, rfl, rfl, hpos⟩
    · have hlen := H.vectors_len
      rw [hn, Nat.zero_mul] at hlen
      show h.vectors.length = h.n * vector.length
      rw [hn, hlen, Nat.zero_mul]
    · simp [rows, hn]
  · split at hv
    · cases hv
    · rename_i hdim hsame
      cases hv
      have hsame : h.dim = vector.length := by omega
      exact ⟨H, rfl, rfl, hsame, by omega⟩

omit [Arith] in
/-- Storing a node appends its row, under the next id. -/
theorem pushNode_rows {h g : Hnsw} (H : Rowed h) {vector : List F32} {attrs : List AttrValue}
    {levels id : Nat} (hdim : h.dim = vector.length) (hpos : 0 < h.dim)
    (hp : h.pushNode vector attrs levels = .ok (g, id)) :
    id = h.n ∧ Rowed g ∧ g.n = h.n + 1 ∧ g.rows = h.rows ++ [⟨vector, attrs, false⟩] := by
  unfold pushNode at hp
  split at hp
  · cases hp
  obtain ⟨base, -, hp⟩ := Outcome.bind_eq_ok.mp hp
  cases hp
  refine ⟨rfl, ⟨?_, ?_, ?_, fun _ => hpos⟩, rfl, ?_⟩
  · show (h.vectors ++ vector).length = (h.n + 1) * h.dim
    rw [List.length_append, H.vectors_len, hdim, Nat.add_mul, Nat.one_mul]
  · simp [H.attrs_len]
  · simp [H.deleted_len]
  · show (List.range (h.n + 1)).map _ = _
    rw [List.range_succ, List.map_append, List.map_singleton]
    congr 1
    · apply List.map_congr_left
      intro i hi
      have hlt : i < h.n := List.mem_range.mp hi
      have hvec : (i + 1) * h.dim ≤ h.n * h.dim := Nat.mul_le_mul_right _ hlt
      rw [Nat.add_mul, Nat.one_mul] at hvec
      simp only [rowAt, vec, attrsOf, isDeleted, Stored.mk.injEq, List.getD_eq_getElem?_getD]
      refine ⟨Buffer.window_append_left (by rw [H.vectors_len]; exact hvec), ?_, ?_⟩
      · rw [List.getElem?_append_left (by rw [H.attrs_len]; exact hlt)]
      · rw [List.getElem?_append_left (by rw [H.deleted_len]; exact hlt)]
    · simp only [rowAt, vec, attrsOf, isDeleted, List.getD_eq_getElem?_getD, List.cons.injEq,
        Stored.mk.injEq, and_true]
      refine ⟨?_, ?_, ?_⟩
      · rw [← H.vectors_len, hdim, Buffer.window_append_right]
      · rw [← H.attrs_len, List.getElem?_concat_length]
        rfl
      · rw [← H.deleted_len, List.getElem?_concat_length]
        rfl

/-- What an insert did to the rows: an id means one row more, an error means none. -/
def InsertedRow (h : Hnsw) (vector : List F32) (attrs : List AttrValue)
    (r : Hnsw × Except HnswError Nat) : Prop :=
  Rowed r.1 ∧ match r.2 with
    | .ok id => id = h.n ∧ r.1.rows = h.rows ++ [⟨vector, attrs, false⟩]
    | .error _ => r.1.rows = h.rows

/-- **An insert appends its row, or nothing**, at any level. -/
theorem insertDrawn_rows {h : Hnsw} (H : Rowed h) (vector : List F32) (attrs : List AttrValue)
    (level : Nat) : After (InsertedRow h vector attrs) (h.insertDrawn vector attrs level) := by
  unfold insertDrawn
  cases hv : h.acceptVector vector with
  | error e => exact ⟨H, rfl⟩
  | ok h₁ =>
    obtain ⟨H₁, hrows, hn, hdim, hpos⟩ := acceptVector_rows H hv
    have S : SameRows h₁ { h₁ with rng := xorshift64 h₁.rng } := ⟨rfl, rfl, rfl, rfl, rfl⟩
    dsimp only
    unfold storeAndLink
    cases hp : Hnsw.pushNode { h₁ with rng := xorshift64 h₁.rng } vector attrs (level + 1) with
    | error fault =>
      cases fault with
      | error e => exact ⟨S.rowed H₁, S.rows_eq.trans hrows⟩
      | panic => trivial
      | fuel => trivial
    | ok pushed =>
      obtain ⟨g, id⟩ := pushed
      obtain ⟨rfl, G, -, hg⟩ := pushNode_rows (S.rowed H₁) hdim hpos hp
      refine (sameRows_linkNode g _ _).bind fun g' hg' => ?_
      refine ⟨hg'.rowed G, hn, ?_⟩
      rw [hg'.rows_eq, hg, S.rows_eq, hrows]

theorem insertWithAttrs_rows {h : Hnsw} (H : Rowed h) (vector : List F32) (attrs : List AttrValue) :
    After (InsertedRow h vector attrs) (h.insertWithAttrs vector attrs) := by
  rw [insertWithAttrs_eq]
  exact insertDrawn_rows H vector attrs h.drawnLevel

/-! ## Deleting sets one tombstone -/

omit [Arith] in
/-- **A delete tombstones its row**, when there is one. -/
theorem delete_rows {h g : Hnsw} (H : Rowed h) {id : Nat} (hdel : h.delete id = .ok g) :
    Rowed g ∧ id < h.n ∧ g.rows = h.rows.modify id Stored.killed := by
  obtain ⟨hid, rfl⟩ := delete_eq hdel
  rw [H.deleted_len] at hid
  refine ⟨⟨H.vectors_len, H.attrs_len, ?_, H.dim_pos⟩, hid, ?_⟩
  · rw [List.length_set]
    exact H.deleted_len
  · apply List.ext_getElem?
    intro i
    rw [List.getElem?_modify]
    rcases Nat.lt_or_ge i h.n with hi | hi
    · rw [rows_getElem? hi, rows_getElem? (h := { h with deleted := h.deleted.set id true }) hi]
      have hset : (h.deleted.set id true).getD i false =
          if id = i then true else h.deleted.getD i false := by
        rw [List.getD_eq_getElem?_getD, List.getElem?_set, H.deleted_len]
        by_cases hii : id = i <;> simp [hii, hi]
      simp only [rowAt, isDeleted, hset]
      by_cases hii : id = i
      · simp [hii, Stored.killed, vec, attrsOf]
      · simp [hii, vec, attrsOf]
    · rw [List.getElem?_eq_none (by simpa using hi), List.getElem?_eq_none (by simpa using hi)]
      simp

end Hnsw

end Brindle
