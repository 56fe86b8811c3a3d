/-
# Brindle.Hnsw.Layout — the flat arrays as node records.

`Layout h` says that the parallel arrays of `h` describe `h.n` nodes: the prefix sums are strictly
increasing and fit a `u32`, every array has the length they imply, and no live count exceeds its
slot run. Under it every accessor of the source reads what the total functions below say
(`vec`, `levelsOf`, `nbrs`); where the lists lie is the matter of `Slots`, and the two mutators change
exactly one neighbor list.
-/
import Brindle.Hnsw.Slots

namespace Brindle

open Outcome (index slice overwrite Ensures)
open Buffer

namespace Hnsw

/-! ## Total views -/

/-- The neighbor list of `id` at `layer`; empty where the node has no such layer. -/
def nbrs (h : Hnsw) (id layer : Nat) : List Nat :=
  if h.Owns id layer then window h.links (h.slotAt id layer) (h.countOf id layer) else []

/-- The stored vector of `id`. -/
def vec (h : Hnsw) (id : Nat) : List F32 := window h.vectors (id * h.dim) h.dim

/-- Whether `id` is tombstoned. -/
def isDeleted (h : Hnsw) (id : Nat) : Bool := h.deleted.getD id false

/-- Whether `id` is a stored, live node. -/
def Live (h : Hnsw) (id : Nat) : Prop := id < h.n ∧ h.isDeleted id = false

instance (h : Hnsw) (id : Nat) : Decidable (h.Live id) := inferInstanceAs (Decidable (_ ∧ _))

/-- The flat arrays describe `h.n` nodes. -/
structure Layout (h : Hnsw) : Prop where
  base_len : h.layerBase.length = h.n + 1
  base_zero : h.base 0 = 0
  base_lt : ∀ id < h.n, h.base id < h.base (id + 1)
  fits : h.base h.n < 2 ^ 32
  counts_len : h.linkCounts.length = h.base h.n
  counts_le : ∀ id layer, h.Owns id layer → h.countOf id layer ≤ h.slotWidth layer
  links_len : h.links.length = h.runStart h.n
  vectors_len : h.vectors.length = h.n * h.dim
  attrs_len : h.attrs.length = h.n
  deleted_len : h.deleted.length = h.n

namespace Layout

variable {h : Hnsw} (L : Layout h)
include L

/-! ## Places -/

/-- What concerns the lists is `Slots`, which does not ask the offsets to fit. -/
theorem slots : Slots h where
  base_len := L.base_len
  base_zero := L.base_zero
  base_lt := L.base_lt
  counts_len := L.counts_len
  counts_le := L.counts_le
  links_len := L.links_len

theorem base_mono {a b : Nat} (hab : a ≤ b) (hb : b ≤ h.n) : h.base a ≤ h.base b :=
  L.slots.base_mono hab hb

theorem le_base {id : Nat} (hid : id ≤ h.n) : id ≤ h.base id := L.slots.le_base hid

/-- No offset has wrapped. -/
theorem base_lt_u32 {id : Nat} (hid : id ≤ h.n) : h.base id < 2 ^ 32 :=
  lt_of_le_of_lt (L.base_mono hid le_rfl) L.fits

/-- Each node has a layer, so the ids are fewer than the layers. -/
theorem n_lt_u32 : h.n < 2 ^ 32 := lt_of_le_of_lt (L.le_base le_rfl) L.fits

theorem levelsOf_pos {id : Nat} (hid : id < h.n) : 0 < h.levelsOf id := L.slots.levelsOf_pos hid

theorem base_succ {id : Nat} (hid : id < h.n) : h.base (id + 1) = h.base id + h.levelsOf id :=
  L.slots.base_succ hid

theorem count_lt {id layer : Nat} (ho : h.Owns id layer) :
    h.base id + layer < h.linkCounts.length :=
  L.slots.count_lt ho

theorem runStart_succ {id : Nat} (hid : id < h.n) :
    h.runStart (id + 1) =
      h.runStart id + (h.slotWidth 0 + (h.levelsOf id - 1) * h.slotWidth 1) :=
  L.slots.runStart_succ hid

theorem runStart_mono {a b : Nat} (hab : a ≤ b) (hb : b ≤ h.n) : h.runStart a ≤ h.runStart b :=
  L.slots.runStart_mono hab hb

theorem slot_fits {id layer : Nat} (ho : h.Owns id layer) :
    h.slotAt id layer + h.slotWidth layer ≤ h.links.length :=
  L.slots.slot_fits ho

/-! ## Reads -/

theorem index_layerBase {id : Nat} (hid : id ≤ h.n) :
    (index h.layerBase id : Outcome HnswError Nat) = .ok (h.base id) :=
  L.slots.index_layerBase hid

/-- The subtraction of two offsets is exact: neither has wrapped, and they increase. -/
theorem levels_eq {id : Nat} (hid : id < h.n) : h.levels id = .ok (h.levelsOf id) := by
  have hlt := L.base_lt id hid
  have hfit := L.base_lt_u32 (show id + 1 ≤ h.n from hid)
  have hsub : (h.base (id + 1) + 2 ^ 32 - h.base id) % 2 ^ 32 = h.levelsOf id := by
    unfold levelsOf
    omega
  simp only [levels, L.index_layerBase (show id + 1 ≤ h.n from hid), L.index_layerBase hid.le,
    Outcome.ok_bind, hsub]
  rfl

/-- Where the source computes a list to begin. -/
theorem layerSlot_eq {id : Nat} (layer : Nat) (hid : id < h.n) :
    h.layerSlot id layer = .ok (h.slotAt id layer) :=
  L.slots.layerSlot_eq layer hid.le

theorem index_linkCounts {id layer : Nat} (ho : h.Owns id layer) :
    (index h.linkCounts (h.base id + layer) : Outcome HnswError Nat) = .ok (h.countOf id layer) :=
  L.slots.index_linkCounts ho

/-- A live count keeps its list inside the slots. -/
theorem window_fits {id layer : Nat} (ho : h.Owns id layer) :
    h.slotAt id layer + h.countOf id layer ≤ h.links.length :=
  L.slots.window_fits ho

/-- **The accessor of the lists** returns the list of a layer the node has, and else nothing. -/
theorem neighbors_eq (id layer : Nat) : h.neighbors id layer = .ok (h.nbrs id layer) := by
  unfold neighbors nbrs
  by_cases hid : id < h.n
  · rw [if_neg (by omega), L.levels_eq hid, Outcome.ok_bind]
    by_cases hl : layer < h.levelsOf id
    · have ho : h.Owns id layer := ⟨hid, hl⟩
      rw [if_neg (by omega), if_pos ho, L.layerSlot_eq layer hid, Outcome.ok_bind,
        L.index_layerBase hid.le, Outcome.ok_bind, L.index_linkCounts ho, Outcome.ok_bind,
        slice_eq (L.window_fits ho)]
    · rw [if_pos (by omega), if_neg (fun ho => hl ho.2)]
      rfl
  · rw [if_pos (by omega), if_neg (fun ho => hid ho.1)]
    rfl

/-- A list is as long as its live count. -/
theorem nbrs_length {id layer : Nat} (ho : h.Owns id layer) :
    (h.nbrs id layer).length = h.countOf id layer := by
  unfold nbrs
  rw [if_pos ho, window_length (L.window_fits ho)]

omit L in
/-- No list where the node has no layer. -/
theorem nbrs_of_not_owns {id layer : Nat} (ho : ¬ h.Owns id layer) : h.nbrs id layer = [] :=
  if_neg ho

theorem vector_fits {id : Nat} (hid : id < h.n) : id * h.dim + h.dim ≤ h.vectors.length := by
  have hmul : (id + 1) * h.dim ≤ h.n * h.dim := Nat.mul_le_mul_right _ hid
  rw [L.vectors_len]
  rw [Nat.add_one_mul] at hmul
  exact hmul

/-- Vectors lie one after another, each of the dimension. -/
theorem vector_eq {id : Nat} (hid : id < h.n) : h.vector id = .ok (h.vec id) :=
  slice_eq (L.vector_fits hid)

theorem vec_length {id : Nat} (hid : id < h.n) : (h.vec id).length = h.dim :=
  window_length (L.vector_fits hid)

/-- The tombstone of a stored node is there to be read. -/
theorem index_deleted {id : Nat} (hid : id < h.n) :
    (index h.deleted id : Outcome HnswError Bool) = .ok (h.isDeleted id) :=
  Outcome.index_lt false (by rw [L.deleted_len]; exact hid)

/-- What a search may return: a live node that matches. -/
theorem admissible_eq {id : Nat} (predicate : Option Predicate) (hid : id < h.n) :
    h.admissible id predicate = .ok (!h.isDeleted id && h.nodeMatches id predicate) := by
  simp only [admissible, L.index_deleted hid, Outcome.ok_bind]
  rfl

/-- The attribute row of a stored node is there to be read. -/
theorem index_attrs {id : Nat} (hid : id < h.n) :
    (index h.attrs id : Outcome HnswError (List AttrValue)) = .ok (h.attrsOf id) :=
  Outcome.index_lt [] (by rw [L.attrs_len]; exact hid)

end Layout

/-- Vectors of one length have a distance. -/
theorem distance_ok [Arith] (h : Hnsw) {a b : List F32} (hab : a.length = b.length) :
    h.distance a b = .ok (h.metric.value a b) := by
  unfold distance
  rw [Metric.distance_eq h.metric hab]

end Hnsw

end Brindle
