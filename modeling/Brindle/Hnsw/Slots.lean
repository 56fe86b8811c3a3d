/-
# Brindle.Hnsw.Slots — where the lists of a graph lie.

`link_base` and `layer_slot` compute a list's place from the prefix sums of the layer counts. `Slots h`
says that the prefix sums are exact and that the array of counts and the array of links have the
lengths they imply. Then the counts of a node are one run of the first array, its lists are one run of
the second, and the slots of all lists tile it: read layer by layer they lie end to end, in the order
of the counts (`slotWidths`), so that both places follow from one tiling.
-/
import Brindle.Hnsw.Graph
import Brindle.Lib.Buffer
import Brindle.Lib.Tiling

namespace Brindle

open Outcome (index)
open Buffer (window)
open Tiling (offset offsets)

namespace Hnsw

/-! ## Total views -/

/-- Entry `id` of the prefix sums. -/
def base (h : Hnsw) (id : Nat) : Nat := h.layerBase.getD id 0

/-- The number of layers node `id` owns. -/
def levelsOf (h : Hnsw) (id : Nat) : Nat := h.base (id + 1) - h.base id

/-- Node `id` exists and takes part in `layer`. -/
def Owns (h : Hnsw) (id layer : Nat) : Prop := id < h.n ∧ layer < h.levelsOf id

instance (h : Hnsw) (id layer : Nat) : Decidable (h.Owns id layer) :=
  inferInstanceAs (Decidable (_ ∧ _))

/-- Where node `id`'s slot run starts. -/
def runStart (h : Hnsw) (id : Nat) : Nat :=
  id * h.slotWidth 0 + (h.base id - id) * h.slotWidth 1

/-- Where the slots of `id` at `layer` start. -/
def slotAt (h : Hnsw) (id layer : Nat) : Nat := h.runStart id + h.slotWithin layer

/-- The live count stored for `id` at `layer`. -/
def countOf (h : Hnsw) (id layer : Nat) : Nat := h.linkCounts.getD (h.base id + layer) 0

/-- How many layers each node takes. -/
def layerCounts (h : Hnsw) : List Nat := (List.range h.n).map h.levelsOf

/-- The widths of all slot runs, node by node and layer by layer. -/
def slotWidths (h : Hnsw) : List Nat :=
  h.layerCounts.flatMap fun count => (List.range count).map h.slotWidth

/-- The prefix sums are those of nodes with a layer each, and the other two arrays have the lengths
they imply; no list has outgrown its slots. -/
structure Slots (h : Hnsw) : Prop where
  base_len : h.layerBase.length = h.n + 1
  base_zero : h.base 0 = 0
  base_lt : ∀ id < h.n, h.base id < h.base (id + 1)
  counts_len : h.linkCounts.length = h.base h.n
  counts_le : ∀ id layer, h.Owns id layer → h.countOf id layer ≤ h.slotWidth layer
  links_len : h.links.length = h.runStart h.n

/-! ## Widths -/

theorem slotWidth_upper (h : Hnsw) {layer : Nat} (hl : layer ≠ 0) :
    h.slotWidth layer = h.slotWidth 1 := by
  simp [slotWidth, maxDegree, hl]

/-- A layer's slots start behind those of the layers below it. -/
theorem slotWithin_eq (h : Hnsw) (layer : Nat) :
    h.slotWithin layer = ((List.range layer).map h.slotWidth).sum := by
  induction layer with
  | zero => rfl
  | succ layer ih =>
    rw [List.range_succ, List.map_append, List.sum_append, ← ih, List.map_singleton,
      List.sum_singleton]
    cases layer with
    | zero => simp [slotWithin]
    | succ layer =>
      rw [slotWidth_upper h (Nat.succ_ne_zero layer)]
      simp only [slotWithin, Nat.add_one_ne_zero, if_false, Nat.add_sub_cancel]
      rw [Nat.add_one_mul, Nat.add_assoc]

theorem offset_layerWidths (h : Hnsw) {count layer : Nat} (hle : layer ≤ count) :
    offset ((List.range count).map h.slotWidth) layer = h.slotWithin layer := by
  rw [slotWithin_eq, offset, ← List.map_take, List.take_range, Nat.min_eq_left hle]

@[simp] theorem layerCounts_length (h : Hnsw) : h.layerCounts.length = h.n := by
  simp [layerCounts]

theorem layerCounts_getElem? {h : Hnsw} {id : Nat} (hid : id < h.n) :
    h.layerCounts[id]? = some (h.levelsOf id) := by
  simp [layerCounts, hid]

theorem layerCounts_getD {h : Hnsw} {id : Nat} (hid : id < h.n) :
    h.layerCounts.getD id 0 = h.levelsOf id := by
  rw [List.getD_eq_getElem?_getD, layerCounts_getElem? hid]
  rfl

namespace Slots

variable {h : Hnsw} (S : Slots h)
include S

/-! ## The prefix sums -/

theorem levelsOf_pos {id : Nat} (hid : id < h.n) : 0 < h.levelsOf id := by
  have hstep := S.base_lt id hid
  unfold levelsOf
  omega

theorem layerCounts_pos : ∀ count ∈ h.layerCounts, 0 < count := by
  intro count hcount
  obtain ⟨id, hid, rfl⟩ := List.mem_map.mp hcount
  exact S.levelsOf_pos (List.mem_range.mp hid)

theorem base_succ {id : Nat} (hid : id < h.n) : h.base (id + 1) = h.base id + h.levelsOf id := by
  have hstep := S.base_lt id hid
  unfold levelsOf
  omega

theorem base_eq_offset {id : Nat} (hid : id ≤ h.n) : h.base id = offset h.layerCounts id := by
  induction id with
  | zero => exact S.base_zero
  | succ id ih =>
    have hlt : id < h.layerCounts.length := by
      rw [layerCounts_length]
      exact hid
    rw [S.base_succ hid, ih (Nat.le_of_succ_le hid), Tiling.offset_succ hlt, layerCounts_getD hid]

theorem layerCounts_sum : h.layerCounts.sum = h.base h.n := by
  rw [S.base_eq_offset le_rfl, ← Tiling.offset_length, layerCounts_length]

/-- The array of prefix sums holds the boundaries between the nodes. -/
theorem layerBase_eq : h.layerBase = offsets h.layerCounts := by
  apply List.ext_getElem?
  intro i
  rcases Nat.lt_or_ge i (h.n + 1) with hlt | hge
  · have hbase : h.layerBase[i]? = some (h.base i) := by
      rw [base, List.getD_eq_getElem?_getD, List.getElem?_eq_getElem (by rw [S.base_len]; exact hlt)]
      rfl
    have hoffset : (offsets h.layerCounts)[i]? = some (offset h.layerCounts i) := by
      simp [offsets, hlt]
    rw [hbase, hoffset, S.base_eq_offset (Nat.lt_succ_iff.mp hlt)]
  · rw [List.getElem?_eq_none (by rw [S.base_len]; exact hge),
      List.getElem?_eq_none (by simpa using hge)]

theorem base_mono {a b : Nat} (hab : a ≤ b) (hb : b ≤ h.n) : h.base a ≤ h.base b := by
  rw [S.base_eq_offset (hab.trans hb), S.base_eq_offset hb]
  exact Tiling.offset_mono hab

theorem le_base {id : Nat} (hid : id ≤ h.n) : id ≤ h.base id := by
  induction id with
  | zero => exact Nat.zero_le _
  | succ id ih =>
    have hstep := S.base_lt id (by omega)
    have hrec := ih (by omega)
    omega

theorem count_lt {id layer : Nat} (ho : h.Owns id layer) :
    h.base id + layer < h.linkCounts.length := by
  have hsucc := S.base_succ ho.1
  have hmono := S.base_mono (show id + 1 ≤ h.n from ho.1) le_rfl
  have hlt := ho.2
  rw [S.counts_len]
  omega

/-- Distinct (node, layer) pairs have distinct counts. -/
theorem count_inj {a la b lb : Nat} (ha : h.Owns a la) (hb : h.Owns b lb)
    (heq : h.base a + la = h.base b + lb) : a = b ∧ la = lb := by
  have hab : a = b := by
    by_contra hne
    have hla := ha.2
    have hlb := hb.2
    rw [S.base_eq_offset ha.1.le, S.base_eq_offset hb.1.le] at heq
    rcases Tiling.disjoint (by rw [layerCounts_length]; exact ha.1)
        (by rw [layerCounts_length]; exact hb.1) hne with hd | hd
    · rw [layerCounts_getD ha.1] at hd
      omega
    · rw [layerCounts_getD hb.1] at hd
      omega
  subst hab
  exact ⟨rfl, Nat.add_left_cancel heq⟩

/-! ## The slot runs -/

theorem runStart_succ {id : Nat} (hid : id < h.n) :
    h.runStart (id + 1) =
      h.runStart id + (h.slotWidth 0 + (h.levelsOf id - 1) * h.slotWidth 1) := by
  have hsucc := S.base_succ hid
  have hpos := S.levelsOf_pos hid
  have hle := S.le_base hid.le
  have hupper : h.base (id + 1) - (id + 1) = (h.base id - id) + (h.levelsOf id - 1) := by omega
  unfold runStart
  rw [hupper, Nat.add_mul, Nat.add_mul]
  omega

theorem runStart_eq_offset {id : Nat} (hid : id ≤ h.n) :
    h.runStart id = offset (h.layerCounts.map h.slotWithin) id := by
  induction id with
  | zero => simp [runStart, S.base_zero]
  | succ id ih =>
    have hlt : id < (h.layerCounts.map h.slotWithin).length := by
      rw [List.length_map, layerCounts_length]
      exact hid
    have hwithin : h.slotWithin (h.levelsOf id) =
        h.slotWidth 0 + (h.levelsOf id - 1) * h.slotWidth 1 :=
      if_neg (S.levelsOf_pos hid).ne'
    rw [S.runStart_succ hid, ih (Nat.le_of_succ_le hid), Tiling.offset_succ hlt,
      List.getD_eq_getElem?_getD, List.getElem?_map, layerCounts_getElem? hid, ← hwithin]
    rfl

theorem runStart_mono {a b : Nat} (hab : a ≤ b) (hb : b ≤ h.n) : h.runStart a ≤ h.runStart b := by
  rw [S.runStart_eq_offset (hab.trans hb), S.runStart_eq_offset hb]
  exact Tiling.offset_mono hab

/-- The slots of `id` at `layer` are the run of the same place as its count. -/
theorem slot_run {id layer : Nat} (ho : h.Owns id layer) :
    offset h.slotWidths (h.base id + layer) = h.slotAt id layer ∧
      h.slotWidths.getD (h.base id + layer) 0 = h.slotWidth layer ∧
      h.base id + layer < h.slotWidths.length := by
  have hlayer : layer < ((List.range (h.levelsOf id)).map h.slotWidth).length := by
    simpa using ho.2
  have hlengths : (h.layerCounts.map fun count => ((List.range count).map h.slotWidth).length) =
      h.layerCounts := by
    simp
  have hsums : (h.layerCounts.map fun count => ((List.range count).map h.slotWidth).sum) =
      h.layerCounts.map h.slotWithin :=
    List.map_congr_left fun count _ => (slotWithin_eq h count).symm
  obtain ⟨hoffset, hwidth, hlt⟩ := Tiling.offset_flatMap h.layerCounts
    (fun count => (List.range count).map h.slotWidth) (layerCounts_getElem? ho.1) hlayer
  rw [hlengths, ← S.base_eq_offset ho.1.le] at hoffset hwidth hlt
  refine ⟨?_, ?_, hlt⟩
  · rw [slotWidths, hoffset, hsums, ← S.runStart_eq_offset ho.1.le, offset_layerWidths h ho.2.le]
    rfl
  · rw [slotWidths, hwidth, List.getD_eq_getElem?_getD, List.getElem?_map,
      List.getElem?_range ho.2]
    rfl

theorem slotWidths_length : h.slotWidths.length = h.base h.n := by
  rw [slotWidths, List.length_flatMap, ← S.layerCounts_sum]
  simp

/-- Together the runs are the array. -/
theorem slotWidths_sum : h.slotWidths.sum = h.links.length := by
  have hsums : (h.layerCounts.map fun count => ((List.range count).map h.slotWidth).sum) =
      h.layerCounts.map h.slotWithin :=
    List.map_congr_left fun count _ => (slotWithin_eq h count).symm
  have hlen : (h.layerCounts.map h.slotWithin).length = h.n := by simp
  rw [S.links_len, S.runStart_eq_offset le_rfl, ← hlen, Tiling.offset_length, ← hsums, slotWidths,
    List.flatMap_def, List.sum_flatten, List.map_map]
  rfl

theorem slot_fits {id layer : Nat} (ho : h.Owns id layer) :
    h.slotAt id layer + h.slotWidth layer ≤ h.links.length := by
  obtain ⟨hoffset, hwidth, hlt⟩ := S.slot_run ho
  rw [← S.slotWidths_sum, ← hoffset, ← hwidth]
  exact Tiling.run_le_sum hlt

/-- Two different slot runs do not overlap. -/
theorem slot_disjoint {a la b lb : Nat} (ha : h.Owns a la) (hb : h.Owns b lb)
    (hne : ¬ (a = b ∧ la = lb)) :
    h.slotAt a la + h.slotWidth la ≤ h.slotAt b lb ∨
      h.slotAt b lb + h.slotWidth lb ≤ h.slotAt a la := by
  obtain ⟨hoffset, hwidth, hlt⟩ := S.slot_run ha
  obtain ⟨hoffset', hwidth', hlt'⟩ := S.slot_run hb
  rw [← hoffset, ← hwidth, ← hoffset', ← hwidth']
  exact Tiling.disjoint hlt hlt' fun heq => hne (S.count_inj ha hb heq)

/-- A position of the array of counts is a layer of one node. -/
theorem exists_owner {i : Nat} (hi : i < h.base h.n) :
    ∃ id layer, h.Owns id layer ∧ h.base id + layer = i := by
  rw [← S.layerCounts_sum] at hi
  obtain ⟨id, ⟨hid, hlow, hhigh⟩, -⟩ := Tiling.existsUnique_run hi
  rw [layerCounts_length] at hid
  rw [← S.base_eq_offset hid.le] at hlow hhigh
  rw [layerCounts_getD hid] at hhigh
  exact ⟨id, i - h.base id, ⟨hid, by omega⟩, by omega⟩

/-- **The slots tile the array of links.** A position lies in the slots of one layer of one node. -/
theorem existsUnique_slot {p : Nat} (hp : p < h.links.length) :
    ∃! s : Nat × Nat, h.Owns s.1 s.2 ∧ h.slotAt s.1 s.2 ≤ p ∧
      p < h.slotAt s.1 s.2 + h.slotWidth s.2 := by
  rw [← S.slotWidths_sum] at hp
  obtain ⟨i, ⟨hi, hlow, hhigh⟩, -⟩ := Tiling.existsUnique_run hp
  rw [S.slotWidths_length] at hi
  obtain ⟨id, layer, ho, rfl⟩ := S.exists_owner hi
  obtain ⟨hoffset, hwidth, -⟩ := S.slot_run ho
  rw [hoffset] at hlow hhigh
  rw [hwidth] at hhigh
  refine ⟨(id, layer), ⟨ho, hlow, hhigh⟩, ?_⟩
  rintro ⟨b, lb⟩ ⟨hb, hlow', hhigh'⟩
  by_contra hne
  have hne' : ¬ (b = id ∧ lb = layer) := fun heq => hne (Prod.ext heq.1 heq.2)
  rcases S.slot_disjoint hb ho hne' with hd | hd <;> omega

/-! ## Reads -/

theorem index_layerBase {id : Nat} (hid : id ≤ h.n) :
    (index h.layerBase id : Outcome HnswError Nat) = .ok (h.base id) :=
  Outcome.index_lt 0 (by rw [S.base_len]; omega)

theorem layerSlot_eq {id : Nat} (layer : Nat) (hid : id ≤ h.n) :
    h.layerSlot id layer = .ok (h.slotAt id layer) := by
  simp only [layerSlot, linkBase, S.index_layerBase hid, Outcome.ok_bind]
  rfl

theorem index_linkCounts {id layer : Nat} (ho : h.Owns id layer) :
    (index h.linkCounts (h.base id + layer) : Outcome HnswError Nat) = .ok (h.countOf id layer) :=
  Outcome.index_lt 0 (S.count_lt ho)

theorem window_fits {id layer : Nat} (ho : h.Owns id layer) :
    h.slotAt id layer + h.countOf id layer ≤ h.links.length := by
  have hfit := S.slot_fits ho
  have hcount := S.counts_le id layer ho
  omega

end Slots

end Hnsw

end Brindle
