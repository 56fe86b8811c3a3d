/-
# Brindle.Lib.Tiling — runs laid end to end.

Runs of given widths, one behind another: run `i` starts at the sum of the widths before it. The runs
tile an interval, so a position lies in exactly one of them, and two of them never overlap. Where each
run is itself cut into runs, `offset_flatMap` says where a piece starts.
-/
import Mathlib.Algebra.BigOperators.Group.List.Basic
import Mathlib.Algebra.Order.Ring.Nat

namespace Tiling

/-- Where run `i` starts. -/
def offset (widths : List Nat) (i : Nat) : Nat := (widths.take i).sum

/-- Every boundary between runs, the two ends included. -/
def offsets (widths : List Nat) : List Nat := (List.range (widths.length + 1)).map (offset widths)

variable {widths : List Nat}

@[simp] theorem offset_zero (widths : List Nat) : offset widths 0 = 0 := rfl

@[simp] theorem offset_cons_succ (w : Nat) (widths : List Nat) (i : Nat) :
    offset (w :: widths) (i + 1) = w + offset widths i := by
  simp [offset]

theorem offset_length (widths : List Nat) : offset widths widths.length = widths.sum := by
  rw [offset, List.take_length]

theorem offset_succ {i : Nat} (hi : i < widths.length) :
    offset widths (i + 1) = offset widths i + widths.getD i 0 := by
  rw [offset, offset, List.take_add_one, List.sum_append]
  simp [hi]

theorem offset_mono {i j : Nat} (hij : i ≤ j) : offset widths i ≤ offset widths j := by
  obtain ⟨k, rfl⟩ := Nat.exists_eq_add_of_le hij
  rw [offset, offset, List.take_add, List.sum_append]
  exact Nat.le_add_right _ _

theorem offset_le_sum (i : Nat) : offset widths i ≤ widths.sum := by
  rcases Nat.le_total i widths.length with hi | hi
  · rw [← offset_length]
    exact offset_mono hi
  · rw [offset, List.take_of_length_le hi]

/-- A boundary of the first runs is where it was, whatever runs follow. -/
theorem offset_append_left {i : Nat} (hi : i ≤ widths.length) (more : List Nat) :
    offset (widths ++ more) i = offset widths i := by
  rw [offset, offset, List.take_append_of_le_length hi]

@[simp] theorem offsets_length (widths : List Nat) :
    (offsets widths).length = widths.length + 1 := by
  simp [offsets]

theorem offsets_getD {i : Nat} (hi : i ≤ widths.length) (d : Nat) :
    (offsets widths).getD i d = offset widths i := by
  have hlt : i < widths.length + 1 := by omega
  simp [offsets, List.getD_eq_getElem?_getD, hlt]

/-- One run more adds one boundary. -/
theorem offsets_concat (widths : List Nat) (w : Nat) :
    offsets (widths ++ [w]) = offsets widths ++ [widths.sum + w] := by
  have hlast : offset (widths ++ [w]) (widths.length + 1) = widths.sum + w := by
    rw [offset, List.take_of_length_le (by simp)]
    simp
  have hold : (List.range (widths.length + 1)).map (offset (widths ++ [w])) = offsets widths :=
    List.map_congr_left fun i hi =>
      offset_append_left (Nat.lt_succ_iff.mp (List.mem_range.mp hi)) [w]
  rw [offsets, List.length_append, List.length_singleton, List.range_succ, List.map_append, hold,
    List.map_singleton, hlast]

/-- The boundaries of runs that are not empty increase strictly. -/
theorem offsets_strict (hpos : ∀ w ∈ widths, 0 < w) : (offsets widths).Pairwise (· < ·) := by
  rw [offsets, List.pairwise_map]
  refine List.pairwise_lt_range.imp_of_mem fun {i j} hi hj hij => ?_
  have hlt : i < widths.length := by
    have := List.mem_range.mp hj
    omega
  have hwidth : 0 < widths.getD i 0 := by
    rw [List.getD_eq_getElem?_getD, List.getElem?_eq_getElem hlt]
    exact hpos _ (List.getElem_mem hlt)
  have hsucc := offset_succ hlt
  have hmono : offset widths (i + 1) ≤ offset widths j := offset_mono hij
  omega

/-! ## The tiling -/

/-- Two different runs do not overlap. -/
theorem disjoint {i j : Nat} (hi : i < widths.length) (hj : j < widths.length) (hne : i ≠ j) :
    offset widths i + widths.getD i 0 ≤ offset widths j ∨
      offset widths j + widths.getD j 0 ≤ offset widths i := by
  rw [← offset_succ hi, ← offset_succ hj]
  rcases Nat.lt_or_gt_of_ne hne with hlt | hgt
  · exact .inl (offset_mono hlt)
  · exact .inr (offset_mono hgt)

/-- A run ends where they all do, or before. -/
theorem run_le_sum {i : Nat} (hi : i < widths.length) :
    offset widths i + widths.getD i 0 ≤ widths.sum := by
  rw [← offset_succ hi]
  exact offset_le_sum _

/-- **The runs tile.** A position lies in exactly one of them. -/
theorem existsUnique_run {p : Nat} (hp : p < widths.sum) :
    ∃! i, i < widths.length ∧ offset widths i ≤ p ∧ p < offset widths i + widths.getD i 0 := by
  have hexists : ∃ i, i < widths.length ∧ offset widths i ≤ p ∧
      p < offset widths i + widths.getD i 0 := by
    induction widths generalizing p with
    | nil => exact absurd hp (Nat.not_lt_zero p)
    | cons w widths ih =>
      rcases Nat.lt_or_ge p w with hin | hout
      · exact ⟨0, by simp, by simp, by simpa using hin⟩
      · rw [List.sum_cons] at hp
        obtain ⟨i, hi, hlow, hhigh⟩ := ih (p := p - w) (by omega)
        refine ⟨i + 1, by simpa using hi, ?_, ?_⟩
        · rw [offset_cons_succ]
          omega
        · rw [offset_cons_succ, List.getD_cons_succ]
          omega
  obtain ⟨i, hi, hlow, hhigh⟩ := hexists
  refine ⟨i, ⟨hi, hlow, hhigh⟩, ?_⟩
  rintro j ⟨hj, hlow', hhigh'⟩
  by_contra hne
  rcases disjoint hi hj (Ne.symm hne) with hleft | hright <;> omega

/-! ## Runs cut into runs -/

/-- Where piece `l` of run `i` starts, and how wide it is. -/
theorem offset_flatMap {α : Type} (xs : List α) (f : α → List Nat) {i l : Nat} {x : α}
    (hx : xs[i]? = some x) (hl : l < (f x).length) :
    offset (xs.flatMap f) (offset (xs.map fun x => (f x).length) i + l) =
        offset (xs.map fun x => (f x).sum) i + offset (f x) l ∧
      (xs.flatMap f).getD (offset (xs.map fun x => (f x).length) i + l) 0 = (f x).getD l 0 ∧
      offset (xs.map fun x => (f x).length) i + l < (xs.flatMap f).length := by
  induction xs generalizing i with
  | nil => cases hx
  | cons y xs ih =>
    cases i with
    | zero =>
      cases hx
      refine ⟨?_, ?_, ?_⟩
      · simp [offset, List.take_append_of_le_length hl.le]
      · simp [List.getD_eq_getElem?_getD, List.getElem?_append_left hl]
      · simp only [offset_zero, List.flatMap_cons, List.length_append]
        omega
    | succ i =>
      obtain ⟨hoffset, hwidth, hlt⟩ := ih hx
      simp only [List.map_cons, offset_cons_succ, List.flatMap_cons]
      rw [Nat.add_assoc]
      refine ⟨?_, ?_, ?_⟩
      · rw [offset, List.take_length_add_append, List.sum_append, ← offset, hoffset]
        exact (Nat.add_assoc ..).symm
      · rw [List.getD_eq_getElem?_getD, List.getElem?_append_right (by omega), Nat.add_sub_cancel_left,
          ← List.getD_eq_getElem?_getD, hwidth]
      · rw [List.length_append]
        omega

end Tiling
