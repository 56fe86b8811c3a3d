/-
# Brindle.Lib.Buffer — windows into a flat buffer, and writes that stay inside one.

A flat array that packs many variable-length records into fixed-width runs is read by taking a
window of it and written by splicing a run in place. The facts here are the whole calculus of that
layout: what a splice does to the window it covers, that it does nothing to a window it misses, and
that appending at the end disturbs no earlier window.
-/
import Brindle.Lib.Outcome
import Mathlib.Tactic.SplitIfs

namespace Buffer

variable {ε α : Type}

/-- `count` elements from `start`. -/
def window (xs : List α) (start count : Nat) : List α := (xs.drop start).take count

/-- `xs` with the run at `start` replaced by `ys`. -/
def splice (xs : List α) (start : Nat) (ys : List α) : List α :=
  xs.take start ++ ys ++ xs.drop (start + ys.length)

theorem getElem?_window (xs : List α) (start count i : Nat) :
    (window xs start count)[i]? = if i < count then xs[start + i]? else none := by
  simp only [window, List.getElem?_take, List.getElem?_drop]

theorem window_length {xs : List α} {start count : Nat} (h : start + count ≤ xs.length) :
    (window xs start count).length = count := by
  simp only [window, List.length_take, List.length_drop]
  omega

theorem window_zero (xs : List α) (start : Nat) : window xs start 0 = [] := by
  simp [window]

theorem splice_length {xs ys : List α} {start : Nat} (h : start + ys.length ≤ xs.length) :
    (splice xs start ys).length = xs.length := by
  simp only [splice, List.length_append, List.length_take, List.length_drop]
  omega

theorem getElem?_splice {xs ys : List α} {start : Nat} (h : start + ys.length ≤ xs.length)
    (i : Nat) :
    (splice xs start ys)[i]? =
      if start ≤ i ∧ i < start + ys.length then ys[i - start]? else xs[i]? := by
  have htake : (xs.take start).length = start := by
    rw [List.length_take]
    omega
  rw [splice, List.append_assoc, List.getElem?_append, htake]
  by_cases hlo : i < start
  · rw [if_pos hlo, if_neg (by omega), List.getElem?_take, if_pos hlo]
  · rw [if_neg hlo, List.getElem?_append]
    by_cases hhi : i - start < ys.length
    · rw [if_pos hhi, if_pos (by omega)]
    · rw [if_neg hhi, if_neg (by omega), List.getElem?_drop]
      congr 1
      omega

/-- A window the splice misses keeps its contents. -/
theorem window_splice_of_disjoint {xs ys : List α} {start s c : Nat}
    (h : start + ys.length ≤ xs.length) (hd : s + c ≤ start ∨ start + ys.length ≤ s) :
    window (splice xs start ys) s c = window xs s c := by
  apply List.ext_getElem?
  intro i
  rw [getElem?_window, getElem?_window]
  split_ifs with hi
  · rw [getElem?_splice h, if_neg (by omega)]
  · rfl

/-- The window a splice starts reads the spliced run. -/
theorem window_splice_self {xs ys : List α} {start c : Nat} (h : start + ys.length ≤ xs.length)
    (hc : c ≤ ys.length) : window (splice xs start ys) start c = ys.take c := by
  apply List.ext_getElem?
  intro i
  rw [getElem?_window, List.getElem?_take]
  split_ifs with hi
  · rw [getElem?_splice h, if_pos (by omega)]
    congr 1
    omega
  · rfl

/-- One element written just past a window extends it. -/
theorem window_splice_snoc {xs : List α} {start c : Nat} {x : α} (h : start + c < xs.length) :
    window (splice xs (start + c) [x]) start (c + 1) = window xs start c ++ [x] := by
  have hfit : start + c + [x].length ≤ xs.length := by
    rw [List.length_singleton]
    omega
  have hlen : (window xs start c).length = c := window_length (by omega)
  apply List.ext_getElem?
  intro i
  rw [getElem?_window, getElem?_splice hfit, List.getElem?_append, hlen, getElem?_window,
    List.length_singleton]
  by_cases hi : i < c
  · rw [if_pos (by omega), if_neg (by omega), if_pos hi, if_pos hi]
  · by_cases he : i = c
    · subst he
      rw [if_pos (by omega), if_pos (by omega), if_neg (by omega)]
      simp
    · rw [if_neg (by omega), if_neg hi, List.getElem?_eq_none (by simp; omega)]

theorem window_take {xs : List α} {start c d : Nat} (h : d ≤ c) :
    (window xs start c).take d = window xs start d := by
  rw [window, window, List.take_take, Nat.min_eq_left h]

/-- Appending past a window leaves it alone. -/
theorem window_append_left {xs ys : List α} {s c : Nat} (h : s + c ≤ xs.length) :
    window (xs ++ ys) s c = window xs s c := by
  apply List.ext_getElem?
  intro i
  rw [getElem?_window, getElem?_window]
  split_ifs with hi
  · rw [List.getElem?_append_left (by omega)]
  · rfl

/-- The window over a freshly appended run is that run. -/
theorem window_append_right {xs ys : List α} : window (xs ++ ys) xs.length ys.length = ys := by
  simp [window]

theorem slice_eq {xs : List α} {start count : Nat} (h : start + count ≤ xs.length) :
    (Outcome.slice xs start count : Outcome ε (List α)) = .ok (window xs start count) :=
  if_pos h

theorem overwrite_eq {xs ys : List α} {start : Nat} (h : start + ys.length ≤ xs.length) :
    (Outcome.overwrite xs start ys : Outcome ε (List α)) = .ok (splice xs start ys) :=
  if_pos h

end Buffer
