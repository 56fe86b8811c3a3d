/-
# Brindle.Lib.Renumber — closing the gaps among the numbers that are kept.

Of the first `n` numbers those that satisfy `p` are kept, in order, and numbered again from zero: the
new number of one is how many smaller ones are kept. The renumbering is the order-preserving bijection
onto an initial segment, and a list of what the kept ones carry is indexed by it.
-/
import Mathlib.Data.Nat.Count
import Mathlib.Data.List.Sort

namespace Renumber

variable (p : Nat → Bool)

/-- The numbers below `n` that are kept, in order. -/
def kept (n : Nat) : List Nat := (List.range n).filter p

/-- The new number of `i`. -/
def renumber (i : Nat) : Nat := Nat.count (fun j => p j = true) i

variable {p} {n i j : Nat}

theorem mem_kept : i ∈ kept p n ↔ i < n ∧ p i = true := by
  simp [kept]

theorem kept_length : (kept p n).length = renumber p n := by
  simp [kept, renumber, Nat.count, List.countP_eq_length_filter]

theorem kept_succ (n : Nat) : kept p (n + 1) = kept p n ++ if p n then [n] else [] := by
  rw [kept, List.range_succ, List.filter_append, List.filter_singleton, Bool.cond_eq_ite]
  rfl

theorem renumber_lt_renumber (hi : p i = true) (hij : i < j) : renumber p i < renumber p j :=
  Nat.count_strict_mono hi hij

theorem renumber_lt (hi : p i = true) (hin : i < n) : renumber p i < (kept p n).length := by
  rw [kept_length]
  exact renumber_lt_renumber hi hin

/-- **The renumbering indexes what is kept.** -/
theorem getElem?_kept (hi : p i = true) (hin : i < n) : (kept p n)[renumber p i]? = some i := by
  induction n with
  | zero => exact absurd hin (Nat.not_lt_zero i)
  | succ n ih =>
    rw [kept_succ]
    rcases Nat.lt_succ_iff_lt_or_eq.mp hin with hlt | rfl
    · rw [List.getElem?_append_left (renumber_lt hi hlt)]
      exact ih hlt
    · rw [← kept_length, List.getElem?_append_right le_rfl, Nat.sub_self, if_pos hi]
      rfl

/-- Every place of the kept list is the new number of what stands there. -/
theorem exists_renumber (hj : j < (kept p n).length) : ∃ i < n, p i = true ∧ renumber p i = j := by
  have hmem := mem_kept.mp (List.getElem_mem hj)
  refine ⟨(kept p n)[j], hmem.1, hmem.2, ?_⟩
  have hnodup : (kept p n).Nodup := List.nodup_range.filter _
  have hsame : (kept p n)[renumber p (kept p n)[j]]? = (kept p n)[j]? := by
    rw [getElem?_kept hmem.2 hmem.1, List.getElem?_eq_getElem hj]
  exact (List.getElem?_inj (renumber_lt hmem.2 hmem.1) hnodup).mp hsame

theorem strictMonoOn_renumber : StrictMonoOn (renumber p) {i | i < n ∧ p i = true} :=
  fun _ hi _ _ hij => renumber_lt_renumber hi.2 hij

/-- The renumbering is onto an initial segment. -/
theorem bijOn_renumber :
    Set.BijOn (renumber p) {i | i < n ∧ p i = true} {j | j < (kept p n).length} :=
  ⟨fun _ hi => renumber_lt hi.2 hi.1, strictMonoOn_renumber.injOn, fun _ hj =>
    let ⟨i, hin, hi, heq⟩ := exists_renumber hj
    ⟨i, ⟨hin, hi⟩, heq⟩⟩

theorem map_renumber_kept : (kept p n).map (renumber p) = List.range (kept p n).length := by
  apply List.ext_getElem?
  intro j
  by_cases hj : j < (kept p n).length
  · obtain ⟨i, hin, hi, rfl⟩ := exists_renumber hj
    rw [List.getElem?_map, getElem?_kept hi hin, List.getElem?_range hj]
    rfl
  · rw [List.getElem?_eq_none (by simpa using hj), List.getElem?_eq_none (by simpa using hj)]

end Renumber
