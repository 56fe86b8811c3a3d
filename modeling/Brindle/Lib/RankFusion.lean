/-
# Brindle.Lib.RankFusion — fusing ranked lists by weight of position.

Several lists rank elements best first. A weight is given to each position, and an element scores, over
the lists it is in, the weights of its first positions there: a repeat within a list counts for
nothing and moves nobody. When an earlier position weighs strictly more and none weighs nothing, an
element that is ahead of another wherever the other is listed scores strictly more.
-/
import Mathlib.Algebra.Order.BigOperators.Group.List
import Mathlib.Algebra.Order.Monoid.Defs

namespace RankFusion

variable {α β R : Type} [DecidableEq α] [DecidableEq β]

theorem idxOf_map {f : α → β} (hf : Function.Injective f) (list : List α) (a : α) :
    (list.map f).idxOf (f a) = list.idxOf a := by
  induction list with
  | nil => rfl
  | cons x list ih =>
    rw [List.map_cons, List.idxOf_cons, List.idxOf_cons, ih]
    by_cases hx : x = a
    · rw [hx, beq_self_eq_true, beq_self_eq_true]
    · have hfx : f x ≠ f a := fun h => hx (hf h)
      rw [beq_false_of_ne hx, beq_false_of_ne hfx]

section Score

variable [AddCommMonoid R]

/-- The weights of the first positions of `a`, over the lists that hold it. -/
def score (w : Nat → R) (lists : List (List α)) (a : α) : R :=
  ((lists.filter fun list => decide (a ∈ list)).map fun list => w (list.idxOf a)).sum

variable (w : Nat → R)

@[simp] theorem score_nil (a : α) : score w [] a = 0 := rfl

theorem score_cons (list : List α) (lists : List (List α)) (a : α) :
    score w (list :: lists) a =
      (if a ∈ list then w (list.idxOf a) else 0) + score w lists a := by
  unfold score
  split_ifs with hmem
  · rw [List.filter_cons_of_pos (by simpa using hmem), List.map_cons, List.sum_cons]
  · rw [List.filter_cons_of_neg (by simpa using hmem), zero_add]

theorem score_eq_sum (lists : List (List α)) (a : α) : score w lists a =
    (lists.map fun list => if a ∈ list then w (list.idxOf a) else 0).sum := by
  induction lists with
  | nil => rfl
  | cons list lists ih => rw [score_cons, ih, List.map_cons, List.sum_cons]

/-- Renaming the elements changes no score. -/
theorem score_map {f : α → β} (hf : Function.Injective f) (lists : List (List α)) (a : α) :
    score w (lists.map (List.map f)) (f a) = score w lists a := by
  induction lists with
  | nil => rfl
  | cons list lists ih =>
    have hmem : f a ∈ list.map f ↔ a ∈ list := List.mem_map_of_injective hf
    rw [List.map_cons, score_cons, score_cons, ih, idxOf_map hf]
    simp only [hmem]

end Score

section Dominance

variable [AddCommMonoid R] [LinearOrder R] [IsOrderedCancelAddMonoid R] {w : Nat → R}

/-- **Dominance.** Ahead of `b` in every list that holds `b`, and strictly better in one. -/
theorem score_lt_of_dominates (hpos : ∀ i, 0 < w i) (hanti : StrictAnti w) {lists : List (List α)}
    {a b : α} (hnever : ∀ list ∈ lists, b ∈ list → a ∈ list ∧ list.idxOf a ≤ list.idxOf b)
    (honce : ∃ list ∈ lists, a ∈ list ∧ (b ∈ list → list.idxOf a < list.idxOf b)) :
    score w lists b < score w lists a := by
  rw [score_eq_sum, score_eq_sum]
  refine List.sum_lt_sum _ _ (fun list hlist => ?_) ?_
  · split_ifs with hb ha ha
    · exact hanti.antitone (hnever list hlist hb).2
    · exact absurd (hnever list hlist hb).1 ha
    · exact (hpos _).le
    · exact le_rfl
  · obtain ⟨list, hlist, ha, hbetter⟩ := honce
    refine ⟨list, hlist, ?_⟩
    rw [if_pos ha]
    split_ifs with hb
    · exact hanti (hbetter hb)
    · exact hpos _

end Dominance

/-! ## Order in a list -/

omit [DecidableEq α] in
/-- Of two elements of a list one comes before the other. -/
theorem pair_sublist {l : List α} {a b : α} (ha : a ∈ l) (hb : b ∈ l) (hne : a ≠ b) :
    [a, b].Sublist l ∨ [b, a].Sublist l := by
  induction l with
  | nil => cases ha
  | cons x l ih =>
    rcases List.mem_cons.mp ha with rfl | hal
    · have hbl := (List.mem_cons.mp hb).resolve_left hne.symm
      exact .inl ((List.singleton_sublist.mpr hbl).cons_cons a)
    · rcases List.mem_cons.mp hb with rfl | hbl
      · exact .inr ((List.singleton_sublist.mpr hal).cons_cons b)
      · exact (ih hal hbl).imp (fun h => h.cons x) fun h => h.cons x

omit [DecidableEq α] in
/-- Where the order of a list rules one of the two ways out, it is the other. -/
theorem pair_sublist_of_pairwise {r : α → α → Prop} {l : List α} (hl : l.Pairwise r) {a b : α}
    (ha : a ∈ l) (hb : b ∈ l) (hne : a ≠ b) (hnot : ¬ r b a) : [a, b].Sublist l := by
  refine (pair_sublist ha hb hne).resolve_right fun h => hnot ?_
  exact List.pairwise_iff_forall_sublist.mp hl h

end RankFusion
