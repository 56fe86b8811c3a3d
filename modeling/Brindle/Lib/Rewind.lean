/-
# Brindle.Lib.Rewind — a count under nested savepoints, rewound lazily.

Something grows, and its size is recorded when a savepoint opens. Rolling back to the savepoint does
not shrink the thing at once: it records a cut, and whoever needs the exact size carries the cut out
later. Sizes live in a meet-semilattice with a bottom, so that several counts can be cut together.
`Sized` is that bookkeeping and `level` the size that counts. On well-ordered bookkeeping, rolling
back right after opening a savepoint changes nothing, and rolling back a released savepoint is
rolling back both.
-/
import Mathlib.Order.BoundedOrder.Lattice

namespace Rewind

variable {κ : Type} [SemilatticeInf κ]

/-- The size of something, a cut not yet carried out, and the size at each open savepoint, innermost
first. -/
structure Sized (κ : Type) where
  count : κ
  cut : Option κ
  marks : List κ

namespace Sized

/-- The size that counts, the cut taken into account. -/
def level (m : Sized κ) : κ := m.cut.getD m.count

/-- Open a savepoint. -/
def opened (m : Sized κ) : Sized κ := { m with marks := m.level ⊓ m.count :: m.marks }

omit [SemilatticeInf κ] in
/-- Release the innermost savepoint. -/
def released (m : Sized κ) : Sized κ := { m with marks := m.marks.tail }

/-- Marks grow inwards, none is above the level, and a cut cuts something off. -/
structure Ordered (m : Sized κ) : Prop where
  sorted : m.marks.Pairwise fun inner outer => outer ≤ inner
  marks_le : ∀ mark ∈ m.marks, mark ≤ m.level
  cut_le : ∀ c, m.cut = some c → c ≤ m.count ∧ ¬ m.count ≤ c

namespace Ordered

variable {m : Sized κ} (O : Ordered m)
include O

theorem level_le : m.level ≤ m.count := by
  unfold level
  cases hc : m.cut with
  | none => exact le_rfl
  | some c => exact (O.cut_le c hc).1

theorem opened : Ordered m.opened where
  sorted := by
    refine List.pairwise_cons.mpr ⟨fun mark hmark => ?_, O.sorted⟩
    exact le_inf (O.marks_le mark hmark) ((O.marks_le mark hmark).trans O.level_le)
  marks_le := by
    intro mark hmark
    rcases List.mem_cons.mp hmark with rfl | hold
    · exact inf_le_left
    · exact O.marks_le mark hold
  cut_le := O.cut_le

theorem released : Ordered m.released where
  sorted := O.sorted.tail
  marks_le mark hmark := O.marks_le mark (List.mem_of_mem_tail hmark)
  cut_le := O.cut_le

omit O in
/-- What is open stays open while the thing grows, once no cut is outstanding. -/
theorem grown {m : Sized κ} (O : Ordered m) (hcut : m.cut = none) {count : κ}
    (hle : m.count ≤ count) : Ordered { m with count } where
  sorted := O.sorted
  marks_le mark hmark := by
    have hlevel : m.level = m.count := by simp [level, hcut]
    have hmark := O.marks_le mark hmark
    show mark ≤ m.cut.getD count
    rw [hcut]
    exact (hlevel ▸ hmark).trans hle
  cut_le c hc := by
    have hc : m.cut = some c := hc
    rw [hcut] at hc
    cases hc

/-- Carrying a cut out leaves the level as the size. -/
theorem settled : Ordered ⟨m.level, none, m.marks⟩ where
  sorted := O.sorted
  marks_le := O.marks_le
  cut_le := nofun

end Ordered

theorem ordered_fresh (count : κ) : Ordered ⟨count, none, []⟩ :=
  ⟨List.Pairwise.nil, nofun, nofun⟩

/-! ## Rolling back -/

variable [OrderBot κ]

/-- The mark of the innermost savepoint; bottom when nothing was there to be marked. -/
def top (m : Sized κ) : κ := m.marks.headD ⊥

theorem Ordered.top_le {m : Sized κ} (O : Ordered m) : m.top ≤ m.level := by
  unfold top
  cases hm : m.marks with
  | nil => exact bot_le
  | cons mark marks => exact O.marks_le mark (by simp [hm])

variable [DecidableLE κ]

/-- Roll the innermost savepoint back. -/
def rolledBack (m : Sized κ) : Sized κ :=
  { m with
    marks := m.marks.tail
    cut := if m.count ≤ m.top then m.cut else some (m.cut.getD m.top ⊓ m.top) }

namespace Ordered

variable {m : Sized κ} (O : Ordered m)
include O

/-- After a rollback the mark is the level. -/
theorem level_rolledBack : m.rolledBack.level = m.top := by
  have htop := O.top_le
  show (if m.count ≤ m.top then m.cut else some (m.cut.getD m.top ⊓ m.top)).getD m.count = m.top
  split_ifs with hle
  · exact le_antisymm (O.level_le.trans hle) htop
  · show m.cut.getD m.top ⊓ m.top = m.top
    cases hc : m.cut with
    | none => exact inf_idem _
    | some c =>
      have hlevel : m.level = c := by simp [level, hc]
      exact inf_eq_right.mpr (hlevel ▸ htop)

theorem rolledBack : Ordered m.rolledBack where
  sorted := O.sorted.tail
  marks_le := by
    intro mark hmark
    rw [O.level_rolledBack]
    have hsorted := O.sorted
    unfold top
    cases hm : m.marks with
    | nil => simp [Sized.rolledBack, hm] at hmark
    | cons first rest =>
      rw [hm] at hsorted
      have hmark : mark ∈ rest := by simpa [Sized.rolledBack, hm] using hmark
      exact List.rel_of_pairwise_cons hsorted hmark
  cut_le := by
    intro c hc
    have hc : (if m.count ≤ m.top then m.cut else some (m.cut.getD m.top ⊓ m.top)) = some c := hc
    split_ifs at hc with hle
    · exact O.cut_le c hc
    · cases hc
      exact ⟨inf_le_right.trans (O.top_le.trans O.level_le),
        fun hcut => hle (hcut.trans inf_le_right)⟩

/-- **Rolling back a savepoint just opened changes nothing.** -/
theorem rolledBack_opened : m.opened.rolledBack = m := by
  have hmark : m.opened.top = m.level := inf_eq_left.mpr O.level_le
  have hcut : (if m.count ≤ m.level then m.cut else some (m.cut.getD m.level ⊓ m.level)) =
      m.cut := by
    cases hc : m.cut with
    | none => simp [level, hc]
    | some c =>
      rw [show m.level = c by simp [level, hc], if_neg (O.cut_le c hc).2]
      simp
  unfold Sized.rolledBack
  rw [hmark]
  show Sized.mk m.count _ m.marks = m
  rw [show m.opened.cut = m.cut from rfl, show m.opened.count = m.count from rfl, hcut]

/-- **Rolling back to a savepoint whose inner one was released rolls back both.** -/
theorem rolledBack_released : m.released.rolledBack = m.rolledBack.rolledBack := by
  -- `a` is the mark of the inner savepoint and `b` the mark of the outer one
  have hba : m.released.top ≤ m.top := by
    have hsorted := O.sorted
    unfold top Sized.released
    cases hm : m.marks with
    | nil => exact bot_le
    | cons a rest =>
      cases rest with
      | nil => exact bot_le
      | cons b rest =>
        rw [hm] at hsorted
        exact List.rel_of_pairwise_cons hsorted List.mem_cons_self
  have htop : m.rolledBack.top = m.released.top := rfl
  have hcut : m.released.rolledBack.cut = m.rolledBack.rolledBack.cut := by
    show (if m.count ≤ m.released.top then m.cut
        else some (m.cut.getD m.released.top ⊓ m.released.top)) =
      if m.count ≤ m.rolledBack.top then m.rolledBack.cut
        else some (m.rolledBack.cut.getD m.rolledBack.top ⊓ m.rolledBack.top)
    rw [htop, show m.rolledBack.cut = if m.count ≤ m.top then m.cut
      else some (m.cut.getD m.top ⊓ m.top) from rfl]
    generalize m.released.top = b at hba
    by_cases hb : m.count ≤ b
    · rw [if_pos hb, if_pos hb, if_pos (hb.trans hba)]
    · rw [if_neg hb, if_neg hb]
      by_cases ha : m.count ≤ m.top
      · rw [if_pos ha]
      · rw [if_neg ha]
        cases m.cut with
        | none => simp [inf_eq_right.mpr hba]
        | some c =>
          show some (c ⊓ b) = some (c ⊓ m.top ⊓ b)
          rw [inf_assoc, inf_eq_right.mpr hba]
  show Sized.mk m.count m.released.rolledBack.cut m.marks.tail.tail = _
  rw [hcut]
  rfl

end Ordered

/-- A rollback is recorded, not carried out. -/
theorem count_iterate_rolledBack (m : Sized κ)
    (k : Nat) : (rolledBack^[k] m).count = m.count := by
  induction k generalizing m with
  | zero => rfl
  | succ k ih => exact ih m.rolledBack

/-- The level after several rollbacks, read off the marks. -/
theorem level_iterate_rolledBack {m : Sized κ} (O : Ordered m) (k : Nat) :
    (rolledBack^[k + 1] m).level = (m.marks.drop k).headD ⊥ := by
  induction k generalizing m with
  | zero => exact O.level_rolledBack
  | succ k ih =>
    rw [Function.iterate_succ_apply, ih O.rolledBack, show m.rolledBack.marks = m.marks.tail from rfl,
      List.drop_tail]

theorem Ordered.iterate_rolledBack {m : Sized κ} (O : Ordered m) (k : Nat) :
    Ordered (Sized.rolledBack^[k] m) := by
  induction k generalizing m with
  | zero => exact O
  | succ k ih => exact ih O.rolledBack

/-- Rolling back never raises the level. -/
theorem level_iterate_le {m : Sized κ} (O : Ordered m) (k : Nat) :
    (rolledBack^[k] m).level ≤ m.level := by
  induction k generalizing m with
  | zero => exact le_rfl
  | succ k ih =>
    rw [Function.iterate_succ_apply]
    exact (ih O.rolledBack).trans (O.level_rolledBack.le.trans O.top_le)

end Sized

end Rewind
