/-
# Brindle.Lib.Nest — what is kept under nested savepoints.

A nest holds, for every open savepoint, the items added since it opened. Releasing a savepoint hands
its items to the level around it, rolling one back drops them. A thing that only grows, under `Sized`
bookkeeping, tracks a nest when its level is the size of what the nest keeps and its marks are the
sizes of what the rollbacks to come would keep. Every operation on the two leaves them in step, so
the size a lazy rewind arrives at is the size of what really survives.
-/
import Brindle.Lib.Rewind

namespace Rewind

/-- The items of the innermost level, and those of each level around it, innermost first. -/
structure Nest (α : Type) where
  own : List α
  outer : List (List α)
  deriving DecidableEq, Repr

namespace Nest

variable {α : Type}

/-- No savepoint is open and there is nothing to keep. -/
def empty : Nest α := ⟨[], []⟩

/-- The items of some levels, oldest first. -/
def flat (levels : List (List α)) : List α := levels.reverse.flatten

/-- Everything kept, oldest first. -/
def all (n : Nest α) : List α := flat n.outer ++ n.own

/-- What is kept once `k + 1` savepoints are rolled back. -/
def before (n : Nest α) (k : Nat) : List α := flat (n.outer.drop k)

def add (n : Nest α) (a : α) : Nest α := { n with own := n.own ++ [a] }

/-- Open a savepoint. -/
def opened (n : Nest α) : Nest α := ⟨[], n.own :: n.outer⟩

/-- Release the innermost savepoint; without one there is nothing to release. -/
def released (n : Nest α) : Nest α :=
  match n.outer with
  | [] => n
  | own :: outer => ⟨own ++ n.own, outer⟩

/-- Roll the innermost savepoint back; without one there is nothing to roll back to. -/
def rolledBack (n : Nest α) : Nest α :=
  match n.outer with
  | [] => n
  | own :: outer => ⟨own, outer⟩

/-- The items leave, the savepoints stay open. -/
def cleared (n : Nest α) : Nest α := ⟨[], n.outer.map fun _ => []⟩

theorem flat_cons (level : List α) (levels : List (List α)) :
    flat (level :: levels) = flat levels ++ level := by
  simp [flat]

@[simp] theorem all_add (n : Nest α) (a : α) : (n.add a).all = n.all ++ [a] := by
  simp [all, add]

@[simp] theorem all_opened (n : Nest α) : n.opened.all = n.all := by
  simp [all, opened, flat_cons]

@[simp] theorem all_released (n : Nest α) : n.released.all = n.all := by
  obtain ⟨own, outer⟩ := n
  cases outer with
  | nil => rfl
  | cons level outer => simp [all, released, flat_cons]

theorem released_of_outer {n : Nest α} (h : n.outer = []) : n.released = n := by
  unfold released
  rw [h]

theorem rolledBack_of_outer {n : Nest α} (h : n.outer = []) : n.rolledBack = n := by
  unfold rolledBack
  rw [h]

/-- Rolling back keeps what was there when the savepoint opened. -/
theorem all_rolledBack {n : Nest α} (h : n.outer ≠ []) : n.rolledBack.all = n.before 0 := by
  obtain ⟨own, outer⟩ := n
  cases outer with
  | nil => exact absurd rfl h
  | cons level outer => simp [all, before, rolledBack, flat_cons]

@[simp] theorem all_cleared (n : Nest α) : n.cleared.all = [] := by
  simp [all, cleared, flat]

/-- What a rollback keeps is the older part of what there is. -/
theorem before_prefix (n : Nest α) (k : Nat) : n.before k <+: n.all := by
  have hsplit : flat n.outer = flat (n.outer.drop k) ++ flat (n.outer.take k) := by
    conv_lhs => rw [← List.take_append_drop k n.outer]
    simp only [flat, List.reverse_append, List.flatten_append]
  refine ⟨flat (n.outer.take k) ++ n.own, ?_⟩
  rw [all, before, hsplit, List.append_assoc]

theorem before_of_all {n : Nest α} (h : n.all = []) (k : Nat) : n.before k = [] :=
  List.prefix_nil.mp (h ▸ n.before_prefix k)

end Nest

/-! ## Sizes that track a nest -/

section Tracks

variable {α κ : Type} [SemilatticeInf κ] [OrderBot κ] {size : List α → κ}

/-- The bookkeeping of `m` is that of a thing holding what `n` keeps. -/
structure Tracks (size : List α → κ) (m : Sized κ) (n : Nest α) : Prop where
  level_eq : m.level = size n.all
  marks_eq : ∀ k, m.marks.getD k ⊥ = size (n.before k)

/-- A thing begun under open savepoints has no mark for any of them, and nothing of it survives
their rollback. -/
theorem tracks_fresh {n : Nest α} (h : n.all = []) (hsize : size [] = ⊥) :
    Tracks size ⟨⊥, none, []⟩ n where
  level_eq := by
    rw [h, hsize]
    rfl
  marks_eq k := by
    rw [Nest.before_of_all h, hsize]
    simp

namespace Tracks

variable {m : Sized κ} {n : Nest α} (T : Tracks size m n)
include T

theorem opened (O : m.Ordered) : Tracks size m.opened n.opened where
  level_eq := by
    rw [Nest.all_opened]
    exact T.level_eq
  marks_eq k := by
    cases k with
    | zero =>
      have hmark : m.level ⊓ m.count = size n.all := by
        rw [inf_eq_left.mpr O.level_le]
        exact T.level_eq
      have hbefore : n.opened.before 0 = n.all := Nest.flat_cons n.own n.outer
      rw [hbefore]
      exact hmark
    | succ k => exact T.marks_eq k

theorem released : Tracks size m.released n.released where
  level_eq := by
    rw [Nest.all_released]
    exact T.level_eq
  marks_eq k := by
    have hmarks : m.released.marks.getD k ⊥ = m.marks.getD (k + 1) ⊥ := by
      simp [Sized.released, List.getD_eq_getElem?_getD]
    have hbefore : n.released.before k = n.before (k + 1) := by
      unfold Nest.released Nest.before
      cases houter : n.outer with
      | nil => simp [houter]
      | cons level outer => rfl
    rw [hmarks, hbefore]
    exact T.marks_eq (k + 1)

theorem rolledBack [DecidableLE κ] (O : m.Ordered) (h : n.outer ≠ []) :
    Tracks size m.rolledBack n.rolledBack where
  level_eq := by
    have htop : m.top = m.marks.getD 0 ⊥ := by
      unfold Sized.top
      cases m.marks <;> rfl
    rw [O.level_rolledBack, htop, T.marks_eq 0, Nest.all_rolledBack h]
  marks_eq k := by
    have hmarks : m.rolledBack.marks.getD k ⊥ = m.marks.getD (k + 1) ⊥ := by
      simp [Sized.rolledBack, List.getD_eq_getElem?_getD]
    have hbefore : n.rolledBack.before k = n.before (k + 1) := by
      unfold Nest.rolledBack Nest.before
      cases houter : n.outer with
      | nil => exact absurd houter h
      | cons level outer => rfl
    rw [hmarks, hbefore]
    exact T.marks_eq (k + 1)

/-- One item more, once no cut is outstanding. -/
theorem added (hcut : m.cut = none) {a : α} {count : κ} (hcount : count = size (n.all ++ [a])) :
    Tracks size { m with count } (n.add a) where
  level_eq := by
    show m.cut.getD count = _
    rw [hcut, Nest.all_add]
    exact hcount
  marks_eq := T.marks_eq

/-- Carrying the cut out changes no size that counts. -/
theorem settled : Tracks size ⟨m.level, none, m.marks⟩ n where
  level_eq := T.level_eq
  marks_eq := T.marks_eq

end Tracks

end Tracks

end Rewind
