/-
# Brindle.Lib.Reach — reachability along adjacency lists.

`Reach adj seeds x` says that `x` lies on a path from a seed, each step taken along an adjacency
list. Two facts carry every argument about a graph walk: a set that contains the seeds and is closed
under the lists contains all of it; and a path that meets a marked node meets a first one, up to which
it runs through unmarked nodes only.
-/
import Mathlib.Logic.Relation
import Mathlib.Tactic.ByContra

namespace Reach

variable {α : Type}

/-- One step along a list. -/
def Step (adj : α → List α) (a b : α) : Prop := b ∈ adj a

end Reach

/-- `x` lies on a path that starts at a seed. -/
def Reach {α : Type} (adj : α → List α) (seeds : List α) (x : α) : Prop :=
  ∃ s ∈ seeds, Relation.ReflTransGen (Reach.Step adj) s x

namespace Reach

variable {α : Type} {adj adj' : α → List α} {seeds seeds' : List α} {x y : α}

theorem of_seed (h : x ∈ seeds) : Reach adj seeds x := ⟨x, h, .refl⟩

theorem step (h : Reach adj seeds x) (hy : y ∈ adj x) : Reach adj seeds y := by
  obtain ⟨s, hs, hpath⟩ := h
  exact ⟨s, hs, hpath.tail hy⟩

/-- The induction principle: a set holding the seeds and closed under the lists holds every
reachable node. -/
theorem of_closed {P : α → Prop} (hseed : ∀ s ∈ seeds, P s)
    (hstep : ∀ a, Reach adj seeds a → P a → ∀ b ∈ adj a, P b) (h : Reach adj seeds x) : P x := by
  obtain ⟨s, hs, hpath⟩ := h
  induction hpath with
  | refl => exact hseed s hs
  | tail hab hbc ih => exact hstep _ ⟨s, hs, hab⟩ ih _ hbc

/-- A path to a marked node, cut at the first marked node on it: it exists as soon as the lists of
the unmarked nodes do, whatever the marked ones hold. -/
theorem first_marked {M : α → Prop} (hkeep : ∀ a, ¬ M a → adj' a = adj a)
    (h : Reach adj seeds x) (hx : M x) : ∃ y, M y ∧ Reach adj' seeds y := by
  by_contra hnone
  -- with no marked node reachable, everything reachable is unmarked and keeps its list
  have hun : ∀ a, Reach adj seeds a → ¬ M a ∧ Reach adj' seeds a := by
    intro a ha
    refine of_closed (P := fun a => ¬ M a ∧ Reach adj' seeds a) ?_ ?_ ha
    · intro s hs
      have hr : Reach adj' seeds s := of_seed hs
      exact ⟨fun hm => hnone ⟨s, hm, hr⟩, hr⟩
    · intro a _ ⟨hna, hra⟩ b hb
      have hr : Reach adj' seeds b := hra.step (by rw [hkeep a hna]; exact hb)
      exact ⟨fun hm => hnone ⟨b, hm, hr⟩, hr⟩
  exact (hun x h).1 hx

end Reach
