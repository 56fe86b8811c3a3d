/-
# Brindle.Lib.Sized — computations whose sizes are checked.

A model over naturals says what a program returns and not whether the sizes it computed on the way fit
the machine word. Here a size is checked where it is computed, and one that does not fit is an error of
its own kind, apart from those of the program and from its panics; a reservation refused for its size is
another. `Tracks y x I` then says that the checked computation `y` does what `x` does, so that neither
of the two occurs, and that what `x` returns satisfies `I`.
-/
import Brindle.Lib.Run
import Brindle.Lib.Usize

open Outcome (fail)
open Run (After)

/-- Why a checked computation handed back an error. -/
inductive Stop (ε : Type) where
  /-- A sum or a product left the word, or a difference went below zero. -/
  | overflow
  /-- A reservation was too large. -/
  | refused (count : Nat)
  | error (e : ε)
  deriving DecidableEq, Repr

/-- A computation that checks the sizes it computes. -/
abbrev Sized (ε α : Type) := Outcome (Stop ε) α

namespace Sized

variable {ε α β : Type}

/-- A computation that computes no sizes. -/
def lift (x : Outcome ε α) : Sized ε α := x.mapError .error

/-- A 64-bit size. -/
def size (x : Nat) : Sized ε Nat := if x < Usize.words then .ok x else fail .overflow

/-- A 32-bit offset. -/
def offset (x : Nat) : Sized ε Nat := if x < 2 ^ 32 then .ok x else fail .overflow

/-- `a - b`. -/
def minus (a b : Nat) : Sized ε Nat := if b ≤ a then .ok (a - b) else fail .overflow

/-- Room for `count` elements, of which there may be at most `limit`. -/
def withCapacity (limit count : Nat) : Sized ε Unit :=
  if count ≤ limit then .ok () else fail (.refused count)

theorem size_ok {x : Nat} (h : x < Usize.words) : (size x : Sized ε Nat) = .ok x := if_pos h

theorem offset_ok {x : Nat} (h : x < 2 ^ 32) : (offset x : Sized ε Nat) = .ok x := if_pos h

theorem minus_ok {a b : Nat} (h : b ≤ a) : (minus a b : Sized ε Nat) = .ok (a - b) := if_pos h

theorem withCapacity_ok {limit count : Nat} (h : count ≤ limit) :
    (withCapacity limit count : Sized ε Unit) = .ok () :=
  if_pos h

/-- The checked computation `y` does what `x` does, and what `x` returns satisfies `I`. -/
def Tracks (y : Sized ε α) (x : Outcome ε α) (I : α → Prop) : Prop := y = lift x ∧ After I x

namespace Tracks

variable {y : Sized ε α} {x : Outcome ε α} {I : α → Prop} {J : β → Prop}

theorem lift (h : After I x) : Tracks (lift x) x I := ⟨rfl, h⟩

theorem ok {a : α} (hy : y = .ok a) (h : I a) : Tracks y (.ok a) I := ⟨hy, h⟩

theorem pure {a : α} (h : I a) : Tracks (Pure.pure a : Sized ε α) (Pure.pure a) I := ⟨rfl, h⟩

theorem starved : Tracks (Outcome.starved : Sized ε α) Outcome.starved I := ⟨rfl, trivial⟩

theorem bind {g : α → Sized ε β} {f : α → Outcome ε β} (h : Tracks y x I)
    (hf : ∀ a, I a → Tracks (g a) (f a) J) : Tracks (y >>= g) (x >>= f) J := by
  obtain ⟨rfl, hI⟩ := h
  cases x with
  | ok a =>
    obtain ⟨hg, hJ⟩ := hf a hI
    exact ⟨hg, hJ⟩
  | error fault =>
    refine ⟨?_, trivial⟩
    cases fault <;> rfl

/-- A size computed on the side. -/
theorem sized {z : Sized ε α} {g : α → Sized ε β} {x : Outcome ε β} {a : α} (hz : z = .ok a)
    (h : Tracks (g a) x J) : Tracks (z >>= g) x J := by
  subst hz
  exact h

/-- The invariant rule for a loop. -/
theorem foldlM {σ : Type} {g : σ → α → Sized ε σ} {f : σ → α → Outcome ε σ} (I : σ → Prop)
    (xs : List α) (step : ∀ s a, a ∈ xs → I s → Tracks (g s a) (f s a) I) {s : σ} (hs : I s) :
    Tracks (xs.foldlM g s) (xs.foldlM f s) I := by
  induction xs generalizing s with
  | nil => exact pure hs
  | cons a xs ih =>
    rw [List.foldlM_cons, List.foldlM_cons]
    refine (step s a List.mem_cons_self hs).bind fun s' hs' => ?_
    exact ih (fun t b hb => step t b (List.mem_cons_of_mem a hb)) hs'

end Tracks

/-! ## A check that fails -/

/-- The computation ends at a check. -/
def Stops (y : Sized ε α) : Prop :=
  y = fail .overflow ∨ ∃ count, y = fail (.refused count)

theorem Stops.bind {y : Sized ε α} (h : Stops y) (g : α → Sized ε β) : Stops (y >>= g) := by
  rcases h with rfl | ⟨count, rfl⟩
  · exact Or.inl rfl
  · exact Or.inr ⟨count, rfl⟩

/-- A computation that ends at a check is not one without checks. -/
theorem Stops.ne_lift {y : Sized ε α} (h : Stops y) (x : Outcome ε α) : y ≠ lift x := by
  rcases h with rfl | ⟨count, rfl⟩
  · cases x with
    | ok a => nofun
    | error fault => cases fault <;> nofun
  · cases x with
    | ok a => nofun
    | error fault => cases fault <;> nofun

end Sized
