/-
# Brindle.Lib.Usize — 64-bit sizes with every operation checked.

The arithmetic of an unsigned 64-bit word as a build with overflow checks does it: a sum or a product
past the word and a difference below zero are panics. A model that keeps sizes as naturals computes
what the program does exactly as long as none of these fires; stating the program over the checked
operations and proving the two equal is how that is discharged.
-/
import Brindle.Lib.Outcome

namespace Usize

open Outcome (panicked)

variable {ε : Type}

/-- The number of values a size can take. -/
def words : Nat := 2 ^ 64

/-- `a + b`. -/
def add (a b : Nat) : Outcome ε Nat := if a + b < words then .ok (a + b) else panicked

/-- `a * b`. -/
def mul (a b : Nat) : Outcome ε Nat := if a * b < words then .ok (a * b) else panicked

/-- `a - b`. -/
def sub (a b : Nat) : Outcome ε Nat := if b ≤ a then .ok (a - b) else panicked

/-- `a.saturating_add(b)`. -/
def satAdd (a b : Nat) : Nat := min (a + b) (words - 1)

@[simp] theorem add_ok {a b : Nat} (h : a + b < words) : (add a b : Outcome ε Nat) = .ok (a + b) :=
  if_pos h

@[simp] theorem mul_ok {a b : Nat} (h : a * b < words) : (mul a b : Outcome ε Nat) = .ok (a * b) :=
  if_pos h

@[simp] theorem sub_ok {a b : Nat} (h : b ≤ a) : (sub a b : Outcome ε Nat) = .ok (a - b) :=
  if_pos h

theorem satAdd_eq {a b : Nat} (h : a + b < words) : satAdd a b = a + b :=
  Nat.min_eq_left (Nat.le_sub_one_of_lt h)

end Usize
