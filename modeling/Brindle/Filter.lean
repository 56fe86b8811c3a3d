/-
# Brindle.Filter — Tier-1 predicates over the attribute row stored beside a node.

`filter.rs`: equality and range atoms joined by `AND`. Floats follow PostgreSQL's order (NaN equal
to itself and above every number, the two zeros equal), and a `Null` or a missing column satisfies
no atom.
-/
import Brindle.Float

namespace Brindle

/-- A single filterable attribute value stored beside a node. -/
inductive AttrValue where
  | int (v : Int64)
  | float (v : F64)
  | null
  deriving DecidableEq, Repr

/-- One end of a range. -/
inductive Bound where
  | unbounded
  | included (v : AttrValue)
  | excluded (v : AttrValue)
  deriving DecidableEq, Repr

/-- PostgreSQL's `float8_cmp`: ordinary comparison where it is defined, NaN above everything and
equal to itself where it is not. -/
def pgFloatCmp (a b : F64) : Ordering :=
  match a.partialCmp b with
  | some ord => ord
  | none => if a.isNan && b.isNan then .eq else if a.isNan then .gt else .lt

namespace AttrValue

/-- Order two values within one numeric type; `none` when they are not comparable. -/
def numCmp : AttrValue → AttrValue → Option Ordering
  | .int a, .int b => some (compare a b)
  | .float a, .float b => some (pgFloatCmp a b)
  | _, _ => none

def isOrderable : AttrValue → Bool
  | .null => false
  | _ => true

end AttrValue

/-- Type-strict equality: distinct variants never match, `Null` never matches. -/
def eqMatches : AttrValue → AttrValue → Bool
  | .int a, .int b => a == b
  | .float a, .float b => pgFloatCmp a b == .eq
  | _, _ => false

def lowerMatches (value : AttrValue) : Bound → Bool
  | .unbounded => true
  | .included b => value.numCmp b == some .gt || value.numCmp b == some .eq
  | .excluded b => value.numCmp b == some .gt

def upperMatches (value : AttrValue) : Bound → Bool
  | .unbounded => true
  | .included b => value.numCmp b == some .lt || value.numCmp b == some .eq
  | .excluded b => value.numCmp b == some .lt

/-- One predicate term; the column is a position in the attribute row. -/
inductive Atom where
  | eq (col : Nat) (value : AttrValue)
  | range (col : Nat) (lo hi : Bound)
  deriving DecidableEq, Repr

namespace Atom

def col : Atom → Nat
  | .eq col _ => col
  | .range col _ _ => col

/-- Evaluate against an attribute row; a missing column fails the atom. -/
def satisfiedBy (atom : Atom) (row : List AttrValue) : Bool :=
  match row[atom.col]? with
  | none => false
  | some value =>
    match atom with
    | .eq _ target => eqMatches value target
    | .range _ lo hi => value.isOrderable && lowerMatches value lo && upperMatches value hi

end Atom

/-- The trivial match-all, or a conjunction of atoms. -/
inductive Predicate where
  | all
  | and (atoms : List Atom)
  deriving DecidableEq, Repr

/-- `Predicate::matches`. -/
def Predicate.satisfiedBy (predicate : Predicate) (row : List AttrValue) : Bool :=
  match predicate with
  | .all => true
  | .and atoms => atoms.all (fun atom => atom.satisfiedBy row)

end Brindle
