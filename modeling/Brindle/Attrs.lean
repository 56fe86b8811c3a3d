/-
# Brindle.Attrs — the bridge between a `WHERE` clause and a predicate.

`attrs.rs`: what an attribute datum is stored as, and what a scan key becomes. A key the index cannot
express is left out of the predicate and the executor is told to test the rows again.
-/
import Brindle.Filter

namespace Brindle

/-- The type of a datum, by its catalog identifier. -/
inductive TypeOid where
  | bool
  | int2
  | int4
  | int8
  | float4
  | float8
  | other (oid : UInt32)
  deriving DecidableEq, Repr

/-- `pg_sys::InvalidOid`. -/
def invalidOid : TypeOid := .other 0

/-- A datum passed by value: one machine word. -/
abbrev Datum := UInt64

namespace Datum

/-! `from_datum` of the types passed by value: the low bits of the word, read as the type. -/

def toBool (datum : Datum) : Bool := datum ≠ 0
def toI16 (datum : Datum) : Int16 := datum.toUInt16.toInt16
def toI32 (datum : Datum) : Int32 := datum.toUInt32.toInt32
def toI64 (datum : Datum) : Int64 := datum.toInt64
def toF32 (datum : Datum) : F32 := ⟨datum.toUInt32⟩
def toF64 (datum : Datum) : F64 := ⟨datum⟩

end Datum

/-- Strategy numbers, following the btree convention. -/
def strategyLt : UInt16 := 1
def strategyLe : UInt16 := 2
def strategyEq : UInt16 := 3
def strategyGe : UInt16 := 4
def strategyGt : UInt16 := 5

/-- `ScanKeyData::sk_flags`. -/
def skIsNull : UInt32 := 0x0001
def skRowHeader : UInt32 := 0x0004
def skSearchArray : UInt32 := 0x0020

/-- What a scan key says. -/
structure ScanKey where
  flags : UInt32
  attno : Int16
  strategy : UInt16
  subtype : TypeOid
  argument : Datum
  deriving DecidableEq, Repr

/-- The key columns of an index: the type each operator class was declared for, the vector's first. -/
structure IndexColumns where
  opcintype : List TypeOid
  deriving DecidableEq, Repr

namespace IndexColumns

/-- How many key columns follow the vector. -/
def count (index : IndexColumns) : Nat := index.opcintype.length - 1

/-- The type of an attribute column, by its position among the attribute columns. -/
def columnType (index : IndexColumns) (col : Nat) : TypeOid :=
  index.opcintype.getD (col + 1) invalidOid

end IndexColumns

/-- Convert one attribute datum to the core's value type; `none` for a type that is not supported. -/
def valueFromDatum (typoid : TypeOid) (datum : Datum) (isNull : Bool) : Option AttrValue :=
  if isNull then some .null
  else
    match typoid with
    | .bool => some (.int (if datum.toBool then 1 else 0))
    | .int2 => some (.int datum.toI16.toInt64)
    | .int4 => some (.int datum.toI32.toInt64)
    | .int8 => some (.int datum.toI64)
    | .float4 => some (.float datum.toF32.toF64)
    | .float8 => some (.float datum.toF64)
    | .other _ => none

namespace TypeOid

def integral : TypeOid → Bool
  | bool | int2 | int4 | int8 => true
  | _ => false

def floating : TypeOid → Bool
  | float4 | float8 => true
  | _ => false

end TypeOid

/-- Whether two supported types compare within one `AttrValue` variant. -/
def sameFamily (a b : TypeOid) : Bool := (a.integral && b.integral) || (a.floating && b.floating)

/-- "brindle: column {} of the index has type {}, which cannot be filtered on" -/
structure UnsupportedColumn where
  column : Nat
  typoid : TypeOid
  deriving DecidableEq, Repr

/-- Read the attribute row for one heap tuple. `values` and `isnull` hold one entry per index column,
the vector's first. -/
def rowFromDatums (index : IndexColumns) (values : List Datum) (isnull : List Bool) :
    Except UnsupportedColumn (List AttrValue) :=
  (List.range index.count).mapM fun col =>
    let typoid := index.columnType col
    match valueFromDatum typoid (values.getD (col + 1) 0) (isnull.getD (col + 1) false) with
    | some value => .ok value
    | none => .error ⟨col + 2, typoid⟩

/-- `sk_attno as usize`. -/
def asUsize (x : Int16) : Nat := (x.toInt % 2 ^ 64).toNat

/-- The type a key's argument is read as: its own, not the column's. -/
def ScanKey.argType (key : ScanKey) (index : IndexColumns) (col : Nat) : TypeOid :=
  if key.subtype = invalidOid then index.columnType col else key.subtype

/-- The atom of a comparison, by its strategy number. -/
def strategyAtom (strategy : UInt16) (col : Nat) (value : AttrValue) : Option Atom :=
  if strategy = strategyEq then some (.eq col value)
  else if strategy = strategyLt then some (.range col .unbounded (.excluded value))
  else if strategy = strategyLe then some (.range col .unbounded (.included value))
  else if strategy = strategyGt then some (.range col (.excluded value) .unbounded)
  else if strategy = strategyGe then some (.range col (.included value) .unbounded)
  else none

/-- Translate one scan key into an atom; `none` means that this index cannot express it. -/
def atomFromKey (index : IndexColumns) (key : ScanKey) : Option Atom :=
  if key.flags &&& (skIsNull ||| skRowHeader ||| skSearchArray) ≠ 0 then none
  -- column 1 is the vector
  else if asUsize key.attno < 2 then none
  else
    let col := asUsize key.attno - 2
    if col ≥ index.count then none
    else do
      let value ← valueFromDatum (key.argType index col) key.argument false
      if sameFamily (index.columnType col) (key.argType index col) then
        strategyAtom key.strategy col value
      else none

/-- What a scan's keys became, and whether the executor still has to check them. -/
structure PushedPredicate where
  predicate : Predicate
  recheck : Bool
  deriving DecidableEq, Repr

/-- Assemble the predicate a scan's keys describe. -/
def predicateFromKeys (index : IndexColumns) (keys : List ScanKey) : PushedPredicate :=
  let (atoms, recheck) := keys.foldl (fun (atoms, recheck) key =>
    match atomFromKey index key with
    | some atom => (atoms ++ [atom], recheck)
    | none => (atoms, true)) (([] : List Atom), false)
  { predicate := if atoms.isEmpty then .all else .and atoms
    recheck }

end Brindle
