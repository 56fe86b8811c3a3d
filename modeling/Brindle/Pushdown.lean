/-
# Brindle.Pushdown — a pushed predicate agrees with the SQL comparisons it came from.

The SQL side compares typed values: integers of every width by value, floats of both widths by rank,
with NaN equal to itself and above every number and the zeros equal. The index side has widened both
to one representation when the row was stored and when the key was translated. `numCmp_eq` says the
two compare alike; the rest is that each strategy became the atom that accepts the same orderings.

What a comparison between the two families would mean, and what a key means that is not a plain
comparison with a column, is left open: such keys are refused, and the executor rechecks.
-/
import Brindle.Attrs
import Brindle.Lib.FloatOrder
import Brindle.Lib.Outcome

namespace Brindle

open Ieee754 (binary32 binary64)

/-! ## Floats by rank -/

/-- The place of a float on the line of SQL's float order. -/
def F32.rank (x : F32) : ℤ ×ₗ ℚ := (binary32.decode x.bits.toNat).rank

def F64.rank (x : F64) : ℤ ×ₗ ℚ := (binary64.decode x.bits.toNat).rank

theorem F64.bits_eq (x : F64) : x.bits.toNat = binary64.withSign x.isNeg x.mag := by
  have hlt : x.bits.toNat < 2 ^ 64 := x.bits.toNat_lt
  have hsign : binary64.signBit = 0x8000000000000000 := by decide
  unfold Ieee754.Format.withSign
  rw [hsign]
  unfold isNeg mag
  split_ifs with hneg
  · have hge : 0x8000000000000000 ≤ x.bits.toNat := of_decide_eq_true hneg
    omega
  · have hlow : ¬ 0x8000000000000000 ≤ x.bits.toNat := fun hge => hneg (decide_eq_true hge)
    omega

theorem F64.rank_eq_nan {x : F64} (hnan : x.isNan = true) : x.rank = Ieee754.Datum.nan.rank := by
  have hinf : binary64.infBits = 0x7FF0000000000000 := by decide
  have hsign : binary64.signBit = 0x8000000000000000 := by decide
  have hlow : 0x7FF0000000000000 < x.mag := of_decide_eq_true hnan
  have hhigh : x.mag < 0x8000000000000000 := Nat.mod_lt _ (by decide)
  unfold rank
  rw [x.bits_eq, Ieee754.Format.decode_nan (by decide) (by decide) _ (by omega) (by omega)]

theorem F64.rank_eq_line {x : F64} (hnan : x.isNan = false) :
    x.rank = binary64.lineRank x.signed := by
  have hinf : binary64.infBits = 0x7FF0000000000000 := by decide
  have hle : ¬ 0x7FF0000000000000 < x.mag := of_decide_eq_false hnan
  unfold rank
  rw [x.bits_eq, Ieee754.Format.rank_decode (by decide) (by decide) _ (by omega)]
  rfl

theorem F64.signed_bounds {x : F64} (hnan : x.isNan = false) :
    -(binary64.infBits : Int) ≤ x.signed ∧ x.signed ≤ binary64.infBits := by
  have hinf : binary64.infBits = 0x7FF0000000000000 := by decide
  have hle : ¬ 0x7FF0000000000000 < x.mag := of_decide_eq_false hnan
  unfold signed
  split_ifs <;> omega

/-- The index's float comparison is the comparison of ranks. -/
theorem pgFloatCmp_eq (a b : F64) : pgFloatCmp a b = compare a.rank b.rank := by
  unfold pgFloatCmp F64.partialCmp
  cases ha : a.isNan with
  | true =>
    rw [F64.rank_eq_nan ha]
    cases hb : b.isNan with
    | true =>
      rw [F64.rank_eq_nan hb]
      exact (compare_eq_iff_eq.mpr rfl).symm
    | false =>
      rw [F64.rank_eq_line hb]
      exact (compare_gt_iff_gt.mpr (Ieee754.Format.lineRank_lt_nan _)).symm
  | false =>
    rw [F64.rank_eq_line ha]
    cases hb : b.isNan with
    | true =>
      rw [F64.rank_eq_nan hb]
      exact (compare_lt_iff_lt.mpr (Ieee754.Format.lineRank_lt_nan _)).symm
    | false =>
      obtain ⟨ha₁, ha₂⟩ := F64.signed_bounds ha
      obtain ⟨hb₁, hb₂⟩ := F64.signed_bounds hb
      rw [F64.rank_eq_line hb, Ieee754.Format.lineRank_compare ha₁ ha₂ hb₁ hb₂]
      rfl

theorem F64.ofNatBits_rank {n : Nat} (hn : n < 2 ^ 64) :
    (F64.ofNatBits n).rank = (binary64.decode n).rank := by
  unfold F64.rank F64.ofNatBits
  rw [UInt64.toNat_ofNat_of_lt' hn]

/-- Widening keeps a float where it is. -/
theorem F32.rank_toF64 (x : F32) : x.toF64.rank = x.rank := by
  have hbound : ∀ neg, ∀ n ≤ binary64.infBits, binary64.withSign neg n < 2 ^ 64 := by
    intro neg n hn
    have hinf : binary64.infBits = 0x7FF0000000000000 := by decide
    have hsign : binary64.signBit = 0x8000000000000000 := by decide
    unfold Ieee754.Format.withSign
    split_ifs <;> omega
  unfold F32.toF64 F32.rank
  cases hx : binary32.decode x.bits.toNat with
  | nan =>
    rw [F64.ofNatBits_rank (by decide)]
    decide +kernel
  | inf neg =>
    rw [F64.ofNatBits_rank (hbound neg _ le_rfl), Ieee754.Format.decode_inf (by decide) (by decide)]
  | finite neg m e =>
    have hround : binary64.roundDyadic neg m e < 2 ^ 64 := by
      unfold Ieee754.Format.roundDyadic
      rw [Ieee754.Format.roundRat_sign]
      exact hbound neg _ (Ieee754.Format.roundRat_le_infBits (by decide) _ (Nat.two_pow_pos _).ne')
    rw [F64.ofNatBits_rank hround]
    -- 24 bits fit in 53, and the narrow exponents in the wide field
    obtain ⟨hm, hlow, hhigh⟩ := Ieee754.Format.finite_of_decode (by decide) hx
    have hnarrow : binary32.minExp = -149 ∧ (2 : Int) ^ binary32.expBits = 256 := by decide
    have hwide : binary64.minExp = -1074 ∧ (2 : Int) ^ binary64.expBits = 2048 := by decide
    refine Ieee754.Format.rank_roundDyadic (by decide) (by decide) neg (hm.trans (by decide)) ?_ ?_
    · omega
    · omega

/-! ## The SQL side -/

namespace Sql

/-- A value as SQL sees it. -/
inductive Value where
  | null
  | bool (v : Bool)
  | int2 (v : Int16)
  | int4 (v : Int32)
  | int8 (v : Int64)
  | float4 (v : F32)
  | float8 (v : F64)
  | other (oid : UInt32) (datum : Datum)

def readDatum (typoid : TypeOid) (datum : Datum) (isNull : Bool) : Value :=
  if isNull then .null
  else
    match typoid with
    | .bool => .bool datum.toBool
    | .int2 => .int2 datum.toI16
    | .int4 => .int4 datum.toI32
    | .int8 => .int8 datum.toI64
    | .float4 => .float4 datum.toF32
    | .float8 => .float8 datum.toF64
    | .other oid => .other oid datum

namespace Value

/-- The number an integer type holds; a boolean is ordered as zero and one. -/
def int? : Value → Option Int
  | bool v => some (if v then 1 else 0)
  | int2 v => some v.toInt
  | int4 v => some v.toInt
  | int8 v => some v.toInt
  | _ => none

/-- The rank of a float. -/
def float? : Value → Option (ℤ ×ₗ ℚ)
  | float4 v => some v.rank
  | float8 v => some v.rank
  | _ => none

end Value

/-- How two values compare: nothing compares with `NULL`, values of one family by what they hold, and
values of different families in whatever way `cast` makes them comparable. -/
def compareValues (cast : Value → Value → Option Ordering) (a b : Value) : Option Ordering :=
  match a, b with
  | .null, _ | _, .null => none
  | a, b =>
    match a.int?, b.int?, a.float?, b.float? with
    | some x, some y, _, _ => some (compare x y)
    | _, _, some x, some y => some (compare x y)
    | _, _, _, _ => cast a b

/-- Which orderings a strategy's operator is true of. -/
def accepts (strategy : UInt16) (ord : Ordering) : Bool :=
  if strategy = strategyLt then ord == .lt
  else if strategy = strategyLe then ord != .gt
  else if strategy = strategyEq then ord == .eq
  else if strategy = strategyGe then ord != .lt
  else if strategy = strategyGt then ord == .gt
  else false

/-- `SK_SEARCHNULL` and `SK_SEARCHNOTNULL`, which make a null argument a test for null. -/
def skSearchNull : UInt32 := 0x0040
def skSearchNotNull : UInt32 := 0x0080

/-- A key that compares one attribute column with one value. -/
def Plain (index : IndexColumns) (key : ScanKey) : Prop :=
  key.flags &&& (skIsNull ||| skRowHeader ||| skSearchArray) = 0 ∧ 2 ≤ asUsize key.attno ∧
    asUsize key.attno - 2 < index.count ∧ 1 ≤ key.strategy ∧ key.strategy ≤ 5

/-- A key whose argument is a null, which no comparison is true of. -/
def NullArgument (key : ScanKey) : Prop :=
  key.flags &&& skIsNull ≠ 0 ∧ key.flags &&& (skSearchNull ||| skSearchNotNull) = 0

instance (index : IndexColumns) (key : ScanKey) : Decidable (Plain index key) :=
  inferInstanceAs (Decidable (_ ∧ _))

instance (key : ScanKey) : Decidable (NullArgument key) := inferInstanceAs (Decidable (_ ∧ _))

/-- The SQL condition of a key is true of the row `values`. -/
def Holds (cast : Value → Value → Option Ordering) (beyond : ScanKey → Prop)
    (index : IndexColumns) (values : List Datum) (isnull : List Bool) (key : ScanKey) : Prop :=
  if NullArgument key then False
  else if Plain index key then
    let col := asUsize key.attno - 2
    let value := readDatum (index.columnType col) (values.getD (col + 1) 0)
      (isnull.getD (col + 1) false)
    let argument := readDatum (key.argType index col) key.argument false
    ∃ ord, compareValues cast value argument = some ord ∧ accepts key.strategy ord = true
  else beyond key

end Sql

/-! ## The two sides compare alike -/

theorem compare_int64 (a b : Int64) : compare a b = compare a.toInt b.toInt := by
  show compareOfLessAndEq a b = compareOfLessAndEq a.toInt b.toInt
  simp only [compareOfLessAndEq, Int64.lt_iff_toInt_lt, ← Int64.toInt_inj]

section Values

variable {t t' : TypeOid} {d d' : Datum} {v v' : AttrValue}

theorem value_integral (ht : t.integral = true) (hv : valueFromDatum t d false = some v) :
    ∃ x : Int64, v = .int x ∧ (Sql.readDatum t d false).int? = some x.toInt := by
  cases t with
  | bool =>
    cases hv
    refine ⟨_, rfl, ?_⟩
    show some (if d.toBool then (1 : Int) else 0) = _
    cases d.toBool <;> rfl
  | int2 =>
    cases hv
    exact ⟨_, rfl, congrArg some (Int16.toInt_toInt64 _).symm⟩
  | int4 =>
    cases hv
    exact ⟨_, rfl, congrArg some (Int32.toInt_toInt64 _).symm⟩
  | int8 =>
    cases hv
    exact ⟨_, rfl, rfl⟩
  | float4 => cases ht
  | float8 => cases ht
  | other => cases ht

theorem value_floating (ht : t.floating = true) (hv : valueFromDatum t d false = some v) :
    ∃ x : F64, v = .float x ∧ (Sql.readDatum t d false).int? = none ∧
      (Sql.readDatum t d false).float? = some x.rank := by
  cases t with
  | float4 =>
    cases hv
    exact ⟨_, rfl, rfl, congrArg some (F32.rank_toF64 _).symm⟩
  | float8 =>
    cases hv
    exact ⟨_, rfl, rfl, rfl⟩
  | bool => cases ht
  | int2 => cases ht
  | int4 => cases ht
  | int8 => cases ht
  | other => cases ht

theorem compareValues_int (cast : Sql.Value → Sql.Value → Option Ordering) {a b : Sql.Value}
    {x y : Int} (ha : a.int? = some x) (hb : b.int? = some y) :
    Sql.compareValues cast a b = some (compare x y) := by
  unfold Sql.compareValues
  split
  · cases ha
  · cases hb
  · rw [ha, hb]

theorem compareValues_float (cast : Sql.Value → Sql.Value → Option Ordering) {a b : Sql.Value}
    {x y : ℤ ×ₗ ℚ} (hna : a.int? = none) (ha : a.float? = some x) (hb : b.float? = some y) :
    Sql.compareValues cast a b = some (compare x y) := by
  unfold Sql.compareValues
  split
  · cases ha
  · cases hb
  · rw [hna, ha, hb]

/-- **The two sides compare alike**, whatever was widened to what. -/
theorem numCmp_eq (cast : Sql.Value → Sql.Value → Option Ordering) {isNull : Bool}
    (hfamily : sameFamily t t' = true) (hv : valueFromDatum t d isNull = some v)
    (hv' : valueFromDatum t' d' false = some v') :
    v.numCmp v' =
      Sql.compareValues cast (Sql.readDatum t d isNull) (Sql.readDatum t' d' false) := by
  cases isNull with
  | true =>
    cases hv
    rfl
  | false =>
    rcases Bool.or_eq_true_iff.mp hfamily with hint | hfloat
    · obtain ⟨ht, ht'⟩ := Bool.and_eq_true_iff.mp hint
      obtain ⟨x, rfl, hx⟩ := value_integral ht hv
      obtain ⟨y, rfl, hy⟩ := value_integral ht' hv'
      rw [compareValues_int cast hx hy]
      exact congrArg some (compare_int64 x y)
    · obtain ⟨ht, ht'⟩ := Bool.and_eq_true_iff.mp hfloat
      obtain ⟨x, rfl, hnone, hx⟩ := value_floating ht hv
      obtain ⟨y, rfl, -, hy⟩ := value_floating ht' hv'
      rw [compareValues_float cast hnone hx hy]
      exact congrArg some (pgFloatCmp_eq x y)

end Values

/-! ## Atoms -/

theorem eqMatches_iff (v w : AttrValue) : eqMatches v w = true ↔ v.numCmp w = some .eq := by
  cases v <;> cases w <;> simp [eqMatches, AttrValue.numCmp, compare_int64, Int64.toInt_inj]

/-- What compares is no null. -/
theorem isOrderable_of_numCmp {v w : AttrValue} {ord : Ordering} (h : v.numCmp w = some ord) :
    v.isOrderable = true := by
  cases v with
  | null => cases h
  | int => rfl
  | float => rfl

section Atoms

variable {row : List AttrValue} {col : Nat} {v value : AttrValue}

theorem eq_satisfied (hv : row[col]? = some v) : (Atom.eq col value).satisfiedBy row = true ↔
    ∃ ord, v.numCmp value = some ord ∧ (ord == .eq) = true := by
  simp only [Atom.satisfiedBy, Atom.col, hv, eqMatches_iff, beq_iff_eq]
  constructor
  · intro h
    exact ⟨.eq, h, rfl⟩
  · rintro ⟨ord, h, rfl⟩
    exact h

/-- A range bounded on one side, by the orderings it accepts. -/
theorem range_satisfied (hv : row[col]? = some v) {lo hi : Bound} {accepted : Ordering → Bool}
    (hside : (lowerMatches v lo && upperMatches v hi) = true ↔
      ∃ ord, v.numCmp value = some ord ∧ accepted ord = true) :
    (Atom.range col lo hi).satisfiedBy row = true ↔
      ∃ ord, v.numCmp value = some ord ∧ accepted ord = true := by
  simp only [Atom.satisfiedBy, Atom.col, hv, Bool.and_assoc]
  rw [Bool.and_eq_true, hside]
  constructor
  · exact And.right
  · rintro ⟨ord, h, hacc⟩
    exact ⟨isOrderable_of_numCmp h, ord, h, hacc⟩

/-- An atom accepts the orderings its strategy's operator is true of. -/
theorem strategyAtom_satisfied {strategy : UInt16} {atom : Atom}
    (hatom : strategyAtom strategy col value = some atom) (hv : row[col]? = some v) :
    atom.satisfiedBy row = true ↔
      ∃ ord, v.numCmp value = some ord ∧ Sql.accepts strategy ord = true := by
  unfold strategyAtom at hatom
  split_ifs at hatom with heq hlt hle hgt hge
  · cases hatom
    rw [heq]
    exact eq_satisfied hv
  all_goals
    cases hatom
    refine range_satisfied hv ?_
    simp only [lowerMatches, upperMatches, Bool.true_and, Bool.and_true]
  · rw [hlt]
    cases v.numCmp value with
    | none => simp
    | some ord => cases ord <;> simp [Sql.accepts, strategyLt]
  · rw [hle]
    cases v.numCmp value with
    | none => simp
    | some ord => cases ord <;> simp [Sql.accepts, strategyLt, strategyLe]
  · rw [hgt]
    cases v.numCmp value with
    | none => simp
    | some ord =>
      cases ord <;> simp [Sql.accepts, strategyLt, strategyLe, strategyEq, strategyGe, strategyGt]
  · rw [hge]
    cases v.numCmp value with
    | none => simp
    | some ord => cases ord <;> simp [Sql.accepts, strategyLt, strategyLe, strategyEq, strategyGe]

omit v row in
theorem strategyAtom_range {strategy : UInt16} {atom : Atom}
    (hatom : strategyAtom strategy col value = some atom) : 1 ≤ strategy ∧ strategy ≤ 5 := by
  unfold strategyAtom at hatom
  split_ifs at hatom with heq hlt hle hgt hge <;> simp only [*] <;> decide

end Atoms

/-- What a key that became an atom was. -/
theorem atomFromKey_some {index : IndexColumns} {key : ScanKey} {atom : Atom}
    (hatom : atomFromKey index key = some atom) : Sql.Plain index key ∧ ∃ value,
      valueFromDatum (key.argType index (asUsize key.attno - 2)) key.argument false = some value ∧
      sameFamily (index.columnType (asUsize key.attno - 2))
        (key.argType index (asUsize key.attno - 2)) = true ∧
      strategyAtom key.strategy (asUsize key.attno - 2) value = some atom := by
  unfold atomFromKey at hatom
  split_ifs at hatom with hflags hcolumn
  dsimp only at hatom
  by_cases hcount : asUsize key.attno - 2 ≥ index.count
  · rw [if_pos hcount] at hatom
    cases hatom
  rw [if_neg hcount] at hatom
  obtain ⟨value, hvalue, hatom⟩ := Option.bind_eq_some_iff.mp hatom
  by_cases hfamily : sameFamily (index.columnType (asUsize key.attno - 2))
      (key.argType index (asUsize key.attno - 2)) = true
  · rw [if_pos hfamily] at hatom
    obtain ⟨hlow, hhigh⟩ := strategyAtom_range hatom
    exact ⟨⟨not_not.mp hflags, not_lt.mp hcolumn, not_le.mp hcount, hlow, hhigh⟩, value, hvalue,
      hfamily, hatom⟩
  · rw [if_neg hfamily] at hatom
    cases hatom

/-- A plain key tests for no null. -/
theorem not_nullArgument {index : IndexColumns} {key : ScanKey} (h : Sql.Plain index key) :
    ¬ Sql.NullArgument key := by
  rintro ⟨hnull, -⟩
  apply hnull
  have hflags := h.1
  have hsub : key.flags &&& skIsNull =
      key.flags &&& (skIsNull ||| skRowHeader ||| skSearchArray) &&& skIsNull := by
    rw [UInt32.and_assoc]
    rfl
  rw [hsub, hflags, UInt32.zero_and]

/-- The atom a key became accepts a stored row exactly when the key's condition is true of it. -/
theorem atomFromKey_holds (cast : Sql.Value → Sql.Value → Option Ordering)
    (beyond : ScanKey → Prop) {index : IndexColumns} {key : ScanKey} {atom : Atom}
    (hatom : atomFromKey index key = some atom) {values : List Datum} {isnull : List Bool}
    {row : List AttrValue} (hrow : rowFromDatums index values isnull = .ok row) :
    atom.satisfiedBy row = true ↔ Sql.Holds cast beyond index values isnull key := by
  obtain ⟨hplain, value, hvalue, hfamily, hatom⟩ := atomFromKey_some hatom
  have hcol : (List.range index.count)[asUsize key.attno - 2]? = some (asUsize key.attno - 2) :=
    List.getElem?_range hplain.2.2.1
  obtain ⟨v, hv, hstored⟩ := Outcome.mapM_getElem? hrow hcol
  dsimp only at hstored
  cases hdatum : valueFromDatum (index.columnType (asUsize key.attno - 2))
      (values.getD (asUsize key.attno - 2 + 1) 0)
      (isnull.getD (asUsize key.attno - 2 + 1) false) with
  | none =>
    rw [hdatum] at hstored
    cases hstored
  | some w =>
    rw [hdatum] at hstored
    cases hstored
    rw [strategyAtom_satisfied hatom hv, numCmp_eq cast hfamily hdatum hvalue]
    unfold Sql.Holds
    rw [if_neg (not_nullArgument hplain), if_pos hplain]

/-! ## The predicate -/

theorem keysLoop_eq (index : IndexColumns) (keys : List ScanKey) (atoms : List Atom)
    (recheck : Bool) :
    keys.foldl (fun (atoms, recheck) key =>
      match atomFromKey index key with
      | some atom => (atoms ++ [atom], recheck)
      | none => (atoms, true)) (atoms, recheck) =
    (atoms ++ keys.filterMap (atomFromKey index),
      recheck || keys.any fun key => (atomFromKey index key).isNone) := by
  induction keys generalizing atoms recheck with
  | nil => simp
  | cons key keys ih =>
    rw [List.foldl_cons]
    cases hatom : atomFromKey index key with
    | none => simp [ih, hatom]
    | some atom => simp [ih, hatom]

theorem predicateFromKeys_eq (index : IndexColumns) (keys : List ScanKey) :
    predicateFromKeys index keys =
      { predicate := if (keys.filterMap (atomFromKey index)).isEmpty then .all
          else .and (keys.filterMap (atomFromKey index))
        recheck := keys.any fun key => (atomFromKey index key).isNone } := by
  let assemble : List Atom × Bool → PushedPredicate := fun p =>
    { predicate := if p.1.isEmpty then .all else .and p.1
      recheck := p.2 }
  exact congrArg assemble (keysLoop_eq index keys [] false)

/-- The predicate of a list of keys is the conjunction of their atoms. -/
theorem predicateFromKeys_satisfied (index : IndexColumns) (keys : List ScanKey)
    (row : List AttrValue) : (predicateFromKeys index keys).predicate.satisfiedBy row = true ↔
      ∀ key ∈ keys, ∀ atom, atomFromKey index key = some atom → atom.satisfiedBy row = true := by
  have hall : (∀ atom ∈ keys.filterMap (atomFromKey index), atom.satisfiedBy row = true) ↔
      ∀ key ∈ keys, ∀ atom, atomFromKey index key = some atom → atom.satisfiedBy row = true := by
    constructor
    · intro h key hkey atom hatom
      exact h atom (List.mem_filterMap.mpr ⟨key, hkey, hatom⟩)
    · intro h atom hatom
      obtain ⟨key, hkey, hsome⟩ := List.mem_filterMap.mp hatom
      exact h key hkey atom hsome
  rw [predicateFromKeys_eq, ← hall]
  dsimp only
  split_ifs with hempty
  · rw [List.isEmpty_iff.mp hempty]
    simp [Predicate.satisfiedBy]
  · exact List.all_eq_true

/-- **A pushed predicate agrees with SQL.** It is satisfied by every stored row for which the
conditions of all keys are true; where no recheck is asked for, by no other. -/
theorem pushdown_agrees (cast : Sql.Value → Sql.Value → Option Ordering) (beyond : ScanKey → Prop)
    (index : IndexColumns) (keys : List ScanKey) (values : List Datum) (isnull : List Bool)
    (row : List AttrValue) (hrow : rowFromDatums index values isnull = .ok row) :
    ((∀ key ∈ keys, Sql.Holds cast beyond index values isnull key) →
      (predicateFromKeys index keys).predicate.satisfiedBy row = true) ∧
    ((predicateFromKeys index keys).recheck = false →
      (predicateFromKeys index keys).predicate.satisfiedBy row = true →
      ∀ key ∈ keys, Sql.Holds cast beyond index values isnull key) := by
  rw [predicateFromKeys_satisfied]
  constructor
  · intro hholds key hkey atom hatom
    exact (atomFromKey_holds cast beyond hatom hrow).mpr (hholds key hkey)
  · intro hrecheck hsat key hkey
    rw [predicateFromKeys_eq, List.any_eq_false] at hrecheck
    -- no key was refused, so this one became an atom
    have hsome := hrecheck key hkey
    cases hatom : atomFromKey index key with
    | none =>
      rw [hatom] at hsome
      exact absurd rfl hsome
    | some atom => exact (atomFromKey_holds cast beyond hatom hrow).mp (hsat key hkey atom hatom)

/-- A `float4` column that holds a NaN, compared with a `float8` literal by `>`. -/
theorem pushdown_agrees_nan :
    let index : IndexColumns := ⟨[.other 0, .float4]⟩
    let key : ScanKey := ⟨0, 2, strategyGt, .float8, 0x3FF0000000000000⟩
    ((∀ key' ∈ [key], Sql.Holds (fun _ _ => none) (fun _ => False) index [0, 0x7FC00000]
        [false, false] key') →
      (predicateFromKeys index [key]).predicate.satisfiedBy [.float ⟨0x7FF8000000000000⟩] = true) ∧
    ((predicateFromKeys index [key]).recheck = false →
      (predicateFromKeys index [key]).predicate.satisfiedBy [.float ⟨0x7FF8000000000000⟩] = true →
      ∀ key' ∈ [key], Sql.Holds (fun _ _ => none) (fun _ => False) index [0, 0x7FC00000]
        [false, false] key') :=
  pushdown_agrees _ _ _ _ _ _ _ (by decide +kernel)

end Brindle
