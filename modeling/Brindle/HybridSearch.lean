/-
# Brindle.HybridSearch — a hybrid search from its arguments to its rows.

`hybrid.rs`: `run` checks what it is asked for, resolves the table and its columns in the catalog, reads
the two arms and fuses them. Postgres is a parameter: the row its catalog answers `resolve` with, and
the rows it returns for a statement and the arguments bound to it. Of it one thing is relied on, that a
`LIMIT` is kept; with the checks on the depth that is why no rank wraps.
-/
import Brindle.Hybrid
import Brindle.PgVector

namespace Brindle

open Outcome (fail)
open Text (trim)

/-- Why a hybrid search could not run; `fused` is what fusion reports. -/
inductive HybridSearchError (σ : Type) where
  /-- "relation \"{rel}\" does not exist" -/
  | relationNotFound (relation : String)
  /-- "{role} column \"{column}\" does not exist on the relation" -/
  | columnMissing (role column : String)
  /-- "id column \"{column}\" is {found}, but must be an integer type" -/
  | idNotInteger (column found : String)
  /-- "vector column \"{column}\" is {found}, but must be brindle_vector" -/
  | vectorNotVector (column found : String)
  /-- "text column \"{column}\" is {found}, but must be tsvector or a text type" -/
  | textNotSearchable (column found : String)
  /-- "hybrid search needs a brindle index on vector column \"{column}\"" -/
  | noBrindleIndex (column : String)
  /-- "vector column \"{column}\" has brindle indexes with different metrics ({operators})" -/
  | ambiguousMetric (column operators : String)
  /-- "{param} must be at least 1, got {value}" -/
  | nonPositive (param : String) (value : Int32)
  | vector (e : VectorError)
  | fused (e : HybridError)
  | spi (e : σ)
  deriving DecidableEq, Repr

/-- Whether the lexical column is read directly or lexed in the query. -/
inductive TextKind where
  | tsvector
  | text
  deriving DecidableEq, Repr

/-- The quoted identifiers, and the ordering operator of the vector index. -/
structure Resolved where
  relIdent : String
  idIdent : String
  vecIdent : String
  textIdent : String
  vecOperator : String
  textKind : TextKind
  deriving DecidableEq, Repr

/-- A value bound to a statement. -/
inductive SpiArg where
  | text (value : Option String)
  | int8 (value : Int64)
  | vector (components : List F32)
  deriving DecidableEq, Repr

/-- The row `resolve` reads, column by column. -/
structure CatalogRow (σ : Type) where
  relIdent : Except σ (Option String)
  idIdent : Except σ (Option String)
  vecIdent : Except σ (Option String)
  textIdent : Except σ (Option String)
  idType : Except σ (Option String)
  vecType : Except σ (Option String)
  textType : Except σ (Option String)
  vecOperators : Except σ (Option String)

/-- `SpiClient`: the rows of the catalog query, and the first columns of any other statement's. -/
structure SpiClient (σ : Type) where
  catalog : List SpiArg → Except σ (List (CatalogRow σ))
  select : String → List SpiArg → Except σ (List (Except σ (Option Int64)))

namespace HybridSearch

variable {σ : Type}

/-- `map_err(HybridError::Spi)`. -/
def spi {α : Type} : Except σ α → Outcome (HybridSearchError σ) α
  | .ok a => .ok a
  | .error e => fail (.spi e)

/-- `ok_or_else(..)`. -/
def okOr {α : Type} (e : HybridSearchError σ) : Option α → Outcome (HybridSearchError σ) α
  | some a => .ok a
  | none => fail e

/-! ## The catalog -/

/-- The id column: present and an integer type. -/
def checkId (column : String) : Option String → Outcome (HybridSearchError σ) Unit
  | none => fail (.columnMissing "id" column)
  | some found =>
    if found ∈ ["int2", "int4", "int8"] then .ok () else fail (.idNotInteger column found)

/-- The vector column: present and `brindle_vector`. -/
def checkVector (column : String) : Option String → Outcome (HybridSearchError σ) Unit
  | none => fail (.columnMissing "vector" column)
  | some found =>
    if found = "brindle_vector" then .ok () else fail (.vectorNotVector column found)

/-- The text column: present and a searchable type. -/
def textKindOf (column : String) : Option String → Outcome (HybridSearchError σ) TextKind
  | none => fail (.columnMissing "text" column)
  | some found =>
    if found = "tsvector" then .ok .tsvector
    else if found ∈ ["text", "varchar", "bpchar"] then .ok .text
    else fail (.textNotSearchable column found)

/-- The operators of an aggregated list that are not empty. -/
def listed (operators : String) : List (List Char) :=
  (operators.toList.splitOn '|').filter (· ≠ [])

/-- One distinct ordering operator and no more. -/
def operatorOf (column operators : String) : Outcome (HybridSearchError σ) String :=
  match (listed operators).length with
  | 0 => fail (.noBrindleIndex column)
  | 1 => .ok operators
  | _ => fail (.ambiguousMetric column operators)

/-- Resolve the relation and the columns, checking types on the way. -/
def resolve (client : SpiClient σ) (relation idColumn vectorColumn textColumn : String) :
    Outcome (HybridSearchError σ) Resolved := do
  let table ← spi (client.catalog [.text (some relation), .text (some idColumn),
    .text (some vectorColumn), .text (some textColumn)])
  let row ← okOr (.relationNotFound relation) table.head?
  let relIdent ← okOr (.relationNotFound relation) (← spi row.relIdent)
  let idIdent ← spi row.idIdent
  let vecIdent ← spi row.vecIdent
  let textIdent ← spi row.textIdent
  let idType ← spi row.idType
  let vecType ← spi row.vecType
  let textType ← spi row.textType
  let vecOperators ← spi row.vecOperators
  checkId idColumn idType
  checkVector vectorColumn vecType
  let textKind ← textKindOf textColumn textType
  let vecOperator ← operatorOf vectorColumn (vecOperators.getD "")
  return ⟨relIdent, idIdent.getD "", vecIdent.getD "", textIdent.getD "", vecOperator, textKind⟩

/-! ## The arms -/

/-- The ids of a table, without the nulls. -/
def collectIds : List (Except σ (Option Int64)) → Outcome (HybridSearchError σ) (List Int64)
  | [] => .ok []
  | row :: rest => do
    let id ← spi row
    let ids ← collectIds rest
    return id.toList ++ ids

def fetchIds (client : SpiClient σ) (sql : String) (args : List SpiArg) :
    Outcome (HybridSearchError σ) (List Int64) := do
  collectIds (← spi (client.select sql args))

/-- `BrindleVector::from_slice`, of what it checks. -/
def fromSlice (components : List F32) : Outcome (HybridSearchError σ) (List F32) :=
  match PgVector.validate components with
  | .ok () => .ok components
  | .error e => fail (.vector e)

/-- The vector side: the nearest ids, nearest first. -/
def vectorIds (client : SpiClient σ) (r : Resolved) (queryVec : List F32) (depth : Int32) :
    Outcome (HybridSearchError σ) (List Int64) := do
  let sql := "SELECT (" ++ r.idIdent ++ ")::bigint FROM " ++ r.relIdent ++ " WHERE " ++ r.vecIdent ++
    " IS NOT NULL ORDER BY " ++ r.vecIdent ++ " OPERATOR(" ++ r.vecOperator ++ ") $1 LIMIT $2"
  let query ← fromSlice queryVec
  fetchIds client sql [.vector query, .int8 depth.toInt64]

/-- The lexical side: the best full-text matches, best first. -/
def textIds (client : SpiClient σ) (r : Resolved) (text : String) (config : Option String)
    (depth : Int32) : Outcome (HybridSearchError σ) (List Int64) :=
  let (tsquery, lexed, args, limit) := match config with
    | some cfg =>
      ("websearch_to_tsquery($2::regconfig, $1)",
        match r.textKind with
        | .tsvector => r.textIdent
        | .text => "to_tsvector($2::regconfig, " ++ r.textIdent ++ ")",
        [SpiArg.text (some text), .text (some cfg), .int8 depth.toInt64], "$3")
    | none =>
      ("websearch_to_tsquery($1)",
        match r.textKind with
        | .tsvector => r.textIdent
        | .text => "to_tsvector(" ++ r.textIdent ++ ")",
        [SpiArg.text (some text), .int8 depth.toInt64], "$2")
  let sql := "SELECT (" ++ r.idIdent ++ ")::bigint FROM " ++ r.relIdent ++ " WHERE " ++ lexed ++
    " @@ " ++ tsquery ++ " ORDER BY ts_rank(" ++ lexed ++ ", " ++ tsquery ++ ") DESC, (" ++
    r.idIdent ++ ")::bigint ASC LIMIT " ++ limit
  fetchIds client sql args

/-! ## The search -/

/-- `k.saturating_mul(4)`. -/
def saturatingMulFour (k : Int32) : Int32 :=
  Int32.ofInt (max (-2 ^ 31) (min (2 ^ 31 - 1) (k.toInt * 4)))

/-- How many rows are read from each side. -/
def depthOf (n : Option Int32) (k : Int32) : Int32 := n.getD (max (saturatingMulFour k) 40)

/-- A query text that is blank is no query. -/
def lexical (queryText : Option String) : Option String :=
  queryText.filter fun t => !(trim PgVector.isWhitespace t.toList).isEmpty

/-- `fuse`, its error wrapped. -/
def fuseArms (iterate : ScoreMap → ScoreMap) (vector text : List Int64) (rrfK : F64) (k : Int32) :
    Outcome (HybridSearchError σ) (List HybridRow) :=
  match Hybrid.fuse iterate vector text rrfK k with
  | .ok rows => .ok rows
  | .error e => fail (.fused e)

/-- The whole search. -/
def run (client : SpiClient σ) (iterate : ScoreMap → ScoreMap)
    (relation idColumn vectorColumn textColumn : String) (queryText : Option String)
    (queryVec : List F32) (k : Int32) (n : Option Int32) (rrfK : F64) (config : Option String) :
    Outcome (HybridSearchError σ) (List HybridRow) := do
  if k < 1 then
    fail (.nonPositive "k" k)
  let depth := depthOf n k
  if depth < 1 then
    fail (.nonPositive "n" depth)
  let resolved ← resolve client relation idColumn vectorColumn textColumn
  let vector ← vectorIds client resolved queryVec depth
  let text ← match lexical queryText with
    | some text => textIds client resolved text config depth
    | none => .ok []
  fuseArms iterate vector text rrfK k

/-! ## What a step that succeeds has found -/

@[simp] theorem spi_eq_ok {α : Type} {x : Except σ α} {a : α} : spi x = .ok a ↔ x = .ok a := by
  cases x with
  | ok b => simp [spi]
  | error e => simp [spi, fail]

@[simp] theorem okOr_eq_ok {α : Type} {e : HybridSearchError σ} {x : Option α} {a : α} :
    okOr e x = .ok a ↔ x = some a := by
  cases x with
  | some b => simp [okOr]
  | none => simp [okOr, fail]

theorem fuseArms_eq_ok {iterate : ScoreMap → ScoreMap} {vector text : List Int64} {rrfK : F64}
    {k : Int32} {rows : List HybridRow} :
    fuseArms (σ := σ) iterate vector text rrfK k = .ok rows ↔
      Hybrid.fuse iterate vector text rrfK k = .ok rows := by
  unfold fuseArms
  cases Hybrid.fuse iterate vector text rrfK k with
  | ok b => simp
  | error e => simp [fail]

theorem checkId_eq_ok {column : String} {found : Option String} :
    checkId (σ := σ) column found = .ok () ↔ ∃ t ∈ ["int2", "int4", "int8"], found = some t := by
  cases found with
  | none => simp [checkId, fail]
  | some t => by_cases h : t ∈ ["int2", "int4", "int8"] <;> simp_all [checkId, fail]

theorem checkVector_eq_ok {column : String} {found : Option String} :
    checkVector (σ := σ) column found = .ok () ↔ found = some "brindle_vector" := by
  cases found with
  | none => simp [checkVector, fail]
  | some t => by_cases h : t = "brindle_vector" <;> simp [checkVector, fail, h]

theorem textKindOf_eq_ok {column : String} {found : Option String} {kind : TextKind} :
    textKindOf (σ := σ) column found = .ok kind ↔
      found = some "tsvector" ∧ kind = .tsvector ∨
      (∃ t ∈ ["text", "varchar", "bpchar"], found = some t) ∧ kind = .text := by
  cases found with
  | none => simp [textKindOf, fail]
  | some t =>
    by_cases hvector : t = "tsvector"
    · subst hvector
      simp [textKindOf, eq_comm]
    · by_cases htext : t ∈ ["text", "varchar", "bpchar"] <;>
        simp_all [textKindOf, fail, eq_comm]

theorem operatorOf_eq_ok {column operators operator : String} :
    operatorOf (σ := σ) column operators = .ok operator ↔
      operator = operators ∧ (listed operators).length = 1 := by
  unfold operatorOf
  rcases (listed operators).length with - | - | count
  · simp [fail]
  · simp [eq_comm]
  · simp [fail]

/-- What the catalog says of a search that was resolved. -/
structure Suits (row : CatalogRow σ) (r : Resolved) : Prop where
  relation : row.relIdent = .ok (some r.relIdent)
  id : ∃ t ∈ ["int2", "int4", "int8"], row.idType = .ok (some t)
  vector : row.vecType = .ok (some "brindle_vector")
  text : row.textType = .ok (some "tsvector") ∧ r.textKind = .tsvector ∨
    (∃ t ∈ ["text", "varchar", "bpchar"], row.textType = .ok (some t)) ∧ r.textKind = .text
  operator : row.vecOperators = .ok (some r.vecOperator) ∧ (listed r.vecOperator).length = 1

theorem resolve_suits {client : SpiClient σ} {relation idColumn vectorColumn textColumn : String}
    {r : Resolved} (h : resolve client relation idColumn vectorColumn textColumn = .ok r) :
    ∃ row rest, client.catalog [.text (some relation), .text (some idColumn),
      .text (some vectorColumn), .text (some textColumn)] = .ok (row :: rest) ∧ Suits row r := by
  unfold resolve at h
  simp only [Outcome.bind_eq_ok, spi_eq_ok, okOr_eq_ok, operatorOf_eq_ok, textKindOf_eq_ok] at h
  obtain ⟨table, htable, row, hrow, found, hrel, relIdent, rfl, idIdent, -, vecIdent, -,
    textIdent, -, idType, hid, vecType, hvec, textType, htext, operators, hoperators, ⟨⟩, hcheckId,
    ⟨⟩, hcheckVector, kind, hkind, operator, ⟨rfl, hone⟩, hr⟩ := h
  cases hr
  obtain ⟨rest, rfl⟩ := List.head?_eq_some_iff.mp hrow
  obtain ⟨idFound, hidFound, rfl⟩ := checkId_eq_ok.mp hcheckId
  obtain rfl := checkVector_eq_ok.mp hcheckVector
  refine ⟨row, rest, htable, hrel, ⟨idFound, hidFound, hid⟩, hvec, ?_, ?_⟩
  · rcases hkind with ⟨rfl, rfl⟩ | ⟨⟨t, ht, rfl⟩, rfl⟩
    · exact .inl ⟨htext, rfl⟩
    · exact .inr ⟨⟨t, ht, htext⟩, rfl⟩
  · -- an aggregate that is null lists no operator
    cases operators with
    | none => exact absurd hone (by decide)
    | some operators => exact ⟨hoperators, hone⟩

/-! ## How long the arms are -/

/-- A statement whose last argument bounds its `LIMIT` returns no more rows than that. -/
def Limits (client : SpiClient σ) : Prop := ∀ sql args rows limit,
  client.select sql args = .ok rows → args.getLast? = some (.int8 limit) →
    rows.length ≤ limit.toInt.toNat

theorem collectIds_length {table : List (Except σ (Option Int64))} {ids : List Int64}
    (h : collectIds table = .ok ids) : ids.length ≤ table.length := by
  induction table generalizing ids with
  | nil =>
    cases h
    exact le_rfl
  | cons row rest ih =>
    obtain ⟨id, -, h⟩ := Outcome.bind_eq_ok.mp h
    obtain ⟨others, hothers, ⟨⟩⟩ := Outcome.bind_eq_ok.mp h
    have hid : id.toList.length ≤ 1 := by cases id <;> simp
    rw [List.length_append, List.length_cons]
    exact (Nat.add_le_add hid (ih hothers)).trans_eq (Nat.add_comm _ _)

section

variable {client : SpiClient σ} (hlimits : Limits client)
include hlimits

theorem fetchIds_length {sql : String} {args : List SpiArg} {depth : Int32} {ids : List Int64}
    (hlast : args.getLast? = some (.int8 depth.toInt64)) (h : fetchIds client sql args = .ok ids) :
    ids.length ≤ depth.toInt.toNat := by
  obtain ⟨table, htable, hids⟩ := Outcome.bind_eq_ok.mp h
  refine (collectIds_length hids).trans ?_
  rw [← Int32.toInt_toInt64]
  exact hlimits sql args table _ (spi_eq_ok.mp htable) hlast

theorem vectorIds_length {r : Resolved} {queryVec : List F32} {depth : Int32} {ids : List Int64}
    (h : vectorIds client r queryVec depth = .ok ids) : ids.length ≤ depth.toInt.toNat := by
  obtain ⟨query, -, h⟩ := Outcome.bind_eq_ok.mp h
  exact fetchIds_length hlimits rfl h

theorem textIds_length {r : Resolved} {text : String} {config : Option String} {depth : Int32}
    {ids : List Int64} (h : textIds client r text config depth = .ok ids) :
    ids.length ≤ depth.toInt.toNat := by
  cases config with
  | none => exact fetchIds_length hlimits rfl h
  | some cfg => exact fetchIds_length hlimits rfl h

end

/-! ## The depth -/

theorem saturatingMulFour_toInt (k : Int32) :
    (saturatingMulFour k).toInt = max (-2 ^ 31) (min (2 ^ 31 - 1) (k.toInt * 4)) :=
  Int32.toInt_ofInt_of_le (by simp) (by simp)

/-- The depth that is taken by default is at least `k`, however large `k` is. -/
theorem le_depthOf {k : Int32} (hk : 1 ≤ k) : k ≤ depthOf none k := by
  have hpos := Int32.le_iff_toInt_le.mp hk
  have hone : (1 : Int32).toInt = 1 := rfl
  have hcap : k.toInt < 2 ^ 31 := k.toInt_lt
  have hfour : k ≤ saturatingMulFour k := by
    rw [Int32.le_iff_toInt_le, saturatingMulFour_toInt]
    omega
  show k ≤ if saturatingMulFour k ≤ 40 then 40 else saturatingMulFour k
  split_ifs with hsmall
  · exact Int32.le_trans hfour hsmall
  · exact hfour

/-! ## The rows -/

/-- The rank a row reports in an arm: none where the arm does not have it, and else its first position,
counted from 1 and within the depth. -/
def Ranked (depth : Int32) (ids : List Int64) (id : Int64) (rank : Option Int32) : Prop :=
  (rank.isSome ↔ id ∈ ids) ∧
    ∀ r ∈ rank, r.toInt = ids.idxOf id + 1 ∧ 1 ≤ r ∧ r ≤ depth

theorem ranked_of_length {depth : Int32} {ids : List Int64}
    (hids : ids.length ≤ depth.toInt.toNat) (id : Int64) :
    Ranked depth ids id ((Hybrid.ranks (ids.map Hybrid.keyOf)).get (Hybrid.keyOf id)) := by
  rw [Hybrid.get_ranks_keyOf]
  split_ifs with hmem
  · refine ⟨by simp [hmem], fun r hr => ?_⟩
    obtain rfl := Option.some.inj hr
    have hpos : ids.idxOf id < ids.length := List.idxOf_lt_length_iff.mpr hmem
    have hcap : depth.toInt < 2 ^ 31 := depth.toInt_lt
    have hrank : (Int32.ofNat (ids.idxOf id) + 1).toInt = (ids.idxOf id : Int) + 1 :=
      Hybrid.rank_toInt (by omega)
    have hone : (1 : Int32).toInt = 1 := rfl
    refine ⟨hrank, ?_, ?_⟩
    · rw [Int32.le_iff_toInt_le, hrank]
      omega
    · rw [Int32.le_iff_toInt_le, hrank]
      omega
  · exact ⟨by simp [hmem], nofun⟩

/-- What the rows of a search are, of the ids its arms returned. -/
structure Answers (k depth : Int32) (vector text : List Int64) (rows : List HybridRow) : Prop where
  count : rows.length = min k.toInt.toNat (vector ++ text).dedup.length
  nodup : (rows.map HybridRow.id).Nodup
  listed : ∀ row ∈ rows, row.id ∈ vector ++ text
  vectorRank : ∀ row ∈ rows, Ranked depth vector row.id row.vectorRank
  textRank : ∀ row ∈ rows, Ranked depth text row.id row.textRank

theorem rrf_ok {iterate : ScoreMap → ScoreMap} {rankings : List (List UInt64)} {k : F64}
    {fused : List (UInt64 × ℚ)} (h : Fusion.rrf iterate rankings k = .ok fused) :
    k.isFinite = true ∧ k.lt F64.zero = false := by
  unfold Fusion.rrf at h
  split_ifs at h with hbad
  simpa using hbad

/-- The keys that are fused are those of the ids of the arms, each once. -/
theorem rrf_keys {iterate : ScoreMap → ScoreMap}
    (hiterate : ∀ scores, (iterate scores).Perm scores) {vector text : List Int64} {rrfK : F64}
    {fused : List (UInt64 × ℚ)}
    (h : Fusion.rrf iterate [vector.map Hybrid.keyOf, text.map Hybrid.keyOf] rrfK = .ok fused) :
    (fused.map Prod.fst).Perm ((vector ++ text).dedup.map Hybrid.keyOf) := by
  obtain ⟨hfinite, hsign⟩ := rrf_ok h
  obtain ⟨fused', hrun, hnodup, hrows, -⟩ := Fusion.rrf_rows hiterate
    [vector.map Hybrid.keyOf, text.map Hybrid.keyOf] hfinite hsign
  obtain rfl : fused = fused' := Except.ok.inj (h.symm.trans hrun)
  refine (List.perm_ext_iff_of_nodup hnodup
    ((List.nodup_dedup _).map Hybrid.keyOf_injective)).mpr fun key => ?_
  constructor
  · intro hkey
    obtain ⟨entry, hentry, rfl⟩ := List.mem_map.mp hkey
    obtain ⟨ranking, hranking, hmem⟩ := ((hrows entry).mp hentry).1
    rcases List.mem_pair.mp hranking with rfl | rfl
    · obtain ⟨id, hid, heq⟩ := List.mem_map.mp hmem
      exact List.mem_map.mpr ⟨id, List.mem_dedup.mpr (List.mem_append_left _ hid), heq⟩
    · obtain ⟨id, hid, heq⟩ := List.mem_map.mp hmem
      exact List.mem_map.mpr ⟨id, List.mem_dedup.mpr (List.mem_append_right _ hid), heq⟩
  · intro hkey
    obtain ⟨id, hid, rfl⟩ := List.mem_map.mp hkey
    have hlisted : ∃ ranking ∈ [vector.map Hybrid.keyOf, text.map Hybrid.keyOf],
        Hybrid.keyOf id ∈ ranking := by
      rcases List.mem_append.mp (List.mem_dedup.mp hid) with hid | hid
      · exact ⟨_, List.mem_pair.mpr (.inl rfl), List.mem_map_of_mem hid⟩
      · exact ⟨_, List.mem_pair.mpr (.inr rfl), List.mem_map_of_mem hid⟩
    have hmem := (hrows (Hybrid.keyOf id, RankFusion.score (Fusion.contribution rrfK.toRat)
      [vector.map Hybrid.keyOf, text.map Hybrid.keyOf] (Hybrid.keyOf id))).mpr ⟨hlisted, rfl⟩
    exact List.mem_map_of_mem hmem

theorem fuse_answers {iterate : ScoreMap → ScoreMap}
    (hiterate : ∀ scores, (iterate scores).Perm scores) {k depth : Int32} (hk : 1 ≤ k)
    {vector text : List Int64} (hvector : vector.length ≤ depth.toInt.toNat)
    (htext : text.length ≤ depth.toInt.toNat) {rrfK : F64} {rows : List HybridRow}
    (h : Hybrid.fuse iterate vector text rrfK k = .ok rows) :
    Answers k depth vector text rows := by
  unfold Hybrid.fuse at h
  dsimp only at h
  cases hrun : Fusion.rrf iterate [vector.map Hybrid.keyOf, text.map Hybrid.keyOf] rrfK with
  | error e =>
    rw [hrun] at h
    cases h
  | ok fused =>
    rw [hrun] at h
    obtain rfl := Except.ok.inj h
    have hkeys := rrf_keys hiterate hrun
    have hcut : Hybrid.asUsize k = k.toInt.toNat :=
      Hybrid.asUsize_of_nonneg (Int32.le_trans (by decide) hk)
    -- a row stands for a key that was fused, which is the key of its id
    have hrow : ∀ row ∈ (fused.take (Hybrid.asUsize k)).map (Hybrid.rowOf
        (Hybrid.ranks (vector.map Hybrid.keyOf)) (Hybrid.ranks (text.map Hybrid.keyOf))),
        row.id ∈ vector ++ text ∧ Ranked depth vector row.id row.vectorRank ∧
          Ranked depth text row.id row.textRank := by
      intro row hmem
      obtain ⟨⟨key, score⟩, hentry, rfl⟩ := List.mem_map.mp hmem
      obtain ⟨id, hid, rfl⟩ := List.mem_map.mp
        (hkeys.mem_iff.mp (List.mem_map_of_mem (List.mem_of_mem_take hentry)))
      simp only [Hybrid.rowOf, Hybrid.idOf_keyOf]
      exact ⟨List.mem_dedup.mp hid, ranked_of_length hvector id, ranked_of_length htext id⟩
    refine ⟨?_, ?_, fun row hmem => (hrow row hmem).1, fun row hmem => (hrow row hmem).2.1,
      fun row hmem => (hrow row hmem).2.2⟩
    · have hlength := hkeys.length_eq
      rw [List.length_map, List.length_map] at hlength
      rw [List.length_map, List.length_take, hcut, hlength]
    · have hids := hkeys.map Hybrid.idOf
      have hback : ((vector ++ text).dedup.map Hybrid.keyOf).map Hybrid.idOf =
          (vector ++ text).dedup := by
        rw [List.map_map]
        exact (List.map_congr_left fun id _ => Hybrid.idOf_keyOf id).trans (List.map_id _)
      rw [hback, List.map_map] at hids
      rw [List.map_map]
      exact (hids.nodup_iff.mpr (List.nodup_dedup _)).sublist ((List.take_sublist _ _).map _)

/-- **A hybrid search that answers.** It asked for at least one row at a depth of at least one; the
catalog named an integer id, a `brindle_vector` column with one ordering operator and a searchable text
column; and of the ids the arms returned, which are none for a blank text, it returns as many different
ones as `k` allows, each with the rank it has in either arm. No rank wraps. -/
theorem run_answers {client : SpiClient σ} (hlimits : Limits client)
    {iterate : ScoreMap → ScoreMap} (hiterate : ∀ scores, (iterate scores).Perm scores)
    {relation idColumn vectorColumn textColumn : String} {queryText : Option String}
    {queryVec : List F32} {k : Int32} {n : Option Int32} {rrfK : F64} {config : Option String}
    {rows : List HybridRow}
    (hrun : run client iterate relation idColumn vectorColumn textColumn queryText queryVec k n rrfK
      config = .ok rows) :
    1 ≤ k ∧ 1 ≤ depthOf n k ∧ (n = none → k ≤ depthOf n k) ∧
      ∃ row rest r vector text,
        client.catalog [.text (some relation), .text (some idColumn), .text (some vectorColumn),
          .text (some textColumn)] = .ok (row :: rest) ∧ Suits row r ∧
        vectorIds client r queryVec (depthOf n k) = .ok vector ∧
        (∀ query ∈ lexical queryText,
          textIds client r query config (depthOf n k) = .ok text) ∧
        (lexical queryText = none → text = []) ∧
        Answers k (depthOf n k) vector text rows := by
  have hk : ¬ k < 1 := fun hk => by
    unfold run at hrun
    rw [if_pos hk] at hrun
    cases hrun
  have hdepth : ¬ depthOf n k < 1 := fun hdepth => by
    unfold run at hrun
    rw [if_neg hk] at hrun
    dsimp only at hrun
    rw [if_pos hdepth] at hrun
    cases hrun
  unfold run at hrun
  rw [if_neg hk] at hrun
  dsimp only at hrun
  rw [if_neg hdepth] at hrun
  obtain ⟨r, hr, hrun⟩ := Outcome.bind_eq_ok.mp hrun
  obtain ⟨vector, hvector, hrun⟩ := Outcome.bind_eq_ok.mp hrun
  obtain ⟨row, rest, hcatalog, hsuits⟩ := resolve_suits hr
  have hvectorLen := vectorIds_length hlimits hvector
  rw [Int32.not_lt] at hk hdepth
  refine ⟨hk, hdepth, fun hn => hn ▸ le_depthOf hk, row, rest, r, vector, ?_⟩
  cases hquery : lexical queryText with
  | none =>
    rw [hquery] at hrun
    refine ⟨[], hcatalog, hsuits, hvector, nofun, fun _ => rfl, ?_⟩
    exact fuse_answers hiterate hk hvectorLen (Nat.zero_le _) (fuseArms_eq_ok.mp hrun)
  | some query =>
    rw [hquery] at hrun
    obtain ⟨text, htext, hrun⟩ := Outcome.bind_eq_ok.mp hrun
    refine ⟨text, hcatalog, hsuits, hvector, ?_, nofun, ?_⟩
    · rintro _ ⟨⟩
      exact htext
    · exact fuse_answers hiterate hk hvectorLen (textIds_length hlimits htext)
        (fuseArms_eq_ok.mp hrun)

/-- A table of documents; the vector side returns a null among its ids. -/
def sampleClient : SpiClient String where
  catalog _ := .ok [⟨.ok (some "public.docs"), .ok (some "id"), .ok (some "embedding"),
    .ok (some "body"), .ok (some "int8"), .ok (some "brindle_vector"), .ok (some "text"),
    .ok (some "public.<->")⟩]
  select _ args :=
    let limit := match args.getLast? with
      | some (.int8 limit) => limit.toInt.toNat
      | _ => 0
    let found : List (Option Int64) := match args.head? with
      | some (.vector _) => [some 7, none, some 3]
      | _ => [some 3, some 9]
    .ok ((found.take limit).map .ok)

theorem sampleClient_limits : Limits sampleClient := by
  intro sql args rows limit hrows hlast
  unfold sampleClient at hrows
  dsimp only at hrows
  rw [hlast] at hrows
  obtain rfl := Except.ok.inj hrows
  rw [List.length_map]
  exact List.length_take_le _ _

/-- Two of the three documents that either side finds: the one both find is first. -/
theorem run_answers_sample : ∃ rows vector text,
    run sampleClient List.reverse "docs" "id" "embedding" "body" (some "wireless") [F32.one] 2 none
      ⟨0x404E000000000000⟩ none = .ok rows ∧
    rows.map (fun row => (row.id, row.vectorRank, row.textRank)) =
      [(3, some 2, some 1), (7, some 1, none)] ∧
    Answers 2 (depthOf none 2) vector text rows := by
  have hrun : run sampleClient List.reverse "docs" "id" "embedding" "body" (some "wireless")
      [F32.one] 2 none ⟨0x404E000000000000⟩ none =
      .ok [⟨3, 1 / 62 + 1 / 61, some 2, some 1⟩, ⟨7, 1 / 61, some 1, none⟩] := by
    decide +kernel
  obtain ⟨-, -, -, row, rest, r, vector, text, -, -, -, -, -, h⟩ :=
    run_answers sampleClient_limits List.reverse_perm hrun
  exact ⟨_, vector, text, hrun, rfl, h⟩

end HybridSearch

end Brindle
