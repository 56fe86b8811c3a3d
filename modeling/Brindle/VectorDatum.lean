/-
# Brindle.VectorDatum — a vector as Postgres stores it.

`pg_vector.rs`: a `brindle_vector` is a header (the length word of a varlena, the dimension in two
bytes, two bytes of padding) and the components behind it, which are read in place. A value carries what
makes that safe: its length is the one its header word gives and the one its dimension takes. Values are
made from a slice, from text and from an array, and are read from a datum, whose dimension is compared
with its length first.
-/
import Brindle.Hnsw.DecodeSpec
import Brindle.PgVector

namespace Brindle

open Bytes (leBytes ofLe)
open PgVector (validate parseLiteral formatLiteral maxDim FloatText)

namespace PgVector

/-- Byte offset of the first component. -/
def dataOffset : Nat := 8

/-- `varlena::varsize`: the length is above the two flag bits of the header word. -/
def varsize (bytes : List UInt8) : Nat := ofLe (bytes.take 4) / 4

/-- The dimension in the header. -/
def headerDim (bytes : List UInt8) : Nat := ofLe ((bytes.drop 4).take 2)

/-- A detoasted datum, of the length its header word gives. -/
structure Detoasted where
  bytes : List UInt8
  varsize_eq : varsize bytes = bytes.length
  deriving DecidableEq, Repr

/-- A `brindle_vector` value: the components its header announces are there, and nothing else. -/
structure BrindleVector extends Detoasted where
  length_eq : bytes.length = dataOffset + headerDim bytes * 4
  deriving DecidableEq, Repr

/-- The bytes `from_slice` lays out: `set_varsize_4b`, the dimension, the padding, the components. -/
def layout (values : List F32) : List UInt8 :=
  leBytes 4 ((dataOffset + values.length * 4) * 4) ++ (leBytes 2 values.length ++ (leBytes 2 0 ++
    writeVector values))

/-! ## What a layout holds -/

section Layout

variable {values : List F32}

theorem layout_length (values : List F32) :
    (layout values).length = dataOffset + values.length * 4 := by
  simp only [layout, List.length_append, Bytes.leBytes_length, writeVector_length, dataOffset]
  omega

theorem varsize_layout (h : values.length ≤ maxDim) :
    varsize (layout values) = (layout values).length := by
  have hfits : (dataOffset + values.length * 4) * 4 < 256 ^ 4 := by
    have hmax : maxDim = 16000 := rfl
    simp only [dataOffset]
    omega
  rw [layout_length, varsize, layout, List.take_left' (Bytes.leBytes_length ..),
    Bytes.ofLe_leBytes_of_lt hfits, Nat.mul_div_cancel _ (by decide)]

theorem headerDim_layout (h : values.length ≤ maxDim) : headerDim (layout values) = values.length := by
  have hfits : values.length < 256 ^ 2 := by
    have hmax : maxDim = 16000 := rfl
    omega
  rw [headerDim, layout, List.drop_left' (Bytes.leBytes_length ..),
    List.take_left' (Bytes.leBytes_length ..), Bytes.ofLe_leBytes_of_lt hfits]

theorem drop_layout (values : List F32) : (layout values).drop dataOffset = writeVector values := by
  rw [layout, ← List.append_assoc, ← List.append_assoc]
  exact List.drop_left' (by simp [Bytes.leBytes_length, dataOffset])

end Layout

/-! ## The values of the type -/

/-- Why a value is refused. -/
inductive ValueError where
  | vector (error : VectorError)
  | corrupt
  | multidimensional
  | nullElements
  deriving DecidableEq, Repr

namespace BrindleVector

/-- Copy `values` into a new value. -/
def fromSlice (values : List F32) : Except VectorError BrindleVector :=
  match h : validate values with
  | .error e => .error e
  | .ok () => .ok
    { bytes := layout values
      varsize_eq := varsize_layout ((validate_eq_ok_iff values).mp h).2.1
      length_eq := by
        rw [headerDim_layout ((validate_eq_ok_iff values).mp h).2.1, layout_length] }

/-- Number of components. -/
def dim (v : BrindleVector) : Nat := headerDim v.bytes

/-- The components, read in place. -/
def asSlice (v : BrindleVector) : List F32 :=
  floatsOfBytes ((v.bytes.drop dataOffset).take (v.dim * 4))

/-- Wrap a detoasted datum, refusing one whose length disagrees with its dimension. -/
def fromDetoasted (datum : Detoasted) : Except ValueError BrindleVector :=
  if h : varsize datum.bytes = dataOffset + headerDim datum.bytes * 4 then
    .ok { datum with length_eq := datum.varsize_eq.symm.trans h }
  else .error .corrupt

/-- The components of a stored value. -/
def componentsFromDatum (datum : Detoasted) : Except ValueError (List F32) := do
  return (← fromDetoasted datum).asSlice

end BrindleVector

/-- A `real[]`: its number of dimensions, whether it contains a NULL, its elements in a row. -/
structure RealArray where
  ndim : Nat
  containsNull : Bool
  elements : List F32
  deriving DecidableEq, Repr

/-- Text input. -/
def brindleVectorIn (parse : List Char → Option F32) (input : List Char) :
    Except ValueError BrindleVector :=
  match parseLiteral parse input with
  | .error e => .error (.vector e)
  | .ok values => (BrindleVector.fromSlice values).mapError .vector

/-- Text output. -/
def brindleVectorOut (display : F32 → List Char) (vector : BrindleVector) : List Char :=
  formatLiteral display vector.asSlice

/-- Reject the array shapes a vector cannot represent. -/
def oneDimensional (values : RealArray) : Except ValueError RealArray :=
  if values.ndim > 1 then .error .multidimensional else .ok values

/-- The cast from `real[]`. -/
def brindleVectorFromRealArray (values : RealArray) : Except ValueError BrindleVector := do
  let values ← oneDimensional values
  if values.containsNull then .error .nullElements
  else (BrindleVector.fromSlice values.elements).mapError .vector

/-- The cast to `real[]`. -/
def brindleVectorToRealArray (vector : BrindleVector) : RealArray := ⟨1, false, vector.asSlice⟩

namespace BrindleVector

variable {values : List F32} {v : BrindleVector}

/-- The components are all that is behind the header. -/
theorem asSlice_eq (v : BrindleVector) : v.asSlice = floatsOfBytes (v.bytes.drop dataOffset) := by
  unfold asSlice dim
  rw [List.take_of_length_le]
  rw [List.length_drop, v.length_eq]
  omega

theorem asSlice_length (v : BrindleVector) : v.asSlice.length = v.dim := by
  have hlen := v.length_eq
  rw [asSlice_eq, floatsOfBytes_length, List.length_drop, dim]
  omega

theorem fromSlice_eq_ok_iff : fromSlice values = .ok v ↔
    validate values = .ok () ∧ v.bytes = layout values := by
  unfold fromSlice
  split
  · next e he => simp [he]
  · next h =>
    constructor
    · intro hv
      cases hv
      exact ⟨h, rfl⟩
    · rintro ⟨-, hbytes⟩
      rcases v with ⟨⟨bytes, hsize⟩, hlength⟩
      cases hbytes
      rfl

/-- What was laid out is read back. -/
theorem asSlice_of_fromSlice (h : fromSlice values = .ok v) : v.asSlice = values := by
  rw [asSlice_eq, (fromSlice_eq_ok_iff.mp h).2, drop_layout, floatsOfBytes_writeVector]

theorem fromSlice_asSlice (h : fromSlice values = .ok v) : fromSlice v.asSlice = .ok v := by
  rw [asSlice_of_fromSlice h, h]

/-- A datum is accepted when its dimension takes up its length. -/
theorem fromDetoasted_eq_ok_iff {datum : Detoasted} : fromDetoasted datum = .ok v ↔
    datum.bytes.length = dataOffset + headerDim datum.bytes * 4 ∧ v.toDetoasted = datum := by
  have hsize := datum.varsize_eq
  unfold fromDetoasted
  split_ifs with h
  · rcases v with ⟨datum', hlength⟩
    constructor
    · intro hv
      cases hv
      exact ⟨hsize.symm.trans h, rfl⟩
    · rintro ⟨-, rfl⟩
      rfl
  · refine iff_of_false nofun fun hlen => h (hsize.trans hlen.1)

/-- The components are the bytes behind the header, each of them once. -/
theorem writeVector_asSlice (v : BrindleVector) :
    writeVector v.asSlice = v.bytes.drop dataOffset := by
  have hlen := v.length_eq
  rw [asSlice_eq]
  refine writeVector_floatsOfBytes (k := headerDim v.bytes) ?_
  rw [List.length_drop]
  omega

end BrindleVector

open BrindleVector (fromSlice fromDetoasted componentsFromDatum)

section Sql

variable {parse : List Char → Option F32} {values : List F32} {v : BrindleVector}

theorem mapError_fromSlice :
    (fromSlice values).mapError ValueError.vector = .ok v ↔ fromSlice values = .ok v := by
  rcases fromSlice values with e | w <;> simp [Except.mapError]

theorem brindleVectorIn_eq_ok_iff {input : List Char} : brindleVectorIn parse input = .ok v ↔
    ∃ values, parseLiteral parse input = .ok values ∧ fromSlice values = .ok v := by
  unfold brindleVectorIn
  rcases parseLiteral parse input with e | values
  · simp
  · simp [mapError_fromSlice]

theorem brindleVectorFromRealArray_eq_ok_iff {array : RealArray} :
    brindleVectorFromRealArray array = .ok v ↔
      array.ndim ≤ 1 ∧ array.containsNull = false ∧ fromSlice array.elements = .ok v := by
  unfold brindleVectorFromRealArray oneDimensional
  split_ifs with hdims
  · exact iff_of_false nofun fun h => absurd h.1 (Nat.not_le.mpr hdims)
  · rcases hnull : array.containsNull with _ | _
    · simp [hnull, Nat.not_lt.mp hdims, mapError_fromSlice, bind, Except.bind]
    · simp [hnull, bind, Except.bind]

end Sql

/-- **A vector survives storage, text and arrays.** Components that may be stored make one value, which
holds them, is accepted as a datum, and is what its printed form and its array read back as. Every value
the text input or the cast returns was made so, of what the text says or the array holds. And whatever
datum is accepted has its components, no more and no less, behind its header. -/
theorem values_roundTrip {parse : List Char → Option F32} {display : F32 → List Char}
    (T : FloatText parse display) :
    (∀ values, validate values = .ok () → ∃ v, fromSlice values = .ok v ∧ v.asSlice = values ∧
      v.dim = values.length ∧ fromDetoasted v.toDetoasted = .ok v ∧
      componentsFromDatum v.toDetoasted = .ok values ∧
      brindleVectorIn parse (brindleVectorOut display v) = .ok v ∧
      brindleVectorFromRealArray (brindleVectorToRealArray v) = .ok v) ∧
    (∀ input v, brindleVectorIn parse input = .ok v →
      fromSlice v.asSlice = .ok v ∧ parseLiteral parse input = .ok v.asSlice) ∧
    (∀ array v, brindleVectorFromRealArray array = .ok v →
      fromSlice v.asSlice = .ok v ∧ v.asSlice = array.elements ∧ array.ndim ≤ 1 ∧
        array.containsNull = false) ∧
    ∀ datum v, fromDetoasted datum = .ok v → v.toDetoasted = datum ∧ v.asSlice.length = v.dim ∧
      writeVector v.asSlice = datum.bytes.drop dataOffset := by
  refine ⟨fun values hvalid => ?_, fun input v hin => ?_, fun array v harray => ?_,
    fun datum v hdatum => ?_⟩
  · obtain ⟨v, hv⟩ : ∃ v, fromSlice values = .ok v := by
      have hlong := ((validate_eq_ok_iff values).mp hvalid).2.1
      exact ⟨⟨⟨layout values, varsize_layout hlong⟩, by rw [headerDim_layout hlong, layout_length]⟩,
        BrindleVector.fromSlice_eq_ok_iff.mpr ⟨hvalid, rfl⟩⟩
    have hslice := BrindleVector.asSlice_of_fromSlice hv
    have hdatum : fromDetoasted v.toDetoasted = .ok v :=
      BrindleVector.fromDetoasted_eq_ok_iff.mpr ⟨v.length_eq, rfl⟩
    refine ⟨v, hv, hslice, hslice ▸ v.asSlice_length.symm, hdatum, ?_, ?_, ?_⟩
    · simp [componentsFromDatum, hdatum, hslice, bind, Except.bind, pure, Except.pure]
    · refine brindleVectorIn_eq_ok_iff.mpr ⟨values, ?_, hv⟩
      rw [brindleVectorOut, hslice, T.parseLiteral_formatLiteral hvalid]
    · exact brindleVectorFromRealArray_eq_ok_iff.mpr
        ⟨le_rfl, rfl, BrindleVector.fromSlice_asSlice hv⟩
  · obtain ⟨values, hparse, hv⟩ := brindleVectorIn_eq_ok_iff.mp hin
    rw [BrindleVector.asSlice_of_fromSlice hv]
    exact ⟨hv, hparse⟩
  · obtain ⟨hdims, hnull, hv⟩ := brindleVectorFromRealArray_eq_ok_iff.mp harray
    exact ⟨BrindleVector.fromSlice_asSlice hv, BrindleVector.asSlice_of_fromSlice hv, hdims, hnull⟩
  · obtain ⟨-, hsame⟩ := BrindleVector.fromDetoasted_eq_ok_iff.mp hdatum
    exact ⟨hsame, v.asSlice_length, hsame ▸ v.writeVector_asSlice⟩

/-- `[1,-2.5]` as it is stored, and a datum that claims a third component. -/
theorem values_roundTrip_sample :
    (∃ v, fromSlice [⟨0x3F800000⟩, ⟨0xC0200000⟩] = .ok v ∧
      v.bytes = [64, 0, 0, 0, 2, 0, 0, 0, 0, 0, 128, 63, 0, 0, 32, 192] ∧
      brindleVectorIn readSample (brindleVectorOut printSample v) = .ok v) ∧
      fromDetoasted ⟨[64, 0, 0, 0, 3, 0, 0, 0, 0, 0, 128, 63, 0, 0, 32, 192], by decide⟩ =
        .error .corrupt := by
  obtain ⟨v, hv, -, -, -, -, htext, -⟩ :=
    (values_roundTrip sample_floatText).1 [⟨0x3F800000⟩, ⟨0xC0200000⟩] (by decide)
  refine ⟨⟨v, hv, ?_, htext⟩, by decide⟩
  rw [(BrindleVector.fromSlice_eq_ok_iff.mp hv).2]
  decide

end PgVector

end Brindle
