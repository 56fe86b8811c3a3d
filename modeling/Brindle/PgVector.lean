/-
# Brindle.PgVector — the text form of a vector.

`pg_vector.rs`: what `parse_literal` accepts and `format_literal` prints. How one number is printed and
read is the standard library's business, so both are parameters here, and `FloatText` lists what of
them is relied on. Everything around the numbers is the source's own: the brackets, the commas, the
whitespace, and the limits, which are checked before the numbers are read and again after.
-/
import Brindle.Hnsw.Graph
import Brindle.Lib.Text
import Mathlib.Data.Nat.Digits.Lemmas

namespace Brindle

open Text (trim stripPrefix stripSuffix)

/-- Why a vector or its literal is refused. -/
inductive VectorError where
  | empty
  | tooManyDimensions (dim : Nat)
  | nonFinite (index : Nat)
  | syntaxError (expected : String)
  | invalidElement (index : Nat)
  deriving DecidableEq, Repr

namespace PgVector

/-- `MAX_DIM`. -/
def maxDim : Nat := 16000

/-- Check the invariants every stored vector holds: non-empty, within `maxDim`, and finite. -/
def validate (values : List F32) : Except VectorError Unit :=
  if values.isEmpty then .error .empty
  else if values.length > maxDim then .error (.tooManyDimensions values.length)
  else
    match values.findIdx? fun v => !v.isFinite with
    | some index => .error (.nonFinite index)
    | none => .ok ()

/-- `char::is_whitespace`: the characters of property `White_Space`. -/
def isWhitespace (c : Char) : Bool :=
  let n := c.toNat
  (0x09 ≤ n && n ≤ 0x0D) || n = 0x20 || n = 0x85 || n = 0xA0 || n = 0x1680 ||
    (0x2000 ≤ n && n ≤ 0x200A) || n = 0x2028 || n = 0x2029 || n = 0x202F || n = 0x205F || n = 0x3000

section Literal

variable (parse : List Char → Option F32) (display : F32 → List Char)

/-- The fields of a literal from the given index on, each trimmed and read. -/
def parseFields (index : Nat) : List (List Char) → Except VectorError (List F32)
  | [] => .ok []
  | field :: rest =>
    match parse (trim isWhitespace field) with
    | none => .error (.invalidElement index)
    | some value =>
      match parseFields (index + 1) rest with
      | .error e => .error e
      | .ok values => .ok (value :: values)

/-- Parse `[1,2,3]`, tolerating surrounding whitespace. The fields are counted before any is read. -/
def parseLiteral (input : List Char) : Except VectorError (List F32) :=
  match stripPrefix '[' (trim isWhitespace input) with
  | none => .error (.syntaxError "expected '[' at the start")
  | some rest =>
    match stripSuffix ']' rest with
    | none => .error (.syntaxError "expected ']' at the end")
    | some inner =>
      let body := trim isWhitespace inner
      if body.isEmpty then .error .empty
      else
        let count := (body.splitOn ',').length
        if count > maxDim then .error (.tooManyDimensions count)
        else
          match parseFields parse 0 (body.splitOn ',') with
          | .error e => .error e
          | .ok values =>
            match validate values with
            | .error e => .error e
            | .ok () => .ok values

/-- The components from the given index on, a comma before each but the first. -/
def formatFields (index : Nat) : List F32 → List Char
  | [] => []
  | value :: rest =>
    (if index > 0 then [','] else []) ++ display value ++ formatFields (index + 1) rest

/-- Render the text form `parseLiteral` accepts. -/
def formatLiteral (values : List F32) : List Char := '[' :: (formatFields display 0 values ++ [']'])

/-- What is relied on of how one number is printed and read: on finite values reading undoes printing,
only digits, a sign and a point are printed, and the empty string is not a number. -/
structure FloatText : Prop where
  parse_display : ∀ v : F32, v.isFinite → parse (display v) = some v
  display_chars : ∀ v : F32, v.isFinite → ∀ c ∈ display v, c.isDigit ∨ c = '-' ∨ c = '.'
  parse_nil : parse [] = none

end Literal

/-! ## Validity -/

theorem validate_eq_ok_iff (values : List F32) : validate values = .ok () ↔
    values ≠ [] ∧ values.length ≤ maxDim ∧ ∀ v ∈ values, v.isFinite := by
  unfold validate
  split_ifs with hempty hlong
  · simp [List.isEmpty_iff.mp hempty]
  · constructor
    · nofun
    · exact fun h => absurd h.2.1 (Nat.not_le.mpr hlong)
  · cases hfind : values.findIdx? fun v => !v.isFinite with
    | some index =>
      obtain ⟨hlt, hbad, -⟩ := List.findIdx?_eq_some_iff_getElem.mp hfind
      constructor
      · nofun
      · intro h
        rw [h.2.2 _ (List.getElem_mem hlt)] at hbad
        cases hbad
    | none =>
      have hall := List.findIdx?_eq_none_iff.mp hfind
      have hne : values ≠ [] := fun hnil => hempty (List.isEmpty_iff.mpr hnil)
      exact ⟨fun _ => ⟨hne, Nat.not_lt.mp hlong, fun v hv => by simpa using hall v hv⟩,
        fun _ => rfl⟩

/-! ## What is accepted -/

section Accepted

variable {parse : List Char → Option F32} {display : F32 → List Char}

theorem parseFields_length {index : Nat} {fields : List (List Char)} {values : List F32}
    (h : parseFields parse index fields = .ok values) : values.length = fields.length := by
  induction fields generalizing index values with
  | nil =>
    cases h
    rfl
  | cons field rest ih =>
    rw [parseFields] at h
    split at h
    · cases h
    · split at h
      · cases h
      · next hothers =>
        cases h
        rw [List.length_cons, List.length_cons, ih hothers]

/-- A literal is accepted when it is bracketed, not blank inside, has no more fields than a vector may
have components, and its fields are the components of a vector. -/
theorem parseLiteral_eq_ok_iff (s : List Char) (values : List F32) :
    parseLiteral parse s = .ok values ↔
      ∃ inner, trim isWhitespace s = '[' :: (inner ++ [']']) ∧ trim isWhitespace inner ≠ [] ∧
        ((trim isWhitespace inner).splitOn ',').length ≤ maxDim ∧
        parseFields parse 0 ((trim isWhitespace inner).splitOn ',') = .ok values ∧
        validate values = .ok () := by
  constructor
  · intro h
    unfold parseLiteral at h
    split at h
    · cases h
    next rest hprefix =>
    split at h
    · cases h
    next inner hsuffix =>
    dsimp only at h
    split_ifs at h with hempty hmany
    split at h
    · cases h
    next values' hfields =>
    split at h
    · cases h
    next hvalid =>
    cases h
    refine ⟨inner, ?_, fun hnil => hempty (List.isEmpty_iff.mpr hnil), Nat.not_lt.mp hmany, hfields,
      hvalid⟩
    rw [Text.stripPrefix_eq_some hprefix, Text.stripSuffix_eq_some hsuffix]
  · intro h
    obtain ⟨inner, hs, hne, hcount, hfields, hvalid⟩ := h
    have hempty : ¬ (trim isWhitespace inner).isEmpty = true := fun h =>
      hne (List.isEmpty_iff.mp h)
    unfold parseLiteral
    rw [hs]
    simp only [Text.stripPrefix_cons, Text.stripSuffix_concat, if_neg hempty,
      if_neg (Nat.not_lt.mpr hcount), hfields, hvalid]

/-! ## What is printed -/

theorem formatFields_succ (index : Nat) (values : List F32) :
    formatFields display (index + 1) values = values.flatMap fun v => ',' :: display v := by
  induction values generalizing index with
  | nil => rfl
  | cons value rest ih =>
    rw [formatFields, if_pos (Nat.succ_pos index), ih (index + 1), List.flatMap_cons]
    rfl

/-- The components are printed with a comma between any two. -/
theorem formatFields_eq (values : List F32) :
    formatFields display 0 values = [','].intercalate (values.map display) := by
  cases values with
  | nil => rfl
  | cons value rest =>
    rw [formatFields, if_neg (Nat.lt_irrefl 0), List.nil_append, formatFields_succ]
    induction rest generalizing value with
    | nil => simp
    | cons next rest ih =>
      rw [List.map_cons, List.map_cons, List.intercalate_cons_cons, List.flatMap_cons, ← List.map_cons,
        ← ih next]
      simp

theorem mem_formatFields {index : Nat} {values : List F32} {c : Char}
    (hc : c ∈ formatFields display index values) : c = ',' ∨ ∃ v ∈ values, c ∈ display v := by
  induction values generalizing index with
  | nil => cases hc
  | cons value rest ih =>
    rw [formatFields] at hc
    rcases List.mem_append.mp hc with hc | hc
    · rcases List.mem_append.mp hc with hc | hc
      · split_ifs at hc
        · exact .inl (List.mem_singleton.mp hc)
        · cases hc
      · exact .inr ⟨value, List.mem_cons_self, hc⟩
    · rcases ih hc with hc | ⟨v, hv, hc⟩
      · exact .inl hc
      · exact .inr ⟨v, List.mem_cons_of_mem value hv, hc⟩

theorem isWhitespace_of_isDigit {c : Char} (hc : c.isDigit) : isWhitespace c = false := by
  have hrange : 48 ≤ c.toNat ∧ c.toNat ≤ 57 := by
    simp only [Char.isDigit, Bool.and_eq_true, decide_eq_true_eq] at hc
    exact ⟨UInt32.le_iff_toNat_le.mp hc.1, UInt32.le_iff_toNat_le.mp hc.2⟩
  simp only [isWhitespace, Bool.or_eq_false_iff, Bool.and_eq_false_iff, decide_eq_false_iff_not]
  omega

namespace FloatText

variable (T : FloatText parse display)
include T

theorem display_ne_nil {v : F32} (hv : v.isFinite) : display v ≠ [] := by
  intro hnil
  have hread := T.parse_display v hv
  rw [hnil, T.parse_nil] at hread
  cases hread

theorem display_not_whitespace {v : F32} (hv : v.isFinite) :
    ∀ c ∈ display v, isWhitespace c = false := by
  intro c hc
  rcases T.display_chars v hv c hc with hdigit | rfl | rfl
  · exact isWhitespace_of_isDigit hdigit
  · rfl
  · rfl

theorem comma_not_mem_display {v : F32} (hv : v.isFinite) : ',' ∉ display v := by
  intro hc
  rcases T.display_chars v hv ',' hc with h | h | h
  · cases h
  · cases h
  · cases h

/-- The fields a vector is printed as are read back as its components. -/
theorem parseFields_display (index : Nat) {values : List F32} (hv : ∀ v ∈ values, v.isFinite) :
    parseFields parse index (values.map display) = .ok values := by
  induction values generalizing index with
  | nil => rfl
  | cons value rest ih =>
    have hvalue := hv value List.mem_cons_self
    have hrest : ∀ v ∈ rest, v.isFinite := fun v hmem => hv v (List.mem_cons_of_mem value hmem)
    rw [List.map_cons, parseFields, Text.trim_eq_self_of_forall _ (T.display_not_whitespace hvalue),
      T.parse_display value hvalue, ih (index + 1) hrest]

/-- **Reading undoes printing**, for every vector that may be stored. -/
theorem parseLiteral_formatLiteral {values : List F32} (hvalid : validate values = .ok ()) :
    parseLiteral parse (formatLiteral display values) = .ok values := by
  obtain ⟨hne, hlen, hfinite⟩ := (validate_eq_ok_iff values).mp hvalid
  have hblank : ∀ c ∈ formatFields display 0 values, isWhitespace c = false := by
    intro c hc
    rcases mem_formatFields hc with rfl | ⟨v, hv, hc⟩
    · rfl
    · exact T.display_not_whitespace (hfinite v hv) c hc
  have hbody : trim isWhitespace (formatFields display 0 values) = formatFields display 0 values :=
    Text.trim_eq_self_of_forall _ hblank
  have hsplit : (formatFields display 0 values).splitOn ',' = values.map display := by
    rw [formatFields_eq]
    refine List.splitOn_intercalate ',' (fun field hfield => ?_) (by simpa using hne)
    obtain ⟨v, hv, rfl⟩ := List.mem_map.mp hfield
    exact T.comma_not_mem_display (hfinite v hv)
  refine (parseLiteral_eq_ok_iff _ values).mpr ⟨formatFields display 0 values, ?_, ?_, ?_, ?_, hvalid⟩
  · -- the brackets are no whitespace, so the literal is its own trimmed form
    refine Text.trim_eq_self _ (fun c hc => ?_) fun c hc => ?_
    · cases hc
      rfl
    · rw [formatLiteral, ← List.cons_append, List.getLast?_concat] at hc
      cases hc
      rfl
  · rw [hbody]
    cases values with
    | nil => exact absurd rfl hne
    | cons value rest =>
      rw [formatFields, if_neg (Nat.lt_irrefl 0), List.nil_append]
      exact List.append_ne_nil_of_left_ne_nil
        (T.display_ne_nil (hfinite value List.mem_cons_self)) _
  · rw [hbody, hsplit, List.length_map]
    exact hlen
  · rw [hbody, hsplit]
    exact T.parseFields_display 0 hfinite

end FloatText

end Accepted

/-- **Literals round trip.** A vector that may be stored is printed as a literal that reads back as
it; and an accepted literal is, between whitespace, a bracketed text with one comma less than the
vector read from it has components, a vector that may be stored and whose printed form reads back as
the same. -/
theorem literal_roundTrip {parse : List Char → Option F32} {display : F32 → List Char}
    (T : FloatText parse display) :
    (∀ values, validate values = .ok () →
      parseLiteral parse (formatLiteral display values) = .ok values) ∧
    ∀ s values, parseLiteral parse s = .ok values →
      validate values = .ok () ∧ values.length ≤ maxDim ∧
      (∃ before inner after, s = before ++ '[' :: (inner ++ [']']) ++ after ∧
        (∀ c ∈ before, isWhitespace c) ∧ (∀ c ∈ after, isWhitespace c) ∧
        values.length = 1 + inner.count ',') ∧
      parseLiteral parse (formatLiteral display values) = .ok values := by
  refine ⟨fun values hvalid => T.parseLiteral_formatLiteral hvalid, fun s values hs => ?_⟩
  obtain ⟨inner, htrim, -, -, hfields, hvalid⟩ := (parseLiteral_eq_ok_iff s values).mp hs
  refine ⟨hvalid, ((validate_eq_ok_iff values).mp hvalid).2.1, ?_,
    T.parseLiteral_formatLiteral hvalid⟩
  obtain ⟨before, after, hparts, hbefore, hafter⟩ := Text.exists_eq_trim isWhitespace s
  rw [htrim] at hparts
  refine ⟨before, inner, after, hparts, hbefore, hafter, ?_⟩
  -- the blanks inside the brackets hold no comma
  obtain ⟨left, right, hinner, hleft, hright⟩ := Text.exists_eq_trim isWhitespace inner
  have hcomma : ∀ blank : List Char, (∀ c ∈ blank, isWhitespace c) → blank.count ',' = 0 := by
    intro blank hblank
    refine List.count_eq_zero.mpr fun hmem => ?_
    exact absurd (hblank ',' hmem) (by decide)
  have hcount : (trim isWhitespace inner).count ',' = inner.count ',' := by
    conv_rhs => rw [hinner]
    rw [List.count_append, List.count_append, hcomma left hleft, hcomma right hright, Nat.zero_add,
      Nat.add_zero]
  rw [parseFields_length hfields, Text.length_splitOn, hcount, Nat.add_comm]

/-! ## One way to print numbers

`1` and `-2.5` as they are printed; any other number by its bits, behind a point. -/

def printSample (v : F32) : List Char :=
  if v.bits = 0x3F800000 then ['1']
  else if v.bits = 0xC0200000 then ['-', '2', '.', '5']
  else '.' :: (Nat.digits 10 v.bits.toNat).map Nat.digitChar

def readSample (s : List Char) : Option F32 :=
  if s = ['1'] then some ⟨0x3F800000⟩
  else if s = ['-', '2', '.', '5'] then some ⟨0xC0200000⟩
  else
    match s with
    | '.' :: digits => some (F32.ofNatBits (Nat.ofDigits 10 (digits.map fun c => c.toNat - 48)))
    | _ => none

theorem digitChar_of_lt : ∀ d < 10, (Nat.digitChar d).isDigit ∧ (Nat.digitChar d).toNat - 48 = d := by
  decide

theorem sample_floatText : FloatText readSample printSample where
  parse_display := fun v _ => by
    have hread : ((Nat.digits 10 v.bits.toNat).map Nat.digitChar).map (fun c => c.toNat - 48) =
        Nat.digits 10 v.bits.toNat := by
      rw [List.map_map]
      refine (List.map_congr_left fun d hd => ?_).trans (List.map_id _)
      exact (digitChar_of_lt d (Nat.digits_lt_base (by decide) hd)).2
    unfold printSample
    split_ifs with hone htwo
    · simp [readSample, ← hone]
    · simp [readSample, ← htwo]
    · simp [readSample, hread, Nat.ofDigits_digits, F32.ofNatBits]
  display_chars := fun v _ c hc => by
    unfold printSample at hc
    split_ifs at hc
    · simp_all
    · simp only [List.mem_cons, List.not_mem_nil, or_false] at hc
      rcases hc with rfl | rfl | rfl | rfl <;> decide
    · rcases List.mem_cons.mp hc with rfl | hc
      · exact .inr (.inr rfl)
      · obtain ⟨d, hd, rfl⟩ := List.mem_map.mp hc
        exact .inl (digitChar_of_lt d (Nat.digits_lt_base (by decide) hd)).1
  parse_nil := rfl

/-- `[1,-2.5]`, printed, and read from a text with blanks in it. -/
theorem literal_roundTrip_sample :
    parseLiteral readSample (formatLiteral printSample [⟨0x3F800000⟩, ⟨0xC0200000⟩]) =
        .ok [⟨0x3F800000⟩, ⟨0xC0200000⟩] ∧
      parseLiteral readSample " [ 1 , -2.5 ] ".toList = .ok [⟨0x3F800000⟩, ⟨0xC0200000⟩] ∧
      [(⟨0x3F800000⟩ : F32), ⟨0xC0200000⟩].length ≤ maxDim := by
  have hread : parseLiteral readSample " [ 1 , -2.5 ] ".toList =
      .ok [⟨0x3F800000⟩, ⟨0xC0200000⟩] := by decide +kernel
  exact ⟨(literal_roundTrip sample_floatText).1 _ (by decide), hread,
    ((literal_roundTrip sample_floatText).2 _ _ hread).2.1⟩

end PgVector

end Brindle
