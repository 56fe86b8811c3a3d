/-
# Brindle.Lib.Text — trimming, brackets and separators.

A string is a list of characters. `trim` drops what a predicate holds of at both ends, `stripPrefix`
and `stripSuffix` take one character off an end, and a list is split at a separator by `List.splitOn`.
Each comes with what it makes of text that was put together from parts, and with the parts text it
accepts was put together from.
-/
import Mathlib.Data.List.DropRight
import Mathlib.Data.List.Infix

namespace Text

variable {α : Type}

/-! ## Trimming -/

section Trim

variable (p : α → Bool)

/-- `s` without what `p` holds of at either end. -/
def trim (s : List α) : List α := (s.dropWhile p).rdropWhile p

/-- Nothing is dropped when `p` holds of neither end. -/
theorem trim_eq_self {s : List α} (hhead : ∀ c ∈ s.head?, p c = false)
    (hlast : ∀ c ∈ s.getLast?, p c = false) : trim p s = s := by
  have hleft : s.dropWhile p = s := by
    cases s with
    | nil => rfl
    | cons c s => exact List.dropWhile_cons_of_neg (by simpa using hhead c rfl)
  rw [trim, hleft, List.rdropWhile_eq_self_iff]
  intro hne hp
  rw [hlast (s.getLast hne) (List.getLast_mem_getLast? hne)] at hp
  cases hp

theorem trim_eq_self_of_forall {s : List α} (hs : ∀ c ∈ s, p c = false) : trim p s = s :=
  trim_eq_self p (fun c hc => hs c (List.mem_of_head? hc)) fun c hc =>
    hs c (List.mem_of_getLast? hc)

/-- What is dropped lies at the two ends, and `p` holds of all of it. -/
theorem exists_eq_trim (s : List α) : ∃ before after, s = before ++ trim p s ++ after ∧
    (∀ c ∈ before, p c = true) ∧ ∀ c ∈ after, p c = true := by
  refine ⟨s.takeWhile p, (s.dropWhile p).rtakeWhile p, ?_, fun c hc => List.mem_takeWhile_imp hc,
    fun c hc => List.mem_rtakeWhile_imp hc⟩
  rw [trim, List.append_assoc, List.rdropWhile_append_rtakeWhile, List.takeWhile_append_dropWhile]

end Trim

/-! ## Brackets -/

section Strip

variable [DecidableEq α]

/-- `s` behind a leading `c`. -/
def stripPrefix (c : α) : List α → Option (List α)
  | [] => none
  | x :: rest => if x = c then some rest else none

/-- `s` before a trailing `c`. -/
def stripSuffix (c : α) (s : List α) : Option (List α) :=
  if s.getLast? = some c then some s.dropLast else none

theorem stripPrefix_eq_some {c : α} {s rest : List α} (h : stripPrefix c s = some rest) :
    s = c :: rest := by
  cases s with
  | nil => cases h
  | cons x s =>
    rw [stripPrefix] at h
    split_ifs at h with hx
    rw [hx, Option.some.inj h]

@[simp] theorem stripPrefix_cons (c : α) (rest : List α) :
    stripPrefix c (c :: rest) = some rest :=
  if_pos rfl

theorem stripSuffix_eq_some {c : α} {s rest : List α} (h : stripSuffix c s = some rest) :
    s = rest ++ [c] := by
  unfold stripSuffix at h
  split_ifs at h with hlast
  rw [← Option.some.inj h]
  exact (List.dropLast_append_getLast? c hlast).symm

@[simp] theorem stripSuffix_concat (rest : List α) (c : α) :
    stripSuffix c (rest ++ [c]) = some rest := by
  simp [stripSuffix]

end Strip

/-! ## Separators -/

/-- There is one field more than there are separators. -/
theorem length_splitOn [DecidableEq α] (sep : α) (s : List α) :
    (s.splitOn sep).length = s.count sep + 1 := by
  induction s with
  | nil => simp
  | cons c s ih =>
    rw [List.splitOn_cons_eq_if_modifyHead, List.count_cons]
    split_ifs with hsep
    · rw [List.length_cons, ih]
    · rw [List.length_modifyHead, ih, Nat.add_zero]

end Text
