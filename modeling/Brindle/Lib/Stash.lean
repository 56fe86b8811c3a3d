/-
# Brindle.Lib.Stash — values set aside under keys, handed up from one key to another.

A list of keyed values, at most one of which counts for each key: the first. `handedUp` gives the value
of one key to another, which keeps an older one of its own. Scopes that nest keep what they set aside
this way: closing a scope hands its value to the scope around it.
-/
import Mathlib.Data.List.Nodup

namespace Stash

variable {κ ν : Type} [DecidableEq κ] {stash : List (κ × ν)} {key my parent : κ}

/-- The first value set aside under a key. -/
def firstUnder (stash : List (κ × ν)) (key : κ) : Option ν :=
  (stash.find? fun entry => entry.1 = key).map Prod.snd

/-- Hand the value of `my` to `parent`, which keeps an older one of its own. -/
def handedUp (stash : List (κ × ν)) (my parent : κ) : List (κ × ν) :=
  if stash.any fun entry => entry.1 = parent then stash.filter fun entry => entry.1 ≠ my
  else stash.map fun entry => if entry.1 = my then (parent, entry.2) else entry

theorem mem_of_firstUnder {value : ν} (h : firstUnder stash key = some value) :
    (key, value) ∈ stash := by
  obtain ⟨⟨key', value'⟩, hfind, rfl⟩ := Option.map_eq_some_iff.mp h
  have hkey : key' = key := by simpa using List.find?_some hfind
  rw [← hkey]
  exact List.mem_of_find?_eq_some hfind

theorem firstUnder_eq_none : firstUnder stash key = none ↔ ∀ entry ∈ stash, entry.1 ≠ key := by
  simp [firstUnder]

theorem any_iff_firstUnder :
    (stash.any fun entry => entry.1 = key) = true ↔ firstUnder stash key ≠ none := by
  rw [Ne, firstUnder_eq_none]
  simp

theorem firstUnder_map (f : ν → ν) :
    firstUnder (stash.map fun entry => (entry.1, f entry.2)) key =
      (firstUnder stash key).map f := by
  unfold firstUnder
  rw [List.find?_map, Option.map_map, Option.map_map]
  rfl

theorem firstUnder_filter (hne : key ≠ my) :
    firstUnder (stash.filter fun entry => entry.1 ≠ my) key = firstUnder stash key := by
  unfold firstUnder
  rw [List.find?_filter]
  congr 2
  funext entry
  by_cases hkey : entry.1 = key
  · simp [hkey, hne]
  · simp [hkey]

/-- A value pushed under a key that has none is the first. -/
theorem firstUnder_append {value : ν} (hnone : firstUnder stash key = none) :
    firstUnder (stash ++ [(key, value)]) key = some value := by
  unfold firstUnder at hnone ⊢
  rw [Option.map_eq_none_iff] at hnone
  rw [List.find?_append, hnone]
  simp

/-! ## Handing up -/

/-- The parent has a value of its own, or takes over the one of `my`. -/
theorem firstUnder_handedUp (hne : parent ≠ my) :
    firstUnder (handedUp stash my parent) parent =
      (firstUnder stash parent <|> firstUnder stash my) := by
  unfold handedUp
  split_ifs with hany
  · obtain ⟨value, hvalue⟩ := Option.ne_none_iff_exists'.mp (any_iff_firstUnder.mp hany)
    rw [firstUnder_filter hne, hvalue]
    rfl
  · have hnone : firstUnder stash parent = none := by
      by_contra hsome
      exact hany (any_iff_firstUnder.mpr hsome)
    have hkeys := firstUnder_eq_none.mp hnone
    rw [hnone]
    show _ = firstUnder stash my
    clear hnone hany
    unfold firstUnder
    rw [List.find?_map, Option.map_map]
    induction stash with
    | nil => rfl
    | cons entry stash ih =>
      rw [List.find?_cons, List.find?_cons]
      by_cases hmy : entry.1 = my
      · simp [hmy]
      · have hparent := hkeys entry List.mem_cons_self
        simp only [Function.comp_apply, if_neg hmy, decide_eq_false hparent, decide_eq_false hmy]
        exact ih fun e he => hkeys e (List.mem_cons_of_mem _ he)

/-- What is set aside under a third key stays where it is. -/
theorem filter_handedUp : (handedUp stash my parent).filter (fun entry => entry.1 ≠ parent) =
    (stash.filter fun entry => entry.1 ≠ my).filter fun entry => entry.1 ≠ parent := by
  unfold handedUp
  split_ifs with hany
  · rfl
  · induction stash with
    | nil => rfl
    | cons entry stash ih =>
      have hrest : ¬ (stash.any fun entry => entry.1 = parent) = true := by
        intro h
        apply hany
        rw [List.any_cons, h, Bool.or_true]
      by_cases hmy : entry.1 = my
      · simpa [hmy] using ih hrest
      · by_cases hparent : entry.1 = parent
        · simp [hparent] at hany
        · simpa [hmy, hparent] using ih hrest

/-- Keys stay distinct. -/
theorem nodup_handedUp (h : (stash.map Prod.fst).Nodup) :
    ((handedUp stash my parent).map Prod.fst).Nodup := by
  unfold handedUp
  split_ifs with hany
  · exact h.sublist (List.filter_sublist.map _)
  · have hkeys : ∀ key ∈ stash.map Prod.fst, key ≠ parent := by
      intro key hkey heq
      obtain ⟨entry, hentry, rfl⟩ := List.mem_map.mp hkey
      exact hany (List.any_eq_true.mpr ⟨entry, hentry, by simpa using heq⟩)
    have hmap : (stash.map fun entry => if entry.1 = my then (parent, entry.2) else entry).map
        Prod.fst = (stash.map Prod.fst).map fun key => if key = my then parent else key := by
      rw [List.map_map, List.map_map]
      apply List.map_congr_left
      intro entry _
      by_cases hmy : entry.1 = my <;> simp [hmy]
    rw [hmap]
    -- only `my` changes, into a key that nothing is under
    refine List.Nodup.map_on ?_ h
    intro a ha b hb hab
    by_cases hma : a = my <;> by_cases hmb : b = my
    · rw [hma, hmb]
    · rw [if_pos hma, if_neg hmb] at hab
      exact absurd hab.symm (hkeys b hb)
    · rw [if_neg hma, if_pos hmb] at hab
      exact absurd hab (hkeys a ha)
    · rwa [if_neg hma, if_neg hmb] at hab

/-- An entry is an old one, under its old key or under the parent's. -/
theorem mem_handedUp {entry : κ × ν} (h : entry ∈ handedUp stash my parent) :
    ∃ old ∈ stash, entry.2 = old.2 ∧ (entry.1 = old.1 ∨ entry.1 = parent) := by
  unfold handedUp at h
  split_ifs at h with hany
  · exact ⟨entry, List.mem_of_mem_filter h, rfl, .inl rfl⟩
  · obtain ⟨old, hold, rfl⟩ := List.mem_map.mp h
    refine ⟨old, hold, ?_⟩
    by_cases hmy : old.1 = my <;> simp [hmy]

/-- Nothing stays under the key that was given up. -/
theorem ne_of_mem_handedUp (hne : parent ≠ my) {entry : κ × ν}
    (h : entry ∈ handedUp stash my parent) : entry.1 ≠ my := by
  unfold handedUp at h
  split_ifs at h with hany
  · simpa using (List.mem_filter.mp h).2
  · obtain ⟨old, -, rfl⟩ := List.mem_map.mp h
    by_cases hmy : old.1 = my <;> simp [hmy, hne]

end Stash
