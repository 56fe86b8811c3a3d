/-
# Brindle.Lib.Greedy — greedy selection from a sorted list.

A greedy pass walks a list and keeps what nothing kept so far blocks. On a strictly sorted list its
outcome has a description that does not mention the walk: an element is kept precisely when no smaller
kept element blocks it (`mem_keep_iff`). What a bounded pass leaves out can be filled up from the rest;
`remaining` is that rest, in order.
-/
import Mathlib.Data.List.Nodup
import Mathlib.Data.List.Perm.Basic
import Mathlib.Order.Basic

namespace Greedy

variable {α : Type}

/-! ## Keeping -/

section Keep

/-- Walk the list, adding to `kept` every element that no kept one blocks. -/
def keep (blocks : α → α → Bool) : List α → List α → List α
  | [], kept => kept
  | x :: rest, kept => keep blocks rest (if kept.any (blocks x) then kept else kept ++ [x])

variable (blocks : α → α → Bool)

/-- The walk only appends, and what it appends it takes in order. -/
theorem keep_eq_append (xs kept : List α) :
    ∃ more, keep blocks xs kept = kept ++ more ∧ more.Sublist xs := by
  induction xs generalizing kept with
  | nil => exact ⟨[], (List.append_nil kept).symm, List.Sublist.refl _⟩
  | cons x rest ih =>
    rw [keep]
    split_ifs with hblocked
    · obtain ⟨more, hmore, hsub⟩ := ih kept
      exact ⟨more, hmore, hsub.cons x⟩
    · obtain ⟨more, hmore, hsub⟩ := ih (kept ++ [x])
      exact ⟨x :: more, by rw [hmore, List.append_assoc, List.singleton_append], hsub.cons_cons x⟩

theorem keep_nil_sublist (xs : List α) : (keep blocks xs []).Sublist xs := by
  obtain ⟨more, hmore, hsub⟩ := keep_eq_append blocks xs []
  rw [hmore, List.nil_append]
  exact hsub

theorem subset_keep (xs kept : List α) : kept ⊆ keep blocks xs kept := by
  obtain ⟨more, hmore, -⟩ := keep_eq_append blocks xs kept
  rw [hmore]
  exact List.subset_append_left kept more

/-- The first element is kept, nothing being there to block it. -/
theorem keep_cons_head (x : α) (rest : List α) :
    ∃ more, keep blocks (x :: rest) [] = x :: more := by
  obtain ⟨more, hmore, -⟩ := keep_eq_append blocks rest [x]
  exact ⟨more, by simpa [keep] using hmore⟩

theorem mem_keep_iff_of_sorted [Preorder α] {xs kept : List α}
    (hsorted : (kept ++ xs).Pairwise (· < ·)) : ∀ c, c ∈ keep blocks xs kept ↔
      c ∈ kept ∨ c ∈ xs ∧ ∀ r ∈ keep blocks xs kept, r < c → blocks c r = false := by
  induction xs generalizing kept with
  | nil => simp [keep]
  | cons x rest ih =>
    obtain ⟨hkept, hrest, hcross⟩ := List.pairwise_append.mp hsorted
    obtain ⟨hx, hrest⟩ := List.pairwise_cons.mp hrest
    intro c
    rw [keep]
    split_ifs with hblocked
    · -- `x` is blocked by an element that stays kept
      have hsorted' : (kept ++ rest).Pairwise (· < ·) :=
        List.pairwise_append.mpr
          ⟨hkept, hrest, fun a ha b hb => hcross a ha b (List.mem_cons_of_mem x hb)⟩
      rw [ih hsorted' c]
      refine or_congr_right (and_congr_left fun hfree => ⟨List.mem_cons_of_mem x, fun hc => ?_⟩)
      rcases List.mem_cons.mp hc with rfl | hc
      · obtain ⟨r, hr, hblocks⟩ := List.any_eq_true.mp hblocked
        have hfree' := hfree r (subset_keep blocks rest kept hr)
          (hcross r hr c List.mem_cons_self)
        rw [hblocks] at hfree'
        cases hfree'
      · exact hc
    · -- `x` is kept, and only elements kept before it are smaller
      have hsorted' : (kept ++ [x] ++ rest).Pairwise (· < ·) := by
        rw [List.append_assoc, List.singleton_append]
        exact hsorted
      have hfree : ∀ r ∈ keep blocks rest (kept ++ [x]), r < x → blocks x r = false := by
        intro r hr hlt
        rcases (ih hsorted' r).mp hr with hr | ⟨hr, -⟩
        · rcases List.mem_append.mp hr with hr | hr
          · exact Bool.eq_false_iff.mpr fun hblocks => hblocked (List.any_eq_true.mpr ⟨r, hr, hblocks⟩)
          · rw [List.mem_singleton.mp hr] at hlt
            exact absurd hlt (lt_irrefl x)
        · exact absurd hlt (lt_asymm (hx r hr))
      rw [ih hsorted' c]
      constructor
      · rintro (hc | ⟨hc, hall⟩)
        · rcases List.mem_append.mp hc with hc | hc
          · exact .inl hc
          · rw [List.mem_singleton.mp hc]
            exact .inr ⟨List.mem_cons_self, hfree⟩
        · exact .inr ⟨List.mem_cons_of_mem x hc, hall⟩
      · rintro (hc | ⟨hc, hall⟩)
        · exact .inl (List.mem_append_left _ hc)
        · rcases List.mem_cons.mp hc with rfl | hc
          · exact .inl (List.mem_append_right _ (List.mem_singleton.mpr rfl))
          · exact .inr ⟨hc, hall⟩

/-- **The greedy rule.** Over a sorted list, what is kept is what no smaller kept element blocks. -/
theorem mem_keep_iff [Preorder α] {xs : List α} (hsorted : xs.Pairwise (· < ·)) (c : α) :
    c ∈ keep blocks xs [] ↔ c ∈ xs ∧ ∀ r ∈ keep blocks xs [], r < c → blocks c r = false := by
  have hsorted' : ([] ++ xs).Pairwise (· < ·) := hsorted
  have hrule := mem_keep_iff_of_sorted blocks hsorted' c
  simpa using hrule

end Keep

/-! ## What is left -/

section Remaining

variable [DecidableEq α]

/-- The elements of `xs` outside `taken`, in order. -/
def remaining (xs taken : List α) : List α := xs.filter fun x => !taken.contains x

variable {xs taken : List α}

theorem mem_remaining {x : α} : x ∈ remaining xs taken ↔ x ∈ xs ∧ x ∉ taken := by
  simp [remaining]

theorem remaining_length (hnodup : xs.Nodup) (hsub : taken.Sublist xs) :
    taken.length + (remaining xs taken).length = xs.length := by
  have htaken : (xs.filter fun x => taken.contains x).Perm taken := by
    refine (List.perm_ext_iff_of_nodup (hnodup.filter _) (hsub.nodup hnodup)).mpr fun x => ?_
    simp only [List.mem_filter, List.contains_iff_mem]
    exact ⟨fun hx => hx.2, fun hx => ⟨hsub.subset hx, hx⟩⟩
  rw [← htaken.length_eq, remaining]
  exact (List.length_eq_length_filter_add _).symm

/-- A fill of the room left takes the least that remains. -/
theorem lt_of_mem_take_remaining [Preorder α] (hsorted : xs.Pairwise (· < ·)) {k : Nat} {b c : α}
    (hb : b ∈ (remaining xs taken).take k) (hc : c ∈ xs) (htaken : c ∉ taken)
    (hleft : c ∉ (remaining xs taken).take k) : b < c := by
  have hrest : (remaining xs taken).Pairwise (· < ·) := hsorted.filter _
  rw [← List.take_append_drop k (remaining xs taken)] at hrest
  have hmem : c ∈ (remaining xs taken).take k ++ (remaining xs taken).drop k := by
    rw [List.take_append_drop]
    exact mem_remaining.mpr ⟨hc, htaken⟩
  exact (List.pairwise_append.mp hrest).2.2 b hb c ((List.mem_append.mp hmem).resolve_left hleft)

end Remaining

end Greedy
