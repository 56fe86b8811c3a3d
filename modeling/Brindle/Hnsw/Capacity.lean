/-
# Brindle.Hnsw.Capacity — how many layers the offsets can address.

`push_node` refuses a node when its id would not fit a `u32`. The layer offset it stores is a `u32`
sum of every layer so far, which grows faster than the ids do and is not checked: the prefix sums stay
exact precisely while that sum fits. A graph of single layers (`flat`) is as close to the ceiling as
its size, and one more node of two layers wraps it.
-/
import Brindle.Hnsw.WellFormed
import Brindle.Lib.Tiling

namespace Brindle

open Tiling (offsets)

namespace Hnsw

/-- The prefix sums are those of `counts`: exact, strictly increasing, and none has wrapped. -/
structure Addressable (h : Hnsw) (counts : List Nat) : Prop where
  exact : h.layerBase = offsets counts
  strict : h.layerBase.Pairwise (· < ·)
  fits : ∀ stop ∈ h.layerBase, stop < 2 ^ 32

theorem Layout.layerBase_lt {h : Hnsw} (L : Layout h) : ∀ stop ∈ h.layerBase, stop < 2 ^ 32 := by
  intro stop hstop
  rw [L.slots.layerBase_eq] at hstop
  obtain ⟨id, -, rfl⟩ := List.mem_map.mp hstop
  calc Tiling.offset h.layerCounts id ≤ h.layerCounts.sum := Tiling.offset_le_sum id
    _ = h.base h.n := L.slots.layerCounts_sum
    _ < 2 ^ 32 := L.fits

/-- **What `push_node` checks.** In a well-formed graph it refuses the node, or stores it with exact
prefix sums, exactly when the ids are used up or the layers with the new node's still fit a `u32`. -/
theorem pushNode_addressable_iff {h : Hnsw} (W : WellFormed h) (vector : List F32)
    (attrs : List AttrValue) (level : Nat) :
    (h.pushNode vector attrs (level + 1) = Outcome.fail (.nodeLimitReached maxNodes) ∨
        ∃ g, h.pushNode vector attrs (level + 1) = .ok (g, h.n) ∧ g.n = h.n + 1 ∧
          Addressable g (h.layerCounts ++ [level + 1])) ↔
      maxNodes ≤ h.n ∨ h.base h.n + (level + 1) < 2 ^ 32 := by
  have L := W.toLayout
  have hexact : offsets (h.layerCounts ++ [level + 1]) =
      h.layerBase ++ [h.base h.n + (level + 1)] := by
    rw [Tiling.offsets_concat, ← L.slots.layerBase_eq, L.slots.layerCounts_sum]
  by_cases hids : maxNodes ≤ h.n
  · have hrefused : h.pushNode vector attrs (level + 1) =
        Outcome.fail (.nodeLimitReached maxNodes) := by
      simp [pushNode, hids]
    exact ⟨fun _ => .inl hids, fun _ => .inl hrefused⟩
  constructor
  · rintro (hrefused | ⟨g, hstored, -, A⟩)
    · simp [pushNode, hids, L.index_layerBase, Outcome.fail, pure, Except.pure] at hrefused
    · -- the stored offset is below `2 ^ 32`, so it is the exact one only if that is
      right
      have hstop : g.layerBase =
          h.layerBase ++ [asU32 (h.base h.n + asU32 (level + 1))] := by
        simp only [pushNode, ge_iff_le, if_neg hids, L.index_layerBase le_rfl, Outcome.ok_bind]
          at hstored
        cases hstored
        rfl
      have hsame := hstop.symm.trans (A.exact.trans hexact)
      have hlast : asU32 (h.base h.n + asU32 (level + 1)) = h.base h.n + (level + 1) :=
        List.singleton_inj.mp (List.append_cancel_left hsame)
      rw [← hlast]
      exact Nat.mod_lt _ (Nat.two_pow_pos 32)
  · rintro (hover | hfit)
    · exact absurd hover hids
    · right
      refine ⟨h.withNode vector attrs (level + 1), L.pushNode_eq vector attrs (Nat.succ_pos _) hfit,
        rfl, hexact.symm, ?_, ?_⟩
      · show (h.layerBase ++ [h.base h.n + (level + 1)]).Pairwise (· < ·)
        rw [← hexact]
        refine Tiling.offsets_strict fun count hcount => ?_
        rcases List.mem_append.mp hcount with hcount | hcount
        · exact L.slots.layerCounts_pos count hcount
        · rw [List.mem_singleton.mp hcount]
          exact Nat.succ_pos level
      · intro stop hstop
        rcases List.mem_append.mp hstop with hstop | hstop
        · exact L.layerBase_lt stop hstop
        · rw [List.mem_singleton.mp hstop]
          exact hfit

/-! ## Graphs of single layers -/

section Flat

variable [Arith]

/-- `n` rows, each on layer 0 only and linked to none. -/
def flat (params : HnswParams) (n : Nat) : Hnsw :=
  { Hnsw.new params with
    dim := 1
    n
    vectors := List.replicate n F32.one
    layerBase := List.range (n + 1)
    linkCounts := List.replicate n 0
    links := List.replicate (n * (Hnsw.new params).slotWidth 0) 0
    attrs := List.replicate n []
    deleted := List.replicate n false
    entryPoint := some 0 }

variable (params : HnswParams) {n : Nat}

theorem flat_base {id : Nat} (hid : id ≤ n) : (flat params n).base id = id := by
  simp [base, flat, List.getD_eq_getElem?_getD, Nat.lt_succ_of_le hid]

theorem flat_levelsOf {id : Nat} (hid : id < n) : (flat params n).levelsOf id = 1 := by
  rw [levelsOf, flat_base params (show id + 1 ≤ n from hid), flat_base params hid.le,
    Nat.add_sub_cancel_left]

theorem flat_countOf (id layer : Nat) : (flat params n).countOf id layer = 0 := by
  simp only [countOf, flat, List.getD_eq_getElem?_getD, List.getElem?_replicate]
  split_ifs <;> rfl

theorem flat_nbrs (id layer : Nat) : (flat params n).nbrs id layer = [] := by
  unfold nbrs
  rw [flat_countOf, Buffer.window_zero]
  exact ite_self _

theorem flat_rebuildParams (n : Nat) :
    (flat params n).rebuildParams = (Hnsw.new params).rebuildParams := rfl

theorem flat_liveLen (n : Nat) : (flat params n).liveLen = n := by
  simp [liveLen, deletedCount, flat, List.countP_replicate]

theorem flat_wellFormed (hpos : 0 < n) (hn : n < 2 ^ 32) : WellFormed (flat params n) := by
  have hsize : (flat params n).n = n := rfl
  exact
    { base_len := List.length_range
      base_zero := flat_base params (Nat.zero_le n)
      base_lt := fun id hid => by
        rw [flat_base params (show id + 1 ≤ n from hid),
          flat_base params (show id ≤ n from Nat.le_of_lt hid)]
        exact Nat.lt_succ_self id
      fits := by
        rw [hsize, flat_base params le_rfl]
        exact hn
      counts_len := by
        rw [hsize, flat_base params le_rfl]
        exact List.length_replicate
      counts_le := fun id layer _ => by
        rw [flat_countOf]
        exact Nat.zero_le _
      links_len := by
        rw [hsize, runStart, flat_base params le_rfl, Nat.sub_self, Nat.zero_mul]
        exact List.length_replicate
      vectors_len := by
        show (List.replicate n F32.one).length = n * 1
        rw [List.length_replicate, Nat.mul_one]
      attrs_len := List.length_replicate
      deleted_len := List.length_replicate
      links_lt := fun id layer x hx => by
        rw [flat_nbrs] at hx
        cases hx
      capped := fun id layer => by
        rw [flat_nbrs]
        exact Nat.zero_le _
      dim_pos := fun _ => Nat.one_pos
      dim_le := show 1 ≤ HnswParams.maxDim by decide
      entry_lt := fun e he => by
        cases he
        exact hpos
      nodup := fun id layer => by
        rw [flat_nbrs]
        exact List.nodup_nil
      irrefl := fun id layer => by
        rw [flat_nbrs]
        exact List.not_mem_nil
      owned := fun id layer x hx => by
        rw [flat_nbrs] at hx
        cases hx
      empty := fun hzero => absurd hzero hpos.ne'
      entry := fun _ => ⟨0, rfl, hpos, flat_levelsOf params hpos⟩
      top := fun id hid => (flat_levelsOf params hid).le }

end Flat

/-- One row, and then another of three layers. -/
theorem pushNode_addressable_flat :
    (@flat Arith.ieee HnswParams.default 1).pushNode [F32.zero] [] 3 =
        Outcome.fail (.nodeLimitReached maxNodes) ∨
      ∃ g, (@flat Arith.ieee HnswParams.default 1).pushNode [F32.zero] [] 3 = .ok (g, 1) ∧
        g.n = 2 ∧ Addressable g ((@flat Arith.ieee HnswParams.default 1).layerCounts ++ [3]) := by
  refine (pushNode_addressable_iff (@flat_wellFormed Arith.ieee HnswParams.default 1 one_pos
    (by decide)) [F32.zero] [] 2).mpr (.inr ?_)
  show (@flat Arith.ieee HnswParams.default 1).base 1 + 3 < 2 ^ 32
  rw [@flat_base Arith.ieee HnswParams.default 1 1 le_rfl]
  decide

/-- With `2³² - 2` rows of one layer each the node limit is not reached, and a row of two layers is
stored at an offset that wraps to zero. -/
theorem pushNode_wraps :
    ¬ ∀ h : Hnsw, WellFormed h → ∀ (vector : List F32) (attrs : List AttrValue) (level : Nat),
      h.pushNode vector attrs (level + 1) = Outcome.fail (.nodeLimitReached maxNodes) ∨
        ∃ g, h.pushNode vector attrs (level + 1) = .ok (g, h.n) ∧ g.n = h.n + 1 ∧
          Addressable g (h.layerCounts ++ [level + 1]) := by
  intro hall
  have W := @flat_wellFormed Arith.ieee HnswParams.default (2 ^ 32 - 2) (by decide) (by decide)
  rcases (pushNode_addressable_iff W [F32.one] [] 1).mp (hall _ W [F32.one] [] 1) with hids | hfit
  · exact absurd (show 2 ^ 32 - 1 ≤ 2 ^ 32 - 2 from hids) (by decide)
  · rw [show (@flat Arith.ieee HnswParams.default (2 ^ 32 - 2)).n = 2 ^ 32 - 2 from rfl,
      @flat_base Arith.ieee HnswParams.default _ _ le_rfl] at hfit
    exact absurd hfit (by decide)

end Hnsw

end Brindle
