/-
# Brindle.Hnsw.Frame — what linking leaves alone in any graph at all.

`Relinked` is the frame of a write into a laid-out graph. Some facts need no layout: whatever the
offsets are, an insert that returns has advanced the generator at most once, has kept the
configuration, and has changed the lengths of the arrays only where it stored the node. `Relisted` is
that weaker frame, and `after_insertDrawn` is what an insert does by it.
-/
import Brindle.Hnsw.Insert
import Brindle.Hnsw.Relink
import Brindle.Lib.Run

namespace Brindle

open Outcome (index overwrite)
open Run (After after_iff after_foldlM after_foldlM_const after_true)

namespace Hnsw

/-- `g` is `h` with other lists, in arrays of the same lengths. -/
structure Relisted (h g : Hnsw) : Prop where
  shell : g = h.withLinks g.links g.linkCounts
  links_len : g.links.length = h.links.length
  counts_len : g.linkCounts.length = h.linkCounts.length

namespace Relisted

variable {h g k : Hnsw}

/-- Nothing has been written. -/
theorem refl (h : Hnsw) : Relisted h h := ⟨rfl, rfl, rfl⟩

/-- One write after another. -/
theorem trans (R : Relisted h g) (S : Relisted g k) : Relisted h k where
  shell := by
    have hk := S.shell
    rw [R.shell] at hk
    exact hk
  links_len := S.links_len.trans R.links_len
  counts_len := S.counts_len.trans R.counts_len

/-- Whatever does not read the lists is unchanged. -/
theorem field {β : Type} (R : Relisted h g) (f : Hnsw → β)
    (hf : ∀ links counts, f (h.withLinks links counts) = f h) : f g = f h := by
  rw [R.shell]
  exact hf _ _

end Relisted

/-! ## The mutators -/

/-- Writing over a range that fits keeps the length; one that does not fit is a panic. -/
theorem after_overwrite {α : Type} (xs : List α) (start : Nat) (ys : List α) :
    After (fun zs => zs.length = xs.length) (overwrite xs start ys : Outcome HnswError _) := by
  unfold overwrite
  split_ifs with hroom
  · show (xs.take start ++ ys ++ xs.drop (start + ys.length)).length = xs.length
    simp only [List.length_append, List.length_take, List.length_drop]
    omega
  · trivial

theorem after_copyIntoLinks (h : Hnsw) (start : Nat) (ids : List Nat) :
    After (Relisted h) (h.copyIntoLinks start ids) :=
  (after_overwrite h.links start ids).bind fun _ hlen => ⟨rfl, hlen, rfl⟩

theorem after_storeCount (h : Hnsw) (idx count : Nat) : After (Relisted h) (h.storeCount idx count) := by
  unfold storeCount
  split_ifs
  · exact ⟨rfl, rfl, List.length_set ..⟩
  · trivial

/-- A list replaced. -/
theorem after_setNeighbors (h : Hnsw) (id layer : Nat) (ids : List Nat) :
    After (Relisted h) (h.setNeighbors id layer ids) := by
  unfold setNeighbors
  refine (after_true _).bind fun start _ => ?_
  refine (after_copyIntoLinks h start ids).bind fun g hg => ?_
  refine (after_true _).bind fun base _ => ?_
  exact (after_storeCount g _ _).mono fun k hk => hg.trans hk

/-- A list grown by one within its slots. -/
theorem after_pushNeighbor (h : Hnsw) (id layer neighbor : Nat) :
    After (fun r => Relisted h r.1) (h.pushNeighbor id layer neighbor) := by
  unfold pushNeighbor
  refine (after_true _).bind fun base _ => (after_true _).bind fun count _ => ?_
  refine (after_true _).bind fun start _ => ?_
  refine (after_copyIntoLinks h _ _).bind fun g hg => ?_
  exact (after_storeCount g _ _).bind fun k hk => hg.trans hk

section Linking

variable [Arith]

/-- A back link, and the pruning where it filled the list. -/
theorem after_linkBack (h : Hnsw) (id lc n : Nat) : After (Relisted h) (h.linkBack id lc n) := by
  unfold linkBack
  refine (after_pushNeighbor h n lc (asU32 id)).bind ?_
  rintro ⟨g, len⟩ hg
  dsimp only at hg ⊢
  split_ifs
  · exact hg
  · refine (after_true _).bind fun nbase _ => (after_true _).bind fun nbrs _ => ?_
    refine (after_true _).bind fun cands _ => (after_true _).bind fun kept _ => ?_
    exact (after_setNeighbors g n lc _).mono fun k hk => hg.trans hk

/-- The new node's list at one layer, and a back link from each of its neighbors. -/
theorem after_connectLayer (h : Hnsw) (query : List F32) (id lc : Nat) (epIds : List Nat)
    (tr : Traversal) :
    After (fun r => Relisted h r.1) (h.connectLayer query id lc epIds tr) := by
  unfold connectLayer
  refine (after_true _).bind fun found _ => (after_true _).bind fun selected _ => ?_
  refine (after_setNeighbors h id lc _).bind fun g hg => ?_
  refine After.bind (after_foldlM_const (Relisted h) selected (fun n k _ hk => ?_) hg) fun k hk => hk
  exact (after_linkBack k id lc n).mono fun _ hl => hk.trans hl

theorem after_connectLayers (h : Hnsw) (query : List F32) (id entry : Nat) (layers epIds : List Nat)
    (tr : Traversal) :
    After (fun r => Relisted h r.1) (h.connectLayers query id entry layers epIds tr) := by
  unfold connectLayers
  refine after_foldlM_const (fun r : Hnsw × List Nat × Traversal => Relisted h r.1) layers ?_
    (Relisted.refl h)
  rintro lc ⟨g, epIds, tr⟩ - hg
  exact (after_connectLayer g query id lc epIds tr).bind fun r hr => hg.trans hr

/-- Linking a stored node changes lists, and may raise the entry point to it. -/
theorem after_linkNode (h : Hnsw) (id level : Nat) :
    After (fun g => ∃ k, Relisted h k ∧
      g = { k with entryPoint := g.entryPoint, maxLayer := g.maxLayer } ∧
        g.maxLayer ≤ max h.maxLayer level) (h.linkNode id level) := by
  unfold linkNode
  cases h.entryPoint with
  | none => exact ⟨h, Relisted.refl h, rfl, Nat.le_max_right ..⟩
  | some entry =>
    refine (after_true _).bind fun query _ => (after_true _).bind fun descent _ => ?_
    refine (after_connectLayers h query id entry _ _ _).bind ?_
    rintro ⟨g, eps, tr⟩ hg
    dsimp only at hg ⊢
    split_ifs
    · exact ⟨g, hg, rfl, Nat.le_max_right ..⟩
    · refine ⟨g, hg, rfl, ?_⟩
      rw [hg.field Hnsw.maxLayer fun _ _ => rfl]
      exact Nat.le_max_left ..

end Linking

/-! ## The insert -/

/-- What an insert does to the generator, the configuration, the top layer and the number of stored
lists. -/
structure Advanced (h : Hnsw) (level : Nat) (r : Hnsw × Except HnswError Nat) : Prop where
  params_eq : r.1.rebuildParams = h.rebuildParams
  ml_eq : r.1.ml = h.ml
  rng_eq : r.1.rng = h.rng ∨ r.1.rng = xorshift64 h.rng
  top_le : r.1.maxLayer ≤ max h.maxLayer level
  stored : ∀ id, r.2 = .ok id → r.1.rng = xorshift64 h.rng ∧
    r.1.linkCounts.length = h.linkCounts.length + (level + 1)

/-- Accepting a vector may set the dimension. -/
theorem acceptVector_frame {h g : Hnsw} {vector : List F32} (hv : h.acceptVector vector = .ok g) :
    g = { h with dim := g.dim } := by
  unfold acceptVector at hv
  split_ifs at hv <;> cases hv <;> rfl

/-- A stored node brings as many counts as it has layers, all zero. -/
theorem after_pushNode (h : Hnsw) (vector : List F32) (attrs : List AttrValue) (levels : Nat) :
    After (fun r => r.1.rebuildParams = h.rebuildParams ∧ r.1.ml = h.ml ∧ r.1.rng = h.rng ∧
      r.1.maxLayer = h.maxLayer ∧ r.1.linkCounts.length = h.linkCounts.length + levels)
      (h.pushNode vector attrs levels) := by
  unfold pushNode
  split_ifs
  · trivial
  · refine (after_true _).bind fun base _ => ?_
    show h.rebuildParams = h.rebuildParams ∧ h.ml = h.ml ∧ h.rng = h.rng ∧ h.maxLayer = h.maxLayer ∧
      (h.linkCounts ++ List.replicate levels 0).length = h.linkCounts.length + levels
    simp

/-- **An insert** advances the generator at most once, and exactly once when it stores a node. -/
theorem after_insertDrawn [Arith] (h : Hnsw) (vector : List F32) (attrs : List AttrValue)
    (level : Nat) : After (Advanced h level) (h.insertDrawn vector attrs level) := by
  unfold insertDrawn
  cases hv : h.acceptVector vector with
  | error e => exact ⟨rfl, rfl, .inl rfl, Nat.le_max_left .., nofun⟩
  | ok g =>
    have hg := acceptVector_frame hv
    dsimp only
    unfold storeAndLink
    have hpush := after_pushNode { g with rng := xorshift64 g.rng } vector attrs (level + 1)
    cases hp : ({ g with rng := xorshift64 g.rng } : Hnsw).pushNode vector attrs (level + 1) with
    | error fault =>
      cases fault with
      | error e =>
        rw [hg]
        exact ⟨rfl, rfl, .inr rfl, Nat.le_max_left .., nofun⟩
      | panic => trivial
      | fuel => trivial
    | ok r =>
      obtain ⟨k, id⟩ := r
      obtain ⟨hparams, hml, hrng, htop, hcounts⟩ := hpush.elim hp
      rw [hg] at hparams hml hrng htop hcounts
      refine (after_linkNode k id level).bind fun l hl => ?_
      obtain ⟨j, hj, hset, hle⟩ := hl
      rw [hset] at hle ⊢
      have hrng' : j.rng = xorshift64 h.rng := (hj.field Hnsw.rng fun _ _ => rfl).trans hrng
      exact
        { params_eq := (hj.field Hnsw.rebuildParams fun _ _ => rfl).trans hparams
          ml_eq := (hj.field Hnsw.ml fun _ _ => rfl).trans hml
          rng_eq := .inr hrng'
          top_le := htop ▸ hle
          stored := fun _ _ => ⟨hrng', hj.counts_len.trans hcounts⟩ }

end Hnsw

end Brindle
