/-
# Brindle.Hnsw.RoundTrip — a graph comes back from its bytes as it was.

`decode_encode` says when the decoder accepts an encoding and what it then builds; here the result is
read off field by field. The reserved slots past the live counts are not part of the payload, so they
are all that may differ.
-/
import Brindle.Hnsw.Transparent

namespace Brindle

open Outcome (Ensures)

namespace Hnsw

/-- `h'` is `h` but for slots past the live counts: every other field is the same, and every list
reads the same through the code's own accessor. -/
structure SameGraph (h h' : Hnsw) : Prop where
  metric_eq : h'.metric = h.metric
  m_eq : h'.m = h.m
  gamma_eq : h'.gamma = h.gamma
  mCap_eq : h'.mCap = h.mCap
  m0Cap_eq : h'.m0Cap = h.m0Cap
  efConstruction_eq : h'.efConstruction = h.efConstruction
  ml_eq : h'.ml = h.ml
  dim_eq : h'.dim = h.dim
  seed_eq : h'.seed = h.seed
  rng_eq : h'.rng = h.rng
  n_eq : h'.n = h.n
  entryPoint_eq : h'.entryPoint = h.entryPoint
  maxLayer_eq : h'.maxLayer = h.maxLayer
  vectors_eq : h'.vectors = h.vectors
  attrs_eq : h'.attrs = h.attrs
  deleted_eq : h'.deleted = h.deleted
  layerBase_eq : h'.layerBase = h.layerBase
  linkCounts_eq : h'.linkCounts = h.linkCounts
  lists_eq : ∀ id layer, ∃ ids, h.neighbors id layer = .ok ids ∧ h'.neighbors id layer = .ok ids

instance (h : Hnsw) : Decidable h.Admissible := inferInstanceAs (Decidable (_ ∧ _))

/-- A relinked graph whose lists are all untouched. -/
theorem Twins.sameGraph {h g : Hnsw} (T : Twins h g) (L : Layout h)
    (hcounts : g.linkCounts = h.linkCounts) : SameGraph h g := by
  have hshell := T.shell
  have hfield {α : Type} (f : Hnsw → α) (hf : ∀ links counts, f (h.withLinks links counts) = f h) :
      f g = f h := by
    rw [hshell]
    exact hf _ _
  refine
    { metric_eq := hfield Hnsw.metric fun _ _ => rfl
      m_eq := hfield Hnsw.m fun _ _ => rfl
      gamma_eq := hfield Hnsw.gamma fun _ _ => rfl
      mCap_eq := hfield Hnsw.mCap fun _ _ => rfl
      m0Cap_eq := hfield Hnsw.m0Cap fun _ _ => rfl
      efConstruction_eq := hfield Hnsw.efConstruction fun _ _ => rfl
      ml_eq := hfield Hnsw.ml fun _ _ => rfl
      dim_eq := hfield Hnsw.dim fun _ _ => rfl
      seed_eq := hfield Hnsw.seed fun _ _ => rfl
      rng_eq := hfield Hnsw.rng fun _ _ => rfl
      n_eq := hfield Hnsw.n fun _ _ => rfl
      entryPoint_eq := hfield Hnsw.entryPoint fun _ _ => rfl
      maxLayer_eq := hfield Hnsw.maxLayer fun _ _ => rfl
      vectors_eq := hfield Hnsw.vectors fun _ _ => rfl
      attrs_eq := hfield Hnsw.attrs fun _ _ => rfl
      deleted_eq := hfield Hnsw.deleted fun _ _ => rfl
      layerBase_eq := hfield Hnsw.layerBase fun _ _ => rfl
      linkCounts_eq := hcounts
      lists_eq := ?_ }
  intro id layer
  refine ⟨h.nbrs id layer, L.neighbors_eq id layer, ?_⟩
  rw [T.layout.neighbors_eq, T.nbrs_eq]

variable [Arith]

/-- **The codec round trip.** A well-formed graph encodes, and where the decoder admits its
configuration and its reserved slots, the encoding decodes to the same graph. -/
theorem fromBytes_toBytes (h : Hnsw) (W : WellFormed h) (C : Configured h) (A : Admissible h) :
    ∃ bytes, h.toBytes = .ok bytes ∧
      (h.links.length ≤ maxSlots (bytes.length - h.writeHeader.length) →
        ∃ h', Hnsw.fromBytes bytes = .ok h' ∧ SameGraph h h') := by
  obtain ⟨bytes, hbytes, hdecodes, hmirror⟩ := decode_encode W C
  refine ⟨bytes, hbytes, ?_⟩
  rw [writeHeader_length]
  intro hslots
  obtain ⟨h', hdec⟩ := hdecodes.mpr ⟨A, hslots⟩
  refine ⟨h', hdec, ?_⟩
  rw [hmirror h' hdec]
  exact Twins.sameGraph (relinked_mirrored W C) W.toLayout rfl

omit [Arith] in
/-- The price list with its third row deleted: two layers, a tombstone, a `-0.0`, a NaN and nulls. -/
theorem fromBytes_toBytes_sold :
    Ensures soldGraph fun h =>
      (h.isDeleted 2 = true ∧ h.nbrs 3 1 = [1] ∧ h.nbrs 0 0 = [3, 5, 2, 1]) ∧
        ∃ bytes, h.toBytes = .ok bytes ∧
          ∃ h', @Hnsw.fromBytes Arith.ieee bytes = .ok h' ∧ SameGraph h h' := by
  obtain ⟨h, hrun, W, C⟩ := soldGraph_configured
  have hfacts : Ensures soldGraph fun h =>
      (h.isDeleted 2 = true ∧ h.nbrs 3 1 = [1] ∧ h.nbrs 0 0 = [3, 5, 2, 1]) ∧
        Admissible h ∧ h.links.length ≤ 2 ^ 22 := by
    decide +kernel
  obtain ⟨hlists, hadmissible, hslots⟩ := hfacts.elim hrun
  obtain ⟨bytes, hbytes, hdec⟩ := @fromBytes_toBytes Arith.ieee h W C hadmissible
  exact ⟨h, hrun, hlists, bytes, hbytes, hdec (hslots.trans (Nat.le_add_left _ _))⟩

end Hnsw

end Brindle
