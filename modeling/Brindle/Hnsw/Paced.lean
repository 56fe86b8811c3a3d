/-
# Brindle.Hnsw.Paced — the layers a graph takes are a function of how many nodes it has.

The generator advances once for every node stored and at no other time, so a graph that grew from
`new` has drawn the first `n` levels of its seed, whatever was inserted, in whichever process, and
however often the graph went through its bytes in between. Whether the layers of a graph still fit
their `u32` is therefore a question about its size alone.
-/
import Brindle.Hnsw.Frame
import Brindle.Hnsw.Transparent

namespace Brindle

open Outcome (Ensures ensures_ok)

namespace Hnsw

variable [Arith]

/-- The generator of a graph of `n` nodes. -/
def drawnRng (params : HnswParams) (n : Nat) : UInt64 := xorshift64^[n] (Hnsw.new params).rng

/-- The level that node `n` draws. -/
def levelAt (params : HnswParams) (n : Nat) : Nat :=
  ({ Hnsw.new params with rng := drawnRng params n } : Hnsw).drawnLevel

/-- How many layers the first `n` nodes take. -/
def layersOf (params : HnswParams) : Nat → Nat
  | 0 => 0
  | n + 1 => layersOf params n + (levelAt params n + 1)

theorem layersOf_mono (params : HnswParams) : Monotone (layersOf params) := by
  apply monotone_nat_of_le_succ
  intro n
  exact Nat.le_add_right _ _

/-- The graph has drawn the levels of its nodes and no others. -/
structure Paced (params : HnswParams) (h : Hnsw) : Prop where
  ml_eq : h.ml = (Hnsw.new params).ml
  rng_eq : h.rng = drawnRng params h.n
  layers_eq : h.base h.n = layersOf params h.n

/-- A drawn level depends on the generator and the normalizer. -/
theorem drawnLevel_congr {h g : Hnsw} (hrng : h.rng = g.rng) (hml : h.ml = g.ml) :
    h.drawnLevel = g.drawnLevel := by
  simp only [drawnLevel, randomLevel, hrng, hml]

theorem Paced.new (params : HnswParams) : Paced params (Hnsw.new params) := ⟨rfl, rfl, rfl⟩

namespace Paced

variable {params : HnswParams} {h : Hnsw} (P : Paced params h)
include P

theorem drawnLevel_eq : h.drawnLevel = levelAt params h.n := drawnLevel_congr P.rng_eq P.ml_eq

theorem nextFits : h.NextFits ↔ layersOf params (h.n + 1) < 2 ^ 32 := by
  unfold NextFits
  rw [P.drawnLevel_eq, P.layers_eq]
  exact Iff.rfl

/-- A graph with the same nodes and the same generator is paced as well. -/
theorem congr {g : Hnsw} (hml : g.ml = h.ml) (hrng : g.rng = h.rng) (hn : g.n = h.n)
    (hbase : g.base g.n = h.base h.n) : Paced params g where
  ml_eq := hml.trans P.ml_eq
  rng_eq := by rw [hrng, hn, P.rng_eq]
  layers_eq := by rw [hbase, hn, P.layers_eq]

theorem twins {g : Hnsw} (T : Twins h g) : Paced params g := by
  have hml : g.ml = h.ml := T.field Hnsw.ml fun _ _ => rfl
  have hrng : g.rng = h.rng := T.field Hnsw.rng fun _ _ => rfl
  exact P.congr hml hrng T.n_eq (by rw [T.n_eq, T.base_eq])

theorem delete {g : Hnsw} {id : Nat} (hdel : h.delete id = .ok g) : Paced params g := by
  obtain ⟨-, rfl⟩ := delete_eq hdel
  exact P.congr rfl rfl rfl rfl

end Paced

/-- **An insert draws one level** if it stores the vector, as one node more under the next id, and
none if it refuses it. -/
theorem Paced.insertWithAttrs {params : HnswParams} {h : Hnsw} (P : Paced params h)
    (W : WellFormed h) (vector : List F32) (attrs : List AttrValue) (hnext : h.NextFits) :
    Ensures (h.insertWithAttrs vector attrs) fun r => Paced params r.1 ∧ match r.2 with
      | .ok id => id = h.n ∧ r.1.n = h.n + 1
      | .error _ => r.1 = h := by
  rw [insertWithAttrs_eq]
  by_cases ha : h.Accepts vector
  · have hstored := (after_insertDrawn h vector attrs h.drawnLevel).of_ensures
      (W.insertDrawn attrs vector hnext)
    refine hstored.mono ?_
    rintro ⟨g, r⟩ ⟨A, -, hg⟩
    obtain ⟨hid, hn, -, hbase⟩ := hg ha
    dsimp only at hid hn hbase ⊢
    subst hid
    obtain ⟨hrng, -⟩ := A.stored h.n rfl
    refine ⟨⟨A.ml_eq.trans P.ml_eq, ?_, ?_⟩, rfl, hn⟩
    · rw [hn, hrng, P.rng_eq]
      exact (Function.iterate_succ_apply' xorshift64 _ _).symm
    · rw [hbase, hn, P.layers_eq, P.drawnLevel_eq]
      rfl
  · obtain ⟨e, he⟩ := acceptVector_error ha
    unfold insertDrawn
    rw [he]
    exact ensures_ok.mpr ⟨P, rfl⟩

/-- What an insert leaves: one node more under the next id, or the graph as it was. -/
def Grown (params : HnswParams) (h : Hnsw) (r : Hnsw × Except HnswError Nat) : Prop :=
  Kept r.1 ∧ Paced params r.1 ∧ match r.2 with
    | .ok id => id = h.n ∧ r.1.n = h.n + 1
    | .error _ => r.1 = h

/-- **An insert keeps a graph paced**, as long as its layers are counted by a `u32`. -/
theorem Kept.insert_grown {params : HnswParams} {h : Hnsw} (K : Kept h) (P : Paced params h)
    (vector : List F32) {attrs : List AttrValue} (hrow : attrs.length < 2 ^ 64)
    (hfit : layersOf params (h.n + 1) < 2 ^ 32) :
    Ensures (h.insertWithAttrs vector attrs) (Grown params h) := by
  have hnext : h.NextFits := P.nextFits.mpr hfit
  exact (K.insertWithAttrs vector hrow hnext).and (P.insertWithAttrs K.1 vector attrs hnext)

end Hnsw

end Brindle
