/-
# Brindle.Hnsw.Congr — a search of one layer reads only that layer.

`SameAt layer h h'` lists everything a search of `layer` reads of a graph: the node count, the base
degree, the stored vectors with the metric, which nodes may be returned, and the neighbor lists at
that layer. Graphs that agree on it search alike. A relinked graph agrees with the original at every
layer it did not touch, which is what lets the layers of an insert be reasoned about one at a time;
two graphs that differ only in stale slots agree at every layer.
-/
import Brindle.Hnsw.SearchSpec
import Brindle.Hnsw.Insert

namespace Brindle

namespace Hnsw

variable [Arith]

/-- The two graphs read alike to a search of `layer`. -/
structure SameAt (layer : Nat) (h h' : Hnsw) : Prop where
  n_eq : h'.n = h.n
  m_eq : h'.m = h.m
  vector_eq : h'.vector = h.vector
  distance_eq : h'.distance = h.distance
  matches_eq : h'.nodeMatches = h.nodeMatches
  admissible_eq : h'.admissible = h.admissible
  neighbors_eq : ∀ id, h'.neighbors id layer = h.neighbors id layer

namespace SameAt

variable {layer : Nat} {h h' : Hnsw} (S : SameAt layer h h')
include S

/-- A visit reads the node's vector and whether it may be returned. -/
theorem visit_eq : h'.visit = h.visit := by
  funext query predicate beam id
  simp only [visit, S.vector_eq, S.distance_eq, S.admissible_eq]

/-- A detour reads the node's list at this layer, and visits. -/
theorem bridgeOut_eq (query : List F32) (predicate : Option Predicate) (beam : Beam) (id : Nat) :
    h'.bridgeOut query layer predicate beam id = h.bridgeOut query layer predicate beam id := by
  simp only [bridgeOut, S.neighbors_eq, S.visit_eq]

/-- Expanding a node reads its list, and through its neighbors at most theirs. -/
theorem expand_eq (query : List F32) (predicate : Option Predicate) (beam : Beam) (id : Nat) :
    h'.expand query layer predicate beam id = h.expand query layer predicate beam id := by
  simp only [expand, classifyNeighbors, crossBridges, S.neighbors_eq, S.visit_eq, S.matches_eq,
    S.m_eq, S.bridgeOut_eq]

theorem seedBeam_eq : h'.seedBeam = h.seedBeam := by
  funext query predicate seeds beam
  simp only [seedBeam, S.vector_eq, S.distance_eq, S.admissible_eq]

theorem rescue_eq (query : List F32) (predicate : Option Predicate) (deferred : List Cand)
    (beam : Beam) :
    h'.rescue query layer predicate deferred beam = h.rescue query layer predicate deferred beam := by
  simp only [rescue, S.bridgeOut_eq]

/-- By induction on the fuel, which the two walks spend alike. -/
theorem walkFrontier_eq (query : List F32) (predicate : Option Predicate) (fuel : Nat)
    (beam : Beam) :
    h'.walkFrontier query layer predicate fuel beam =
      h.walkFrontier query layer predicate fuel beam := by
  induction fuel generalizing beam with
  | zero => rfl
  | succ fuel ih =>
    rw [walkFrontier.eq_def, walkFrontier.eq_def h]
    simp only [S.expand_eq, ih]

/-- By induction on the rounds. -/
theorem searchRounds_eq (query : List F32) (predicate : Option Predicate) (rounds : Nat)
    (beam : Beam) :
    h'.searchRounds query layer predicate rounds beam =
      h.searchRounds query layer predicate rounds beam := by
  induction rounds generalizing beam with
  | zero => rfl
  | succ rounds ih =>
    rw [searchRounds.eq_def, searchRounds.eq_def h]
    simp only [S.walkFrontier_eq, S.rescue_eq, S.n_eq, ih]

/-- Graphs that read alike search alike. -/
theorem searchLayer_eq (query : List F32) (seeds : List Nat) (ef : Nat)
    (predicate : Option Predicate) (tr : Traversal) :
    h'.searchLayer query seeds ef layer predicate tr =
      h.searchLayer query seeds ef layer predicate tr := by
  simp only [searchLayer, S.seedBeam_eq, S.searchRounds_eq, S.n_eq]

theorem keepsDiversity_eq (cand : Cand) (selected : List Nat) :
    h'.keepsDiversity cand selected = h.keepsDiversity cand selected := by
  induction selected with
  | nil => rfl
  | cons r selected ih => simp only [keepsDiversity, S.vector_eq, S.distance_eq, ih]

/-- By induction on the candidates that are left. -/
theorem selectDiverse_eq (m : Nat) (cands : List Cand) (selected : List Nat) :
    h'.selectDiverse m cands selected = h.selectDiverse m cands selected := by
  induction cands generalizing selected with
  | nil => rfl
  | cons cand rest ih => simp only [selectDiverse, S.keepsDiversity_eq, ih]

theorem selectNeighborsHeuristic_eq :
    h'.selectNeighborsHeuristic = h.selectNeighborsHeuristic := by
  funext candidates m
  simp only [selectNeighborsHeuristic, S.selectDiverse_eq]

/-- Scores need the vectors only. -/
theorem scoreAgainst_eq : h'.scoreAgainst = h.scoreAgainst := by
  funext base ids
  simp only [scoreAgainst, S.vector_eq, S.distance_eq]

end SameAt

/-- A relinked graph reads as before at a layer that was not touched. -/
theorem Relinked.sameAt {touched : Nat → Nat → Prop} {h h' : Hnsw} {layer : Nat}
    (R : Relinked touched h h') (L : Layout h) (hfree : ∀ a, ¬ touched a layer) :
    SameAt layer h h' where
  n_eq := R.n_eq
  m_eq := R.field Hnsw.m fun _ _ => rfl
  vector_eq := R.field Hnsw.vector fun _ _ => rfl
  distance_eq := R.field (fun g => g.distance) fun _ _ => rfl
  matches_eq := R.field Hnsw.nodeMatches fun _ _ => rfl
  admissible_eq := R.field Hnsw.admissible fun _ _ => rfl
  neighbors_eq id := by
    rw [R.layout.neighbors_eq, L.neighbors_eq, R.frame id layer (hfree id)]

end Hnsw

end Brindle
