/-
# Brindle.Hnsw.Accepted — inserting into a graph read from arbitrary bytes.

The decoder checks that every link names a node and that no list is over its cap, but not that the
target of a link above layer 0 owns the layer it is linked at. `push_neighbor` computes its offsets
from the target's own run, so a node linked to at a layer it does not own has the new link written
into the slots, and counted in the count, of whatever lies there. When every node the insert chooses
owns its layer, the insert touches the lists it is meant to and no others (`insert_accepted`); the
graph `misfiled`, which the decoder accepts, shows what happens otherwise.
-/
import Brindle.Hnsw.Runs

namespace Brindle

open Outcome (Ensures ensures_ok ensures_pure)
open Run (After)

namespace Hnsw

variable [Arith]

/-- The nodes the insert links to at `layer`. -/
def LinkedAt (plan : List (Nat × List Nat)) (layer a : Nat) : Prop :=
  ∃ p ∈ plan, p.1 = layer ∧ a ∈ p.2

omit [Arith] in
instance (plan : List (Nat × List Nat)) (layer a : Nat) : Decidable (LinkedAt plan layer a) :=
  List.decidableBEx _ plan

/-- An insert that took `h` to `h'` stayed within the lists it links: besides the new node's, only
the list of a node it linked to, at the layer it linked it at, may differ, and no list is over its
cap. -/
def Contained (h h' : Hnsw) (plan : List (Nat × List Nat)) : Prop :=
  (∀ a l, a ≠ h.n → ¬ LinkedAt plan l a → h'.nbrs a l = h.nbrs a l) ∧ Capped h'

/-- Every node that the layer searches and the heuristic, run on the graph before any link is
written, choose to link to at a layer owns that layer. -/
def ChoosesOwners (h : Hnsw) (vector : List F32) (attrs : List AttrValue) (level : Nat) : Prop :=
  After (fun plan => ∀ p ∈ plan, ∀ x ∈ p.2, (h.stored vector attrs level).Owns x p.1)
    ((h.stored vector attrs level).linkPlan h.n level)

instance (h : Hnsw) (vector : List F32) (attrs : List AttrValue) (level : Nat) :
    Decidable (h.ChoosesOwners vector attrs level) :=
  inferInstanceAs (Decidable (After (fun plan : List (Nat × List Nat) =>
    ∀ p ∈ plan, ∀ x ∈ p.2, (h.stored vector attrs level).Owns x p.1) _))

omit [Arith] in
instance (h : Hnsw) (vector : List F32) : Decidable (h.Accepts vector) :=
  inferInstanceAs (Decidable (_ ∧ _))

/-! ## A graph the decoder accepts -/

omit [Arith] in
/-- Three nodes on a line. Node 0 alone owns layer 1 and links `target` there; node 2 has an empty
list and no node links to it. -/
def misfiled (target : Nat) : Hnsw where
  metric := .l2
  m := 2
  gamma := F32.one
  mCap := 2
  m0Cap := 4
  efConstruction := 64
  ml := ⟨0x3FF71547652B82FE⟩
  dim := 1
  seed := 1
  n := 3
  vectors := [F32.zero, F32.one, ⟨0x40000000⟩]
  layerBase := [0, 2, 3, 4]
  linkCounts := [1, 1, 1, 0]
  links := [1, 0, 0, 0, 0] ++ [target, 0, 0] ++ [0, 0, 0, 0, 0] ++ [0, 0, 0, 0, 0]
  attrs := [[], [], []]
  deleted := [false, false, false]
  entryPoint := some 0
  maxLayer := 1
  rng := 1

omit [Arith] in
/-- The bytes of `misfiled`. -/
def misfiledBytes (target : Nat) : List UInt8 :=
  (misfiled target).writeHeader ++ (List.range 3).flatMap (misfiled target).nodeBytes

/-- **Inserting into a decoded graph.** Whatever bytes the graph was read from, an insert of an
accepted vector whose layers fit a `u32`, and whose chosen neighbors own the layers they are linked
at, returns and stays within the lists it links. -/
theorem insert_accepted (bytes : List UInt8) (h : Hnsw) (hdec : Hnsw.fromBytes bytes = .ok h)
    (vector : List F32) (attrs : List AttrValue) (level : Nat) (ha : h.Accepts vector)
    (hfit : h.base h.n + (level + 1) < 2 ^ 32) (howners : h.ChoosesOwners vector attrs level) :
    ∃ plan, (h.stored vector attrs level).linkPlan h.n level = .ok plan ∧
      Ensures (h.insertDrawn vector attrs level) fun r =>
        r.2 = .ok h.n ∧ Contained h r.1 plan := by
  have S := fromBytes_sound hdec
  have howned : ∀ plan, (h.stored vector attrs level).linkPlan h.n level = .ok plan →
      ∀ p ∈ plan, ∀ x ∈ p.2, (h.stored vector attrs level).Owns x p.1 := by
    intro plan hplan
    unfold ChoosesOwners at howners
    rw [hplan] at howners
    exact howners
  obtain ⟨⟨h', r⟩, hrun, hr, plan, g, hplan, hok, W, hset⟩ :=
    insertDrawn_spec S ha attrs hfit howned
  dsimp only at hr hset
  subst hset
  refine ⟨plan, hplan, ⟨_, hrun, hr, ?_, ?_⟩⟩
  · intro a l hne hnot
    have hkept : (h.stored vector attrs level).nbrs a l = h.nbrs a l := S.stored_nbrs ha attrs a l
    rw [settleEntry_nbrs, ← hkept]
    refine W.relinked.frame a l ?_
    rintro ⟨selected, hmem, rfl | hsel⟩
    · exact hne rfl
    · exact hnot ⟨(l, selected), hmem, rfl, hsel⟩
  · intro a l
    rw [settleEntry_nbrs, settleEntry_maxDegree, W.relinked.maxDegree_eq]
    rcases W.cases a l with ⟨p, hp, rfl, -, heq⟩ | ⟨p, hp, rfl, -, hgain⟩ | heq
    · rw [heq]
      exact (hok.choice p hp).length_le
    · exact hgain.capped
    · rw [heq]
      exact S.stored_capped ha attrs a l

omit [Arith] in
/-- `misfiled 0` links node 0, which owns layer 1, at layer 1. -/
theorem insert_accepted_misfiled_zero :
    ∃ plan, @linkPlan Arith.ieee ((misfiled 0).stored [F32.one] [] 1) 3 1 = .ok plan ∧
      Ensures (@insertDrawn Arith.ieee (misfiled 0) [F32.one] [] 1) fun r =>
        r.2 = .ok 3 ∧ Contained (misfiled 0) r.1 plan :=
  @insert_accepted Arith.ieee (misfiledBytes 0) (misfiled 0) (by decide +kernel) [F32.one] [] 1
    (by decide +kernel) (by decide +kernel) (by decide +kernel)

omit [Arith] in
/-- `misfiled 1` links node 1, which does not own layer 1, at layer 1: the insert links its node to
nodes 0 and 1 and to no other, and the empty list of node 2 ends up naming it. -/
theorem misfiled_not_contained :
    @Hnsw.fromBytes Arith.ieee (misfiledBytes 1) = .ok (misfiled 1) ∧
      (misfiled 1).Accepts [F32.one] ∧
      ∃ plan, @linkPlan Arith.ieee ((misfiled 1).stored [F32.one] [] 1) 3 1 = .ok plan ∧
        Ensures (@insertDrawn Arith.ieee (misfiled 1) [F32.one] [] 1) fun r =>
          r.2 = .ok 3 ∧ (∀ l < 2, 2 ∉ r.1.nbrs 3 l) ∧ ¬ Contained (misfiled 1) r.1 plan := by
  have hlists : Ensures (@insertDrawn Arith.ieee (misfiled 1) [F32.one] [] 1) fun r =>
      r.2 = .ok 3 ∧ (∀ l < 2, 2 ∉ r.1.nbrs 3 l) ∧ r.1.nbrs 2 0 ≠ (misfiled 1).nbrs 2 0 := by
    decide +kernel
  refine ⟨by decide +kernel, by decide +kernel, [(1, [1, 0]), (0, [1, 0])], by decide +kernel, ?_⟩
  apply hlists.mono
  rintro r ⟨hr, hnew, hmoved⟩
  refine ⟨hr, hnew, fun hcontained => hmoved ?_⟩
  -- node 2 is neither the new node nor a node of the plan
  exact hcontained.1 2 0 (by decide) (by decide)

end Hnsw

end Brindle
