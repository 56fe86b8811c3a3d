/-
# Brindle.Hnsw.Atomic — an insert is refused, or it goes through.

An insert stores its node before it searches, so a search that failed halfway would leave a stored node
unlinked. On a well-formed graph none does: the only errors are the four made before the node is
stored, and they leave the graph as it was but for the generator, which has already been drawn from
when the node limit is checked.
-/
import Brindle.Hnsw.Runs

namespace Brindle

open Bytes (leBytes)
open Outcome (Ensures ensures_ok ensures_pure)

namespace Hnsw

/-! ## The generator in the encoding -/

/-- Where the encoding keeps the generator. -/
def rngOffset : Nat := 52

/-- The header before the generator. -/
def headerBefore (h : Hnsw) : List UInt8 :=
  leBytes 4 codecMagic ++ leBytes 2 codecVersion ++ [h.metric.code, 0] ++ leBytes 8 h.m
    ++ leBytes 4 h.gamma.bits.toNat ++ leBytes 8 h.efConstruction ++ leBytes 8 h.dim
    ++ leBytes 8 h.maxLayer ++ leBytes 8 h.seed.toNat

/-- The header after it. -/
def headerAfter (h : Hnsw) : List UInt8 :=
  leBytes 8 (h.entryPoint.getD noEntry) ++ leBytes 8 h.n

theorem writeHeader_split (h : Hnsw) :
    h.writeHeader = h.headerBefore ++ (leBytes 8 h.rng.toNat ++ h.headerAfter) := by
  unfold writeHeader headerBefore headerAfter
  simp only [List.append_assoc]

theorem headerBefore_length (h : Hnsw) : h.headerBefore.length = rngOffset := by
  simp only [headerBefore, List.length_append, Bytes.leBytes_length, List.length_cons,
    List.length_nil]
  rfl

/-- The two encodings have one length and agree outside the generator. -/
def SameButRng (bytes bytes' : List UInt8) : Prop :=
  bytes'.length = bytes.length ∧
    ∀ i, i < rngOffset ∨ rngOffset + 8 ≤ i → bytes'[i]? = bytes[i]?

/-- A middle part replaced by another of its length. -/
theorem getElem?_middle {before mid mid' after : List UInt8} {i : Nat}
    (hlen : mid'.length = mid.length) (hi : i < before.length ∨ before.length + mid.length ≤ i) :
    (before ++ (mid' ++ after))[i]? = (before ++ (mid ++ after))[i]? := by
  rcases hi with hi | hi
  · rw [List.getElem?_append_left hi, List.getElem?_append_left hi]
  · have hbefore : before.length ≤ i := by omega
    have hmid : mid.length ≤ i - before.length := by omega
    rw [List.getElem?_append_right hbefore, List.getElem?_append_right hbefore,
      List.getElem?_append_right hmid, List.getElem?_append_right (hlen.trans_le hmid), hlen]

/-- Moving the generator on changes its own bytes of the encoding only. -/
theorem Layout.toBytes_rng {h : Hnsw} (L : Layout h) (rng : UInt64) :
    ∃ bytes bytes', h.toBytes = .ok bytes ∧ ({ h with rng } : Hnsw).toBytes = .ok bytes' ∧
      SameButRng bytes bytes' := by
  have L' : Layout { h with rng } := { L with }
  refine ⟨_, _, L.toBytes_eq, L'.toBytes_eq, ?_⟩
  have hbefore : ({ h with rng } : Hnsw).headerBefore = h.headerBefore := rfl
  have hafter : ({ h with rng } : Hnsw).headerAfter = h.headerAfter := rfl
  have hnodes : ({ h with rng } : Hnsw).nodeBytes = h.nodeBytes := rfl
  have hlen := h.headerBefore_length
  rw [writeHeader_split, writeHeader_split, hbefore, hafter, hnodes]
  show SameButRng (h.headerBefore ++ (leBytes 8 h.rng.toNat ++ h.headerAfter) ++ _)
    (h.headerBefore ++ (leBytes 8 rng.toNat ++ h.headerAfter) ++ _)
  simp only [List.append_assoc]
  refine ⟨by simp only [List.length_append, Bytes.leBytes_length], fun i hi => ?_⟩
  apply getElem?_middle
  · rw [Bytes.leBytes_length, Bytes.leBytes_length]
  · rw [hlen, Bytes.leBytes_length]
    exact hi

/-! ## Refusals -/

/-- What an insert checks before it stores anything. -/
def Refused (h : Hnsw) (vector : List F32) : Prop :=
  vector = [] ∨ HnswParams.maxDim < vector.length ∨ (h.dim ≠ 0 ∧ vector.length ≠ h.dim) ∨
    maxNodes ≤ h.n

theorem not_refused_iff {h : Hnsw} {vector : List F32} :
    ¬ h.Refused vector ↔ h.Accepts vector ∧ h.n < maxNodes := by
  unfold Refused Accepts
  constructor
  · intro hnot
    rw [not_or, not_or, not_or] at hnot
    obtain ⟨hne, hlong, hdim, hroom⟩ := hnot
    refine ⟨⟨hne, Nat.le_of_not_lt hlong, ?_⟩, Nat.lt_of_not_le hroom⟩
    by_cases hzero : h.dim = 0
    · exact Or.inl hzero
    · by_contra hother
      exact hdim ⟨hzero, fun hsame => hother (Or.inr hsame.symm)⟩
  · rintro ⟨⟨hne, hlong, hdim⟩, hroom⟩ (hnil | hlong' | ⟨hzero, hother⟩ | hfull)
    · exact hne hnil
    · omega
    · rcases hdim with hdim | hdim
      · exact hzero hdim
      · exact hother hdim.symm
    · omega

variable [Arith]

/-- A full graph refuses the node and has moved its generator on. -/
theorem insertDrawn_full {h : Hnsw} {vector : List F32} (ha : h.Accepts vector)
    (hfull : maxNodes ≤ h.n) (attrs : List AttrValue) (level : Nat) :
    h.insertDrawn vector attrs level =
      .ok ({ h with dim := vector.length, rng := xorshift64 h.rng },
        .error (.nodeLimitReached maxNodes)) := by
  unfold insertDrawn
  rw [acceptVector_ok ha]
  dsimp only
  unfold storeAndLink pushNode
  rw [if_pos hfull]
  rfl

/-- **All or nothing.** On a well-formed graph with room for the layers the insert draws, the call
returns. It hands back an error exactly for the vectors and the graph it refuses before storing, and
then only the generator may have changed, in the graph and in its encoding. Otherwise it returns the
old node count, and linking the stored node returned. -/
theorem insertWithAttrs_atomic (h : Hnsw) (W : WellFormed h) (vector : List F32)
    (attrs : List AttrValue)
    (hfit : h.n < maxNodes → h.base h.n + (h.drawnLevel + 1) < 2 ^ 32) :
    Ensures (h.insertWithAttrs vector attrs) fun r =>
      (h.Refused vector → (∃ e, r.2 = .error e) ∧ (∃ rng, r.1 = { h with rng }) ∧
        ∃ bytes bytes', h.toBytes = .ok bytes ∧ r.1.toBytes = .ok bytes' ∧
          SameButRng bytes bytes') ∧
      (¬ h.Refused vector → r.2 = .ok h.n ∧
        Ensures ((h.stored vector attrs h.drawnLevel).linkNode h.n h.drawnLevel) (· = r.1)) := by
  rw [insertWithAttrs_eq]
  by_cases ha : h.Accepts vector
  · by_cases hroom : h.n < maxNodes
    · -- stored, so it must also be linked
      have hnot : ¬ h.Refused vector := not_refused_iff.mpr ⟨ha, hroom⟩
      have hinsert := W.insertDrawn attrs vector (hfit hroom)
      rw [insertDrawn_accepted W.toSound ha attrs (hfit hroom)] at hinsert ⊢
      obtain ⟨r, hrun, -⟩ := hinsert
      obtain ⟨g, hlink, hret⟩ := Outcome.bind_eq_ok.mp hrun
      cases hret
      rw [hlink]
      exact ensures_ok.mpr ⟨fun h => absurd h hnot, fun _ => ⟨rfl, g, rfl, rfl⟩⟩
    · have hfull : maxNodes ≤ h.n := Nat.le_of_not_lt hroom
      have hrefused : h.Refused vector := Or.inr (Or.inr (Or.inr hfull))
      have hpos : 0 < h.n := (show 0 < maxNodes by decide).trans_le hfull
      have hdim : h.dim = vector.length := by
        have := W.dim_pos hpos
        rcases ha.2.2 with hzero | hsame
        · omega
        · exact hsame
      rw [insertDrawn_full ha hfull, ← hdim]
      exact ensures_ok.mpr ⟨fun _ => ⟨⟨_, rfl⟩, ⟨_, rfl⟩, W.toBytes_rng _⟩,
        fun hnot => absurd hrefused hnot⟩
  · have hrefused : h.Refused vector := by
      by_contra hnot
      exact ha (not_refused_iff.mp hnot).1
    obtain ⟨e, he⟩ := acceptVector_error ha
    unfold insertDrawn
    rw [he]
    exact ensures_ok.mpr ⟨fun _ => ⟨⟨e, rfl⟩, ⟨h.rng, rfl⟩, W.toBytes_rng h.rng⟩,
      fun hnot => absurd hrefused hnot⟩

omit [Arith] in
/-- The price list with its third row deleted, a seventh row, and a vector of another dimension. -/
theorem insertWithAttrs_atomic_sold :
    Ensures soldGraph fun h =>
      (∃ r, @insertWithAttrs Arith.ieee h pricedQuery [.int 7, .null] = .ok r ∧
        r.1.nbrs 6 0 = [3, 1, 0, 5] ∧ r.2 = .ok 6 ∧
          Ensures (@linkNode Arith.ieee
            (h.stored pricedQuery [.int 7, .null] (@drawnLevel Arith.ieee h)) 6
            (@drawnLevel Arith.ieee h)) (· = r.1)) ∧
      ∃ r, @insertWithAttrs Arith.ieee h [F32.one] [.null] = .ok r ∧ (∃ e, r.2 = .error e) ∧
        (∃ rng, r.1 = { h with rng }) ∧ ∃ bytes bytes', h.toBytes = .ok bytes ∧
          r.1.toBytes = .ok bytes' ∧ SameButRng bytes bytes' := by
  let := Arith.ieee
  obtain ⟨h, hrun, W⟩ := soldGraph_wellFormed
  have hfacts : Ensures soldGraph fun h => (h.n = 6 ∧ h.dim = 2 ∧ h.n < maxNodes) ∧
      h.base h.n + (h.drawnLevel + 1) < 2 ^ 32 ∧
      Ensures (h.insertWithAttrs pricedQuery [.int 7, .null]) (·.1.nbrs 6 0 = [3, 1, 0, 5]) := by
    decide +kernel
  obtain ⟨⟨hn, hdim, hroom⟩, hfit, hlinked⟩ := hfacts.elim hrun
  obtain ⟨r, hins, -, hstored⟩ :=
    insertWithAttrs_atomic h W pricedQuery [.int 7, .null] fun _ => hfit
  obtain ⟨r', hins', hrefused, -⟩ := insertWithAttrs_atomic h W [F32.one] [.null] fun _ => hfit
  have haccepted : ¬ h.Refused pricedQuery :=
    not_refused_iff.mpr ⟨⟨by decide, by decide, .inr hdim⟩, hroom⟩
  obtain ⟨hid, hlink⟩ := hstored haccepted
  rw [hn] at hid hlink
  refine ⟨h, hrun, ⟨r, hins, hlinked.elim hins, hid, hlink⟩, r', hins', hrefused ?_⟩
  exact .inr (.inr (.inl ⟨by rw [hdim]; decide, by rw [hdim]; decide⟩))

end Hnsw

end Brindle
