/-
# Brindle.Hnsw.SearchSpec — what a layer search finds.

A beam search of one layer returns, whatever the distances are (NaN included), and everything it
returns is a distinct admissible node reachable from the entry points along that layer's lists, `ef`
of them at most. Unfiltered it is also complete in the one respect the rest of the development needs:
it comes back empty only when no live node is reachable at all, because a heap that holds nothing
reads as infinitely far and so never cuts the walk short.

Every loop of the search is a sequence of `visit`s, so one relation, `Visits`, says what a stretch of
the walk may do to the beam, and each loop is one instance of the invariant rule.
-/
import Brindle.Hnsw.Relink
import Brindle.Hnsw.Search
import Brindle.Lib.Reach
import Mathlib.Data.List.Perm.Subperm

namespace Brindle

open Outcome (Ensures ensures_ok ensures_pure ensures_foldlM ensures_foldlM_const)

namespace Hnsw

/-- The lists of one layer. -/
def adj (h : Hnsw) (layer : Nat) : Nat → List Nat := fun id => h.nbrs id layer

/-- Laid out, with every link naming a stored node. -/
structure InRange (h : Hnsw) : Prop extends Layout h where
  links_lt : ∀ id layer, ∀ x ∈ h.nbrs id layer, x < h.n

/-- Whether `id` may be returned. -/
def Admits (h : Hnsw) (predicate : Option Predicate) (id : Nat) : Prop :=
  h.isDeleted id = false ∧ h.nodeMatches id predicate = true

theorem isFiltered_of_ne {predicate : Predicate} (hp : predicate ≠ .all) :
    isFiltered (some predicate) = true := by
  cases predicate with
  | all => exact absurd rfl hp
  | and atoms => rfl

end Hnsw

/-! ## The beam -/

/-- What holds of the beam between any two steps of a search of `layer` from `seeds`. -/
structure BeamInv (h : Hnsw) (layer : Nat) (predicate : Option Predicate) (seeds : List Nat)
    (beam : Beam) : Prop where
  visited_nodup : beam.visited.Nodup
  visited_lt : ∀ v ∈ beam.visited, v < h.n
  visited_reach : ∀ v ∈ beam.visited, Reach (h.adj layer) seeds v
  frontier_visited : ∀ c ∈ beam.frontier, c.id ∈ beam.visited
  frontier_length : beam.frontier.length ≤ beam.visited.length
  deferred_visited : ∀ c ∈ beam.deferred, c.id ∈ beam.visited
  results_visited : ∀ c ∈ beam.results, c.id ∈ beam.visited
  results_admits : ∀ c ∈ beam.results, h.Admits predicate c.id
  results_nodup : (beam.results.map Cand.id).Nodup
  results_length : beam.results.length ≤ beam.ef

/-- What a stretch of visits does to the beam. -/
structure Grows (h : Hnsw) (predicate : Option Predicate) (beam beam' : Beam) : Prop where
  ef_eq : beam'.ef = beam.ef
  visited_sub : ∀ v ∈ beam.visited, v ∈ beam'.visited
  frontier_sub : ∀ c ∈ beam.frontier, c ∈ beam'.frontier
  /-- Each node queued is one first seen. -/
  budget : beam'.frontier.length + beam.visited.length ≤
    beam.frontier.length + beam'.visited.length
  /-- A heap once filled stays so; while it is empty, whatever is seen is queued. -/
  empty : 0 < beam.ef → beam'.results = [] → beam.results = [] ∧
    ∀ v ∈ beam'.visited, v ∉ beam.visited →
      (∃ c ∈ beam'.frontier, c.id = v) ∧ ¬ h.Admits predicate v

namespace Grows

variable {h : Hnsw} {predicate : Option Predicate} {b b' b'' : Beam}

theorem refl (h : Hnsw) (predicate : Option Predicate) (b : Beam) : Grows h predicate b b where
  ef_eq := rfl
  visited_sub _ hv := hv
  frontier_sub _ hc := hc
  budget := le_rfl
  empty _ hr := ⟨hr, fun _ hv hn => absurd hv hn⟩

theorem trans (g : Grows h predicate b b') (g' : Grows h predicate b' b'') :
    Grows h predicate b b'' where
  ef_eq := g'.ef_eq.trans g.ef_eq
  visited_sub v hv := g'.visited_sub v (g.visited_sub v hv)
  frontier_sub c hc := g'.frontier_sub c (g.frontier_sub c hc)
  budget := by
    have h1 := g.budget
    have h2 := g'.budget
    omega
  empty hef hr := by
    obtain ⟨hr', hnew'⟩ := g'.empty (by rw [g.ef_eq]; exact hef) hr
    obtain ⟨hr'', hnew⟩ := g.empty hef hr'
    refine ⟨hr'', fun v hv hn => ?_⟩
    by_cases hv' : v ∈ b'.visited
    · obtain ⟨⟨c, hc, hid⟩, hadm⟩ := hnew v hv' hn
      exact ⟨⟨c, g'.frontier_sub c hc, hid⟩, hadm⟩
    · exact hnew' v hv hv'

theorem visited_length (hb : b.visited.Nodup) (g : Grows h predicate b b') :
    b.visited.length ≤ b'.visited.length :=
  (List.Nodup.subperm hb g.visited_sub).length_le

end Grows

/-- A stretch of visits: the invariant holds at its end, and the beam grew on the way. -/
def Visits (h : Hnsw) (layer : Nat) (predicate : Option Predicate) (seeds : List Nat)
    (beam beam' : Beam) : Prop :=
  BeamInv h layer predicate seeds beam' ∧ Grows h predicate beam beam'

namespace Beam

theorem mem_push_frontier {b : Beam} {c d : Cand} {a : Bool} :
    d ∈ (b.push c a).frontier ↔ d = c ∨ d ∈ b.frontier :=
  List.mem_orderedInsert ..

theorem push_frontier_length (b : Beam) (c : Cand) (a : Bool) :
    (b.push c a).frontier.length = b.frontier.length + 1 :=
  List.orderedInsert_length ..

/-- One more node is seen, and none is forgotten. -/
theorem sees_snoc {b b' : Beam} {done : List Nat} {x : Nat} (hdone : ∀ y ∈ done, y ∈ b.visited)
    (hsub : ∀ v ∈ b.visited, v ∈ b'.visited) (hx : x ∈ b'.visited) :
    ∀ y ∈ done ++ [x], y ∈ b'.visited := by
  intro y hy
  rcases List.mem_append.mp hy with hy | hy
  · exact hsub y (hdone y hy)
  · rw [List.mem_singleton.mp hy]
    exact hx

/-- The heap after a push is a part of the heap before it, with the candidate if it is admissible. -/
theorem push_results_subperm (b : Beam) (c : Cand) (a : Bool) :
    (b.push c a).results.Subperm (if a then c :: b.results else b.results) := by
  have hperm : (if a then b.results.orderedInsert (· ≤ ·) c else b.results).Perm
      (if a then c :: b.results else b.results) := by
    cases a with
    | true => exact List.perm_orderedInsert ..
    | false => exact List.Perm.refl _
  simp only [push]
  generalize (if a then b.results.orderedInsert (· ≤ ·) c else b.results) = rs at hperm ⊢
  generalize (if a then c :: b.results else b.results) = qs at hperm ⊢
  split_ifs with hcut
  · exact (List.dropLast_sublist rs).subperm.trans hperm.subperm
  · exact hperm.subperm

theorem mem_push_results {b : Beam} {c d : Cand} {a : Bool} (hd : d ∈ (b.push c a).results) :
    (d = c ∧ a = true) ∨ d ∈ b.results := by
  have hd' := (push_results_subperm b c a).subset hd
  split_ifs at hd' with ha
  · exact (List.mem_cons.mp hd').imp (fun hdc => ⟨hdc, ha⟩) id
  · exact .inr hd'

theorem push_results_length (b : Beam) (c : Cand) (a : Bool) (hb : b.results.length ≤ b.ef) :
    (b.push c a).results.length ≤ b.ef := by
  cases a with
  | false => simpa [push] using hb
  | true =>
    have hlen : (b.results.orderedInsert (· ≤ ·) c).length = b.results.length + 1 :=
      List.orderedInsert_length ..
    simp only [push, if_true, Bool.and_true, decide_eq_true_eq]
    split_ifs with hcut
    · rw [List.length_dropLast]
      omega
    · omega

theorem push_refused (b : Beam) (c : Cand) : (b.push c false).results = b.results := by
  simp [push]

theorem push_room {b : Beam} {c : Cand} (hroom : b.results.length < b.ef) :
    (b.push c true).results = b.results.orderedInsert (· ≤ ·) c := by
  have hlen : (b.results.orderedInsert (· ≤ ·) c).length = b.results.length + 1 :=
    List.orderedInsert_length ..
  have hnot : ¬ b.ef < b.results.length + 1 := by omega
  simp [push, hlen, hnot]

/-- Only a refused candidate leaves the heap empty. -/
theorem push_results_empty {b : Beam} {c : Cand} {a : Bool} (hef : 0 < b.ef)
    (he : (b.push c a).results = []) : b.results = [] ∧ a = false := by
  cases a with
  | false => exact ⟨by simpa [push] using he, rfl⟩
  | true =>
    have hlen : (b.results.orderedInsert (· ≤ ·) c).length = b.results.length + 1 :=
      List.orderedInsert_length ..
    simp only [push, if_true, Bool.and_true, decide_eq_true_eq] at he
    split_ifs at he with hcut
    · have hzero := congrArg List.length he
      rw [List.length_dropLast, List.length_nil] at hzero
      omega
    · rw [he, List.length_nil] at hlen
      omega

end Beam

/-- Pushing a node not seen before. -/
theorem BeamInv.push {h : Hnsw} {layer : Nat} {predicate : Option Predicate} {seeds : List Nat}
    {b : Beam} {c : Cand} {a : Bool} (hb : BeamInv h layer predicate seeds b)
    (hnew : c.id ∉ b.visited) (hlt : c.id < h.n) (hreach : Reach (h.adj layer) seeds c.id)
    (ha : a = true ↔ h.Admits predicate c.id) (tr : Traversal) :
    Visits h layer predicate seeds b
      (({ b with visited := c.id :: b.visited, tr } : Beam).push c a) := by
  set b' : Beam := { b with visited := c.id :: b.visited, tr }
  have hsub := Beam.push_results_subperm b' c a
  have hmem : ∀ r ∈ (b'.push c a).results, (r = c ∧ a = true) ∨ r ∈ b.results :=
    fun _ hr => Beam.mem_push_results hr
  have hinv : BeamInv h layer predicate seeds (b'.push c a) :=
    { visited_nodup := List.nodup_cons.mpr ⟨hnew, hb.visited_nodup⟩
      visited_lt := List.forall_mem_cons.mpr ⟨hlt, hb.visited_lt⟩
      visited_reach := List.forall_mem_cons.mpr ⟨hreach, hb.visited_reach⟩
      frontier_visited := by
        intro d hd
        rcases Beam.mem_push_frontier.mp hd with rfl | hd
        · exact List.mem_cons_self
        · exact List.mem_cons_of_mem _ (hb.frontier_visited d hd)
      frontier_length := by
        rw [Beam.push_frontier_length]
        exact Nat.succ_le_succ hb.frontier_length
      deferred_visited := fun d hd => List.mem_cons_of_mem _ (hb.deferred_visited d hd)
      results_visited := by
        intro r hr
        rcases hmem r hr with ⟨rfl, -⟩ | hr
        · exact List.mem_cons_self
        · exact List.mem_cons_of_mem _ (hb.results_visited r hr)
      results_admits := by
        intro r hr
        rcases hmem r hr with ⟨rfl, htrue⟩ | hr
        · exact ha.mp htrue
        · exact hb.results_admits r hr
      results_nodup := by
        -- what is held has been seen, and the candidate is new
        obtain ⟨l, hperm, hsub'⟩ := hsub
        refine (hperm.map Cand.id).nodup_iff.mp ((hsub'.map Cand.id).nodup ?_)
        split_ifs with ha'
        · refine List.nodup_cons.mpr ⟨?_, hb.results_nodup⟩
          intro hin
          obtain ⟨r, hr, hid⟩ := List.mem_map.mp hin
          exact hnew (hid ▸ hb.results_visited r hr)
        · exact hb.results_nodup
      results_length := Beam.push_results_length b' c a hb.results_length }
  have hgrows : Grows h predicate b (b'.push c a) :=
    { ef_eq := rfl
      visited_sub := fun v hv => List.mem_cons_of_mem _ hv
      frontier_sub := fun d hd => Beam.mem_push_frontier.mpr (Or.inr hd)
      budget := by
        rw [Beam.push_frontier_length]
        show b.frontier.length + 1 + b.visited.length ≤ b.frontier.length + (b.visited.length + 1)
        omega
      empty := by
        intro hef he
        obtain ⟨hres, hfalse⟩ := Beam.push_results_empty (b := b') hef he
        refine ⟨hres, fun v hv hn => ?_⟩
        rcases List.mem_cons.mp hv with rfl | hv
        · refine ⟨⟨c, Beam.mem_push_frontier.mpr (Or.inl rfl), rfl⟩, fun hadm => ?_⟩
          rw [ha.mpr hadm] at hfalse
          cases hfalse
        · exact absurd hv hn }
  exact ⟨hinv, hgrows⟩

/-- Seeing a node without queueing it, which only a full heap does. -/
theorem BeamInv.skip {h : Hnsw} {layer : Nat} {predicate : Option Predicate} {seeds : List Nat}
    {b : Beam} {id : Nat} (hb : BeamInv h layer predicate seeds b) (hnew : id ∉ b.visited)
    (hlt : id < h.n) (hreach : Reach (h.adj layer) seeds id) (hfull : b.ef ≤ b.results.length)
    (tr : Traversal) :
    Visits h layer predicate seeds b ({ b with visited := id :: b.visited, tr } : Beam) := by
  refine ⟨{ hb with
    visited_nodup := List.nodup_cons.mpr ⟨hnew, hb.visited_nodup⟩
    visited_lt := ?_
    visited_reach := ?_
    frontier_visited := fun c hc => List.mem_cons_of_mem _ (hb.frontier_visited c hc)
    frontier_length := hb.frontier_length.trans (Nat.le_succ _)
    deferred_visited := fun c hc => List.mem_cons_of_mem _ (hb.deferred_visited c hc)
    results_visited := fun c hc => List.mem_cons_of_mem _ (hb.results_visited c hc) },
    ⟨rfl, fun v hv => List.mem_cons_of_mem _ hv, fun _ hc => hc, ?_, ?_⟩⟩
  · intro v hv
    rcases List.mem_cons.mp hv with rfl | hv
    · exact hlt
    · exact hb.visited_lt v hv
  · intro v hv
    rcases List.mem_cons.mp hv with rfl | hv
    · exact hreach
    · exact hb.visited_reach v hv
  · exact Nat.add_le_add_left (Nat.le_succ _) _
  · intro hef he
    rw [show b.results = [] from he, List.length_nil] at hfull
    omega

namespace Visits

variable {h : Hnsw} {layer : Nat} {predicate : Option Predicate} {seeds : List Nat}
  {b b' b'' : Beam}

theorem refl (hb : BeamInv h layer predicate seeds b) : Visits h layer predicate seeds b b :=
  ⟨hb, Grows.refl h predicate b⟩

theorem trans (v : Visits h layer predicate seeds b b') (v' : Visits h layer predicate seeds b' b'') :
    Visits h layer predicate seeds b b'' :=
  ⟨v'.1, v.2.trans v'.2⟩

/-- The counters are no part of the invariant. -/
theorem setTr (v : Visits h layer predicate seeds b b') (tr : Traversal) :
    Visits h layer predicate seeds b ({ b' with tr } : Beam) :=
  ⟨{ v.1 with }, { v.2 with }⟩

end Visits

namespace Hnsw

variable [Arith] {h : Hnsw} {layer : Nat} {predicate : Option Predicate} {seeds : List Nat}
  {query : List F32}

omit [Arith] in
theorem not_isFiltered_matches (h : Hnsw) (id : Nat) (hp : isFiltered predicate = false) :
    h.nodeMatches id predicate = true := by
  cases predicate with
  | none => rfl
  | some p =>
    cases p with
    | all => rfl
    | and atoms => cases hp

/-! ## The loops -/

section Loops

variable (H : InRange h) (hq : query.length = h.dim)
include H hq

theorem distance_vec {id : Nat} (hid : id < h.n) :
    h.distance query (h.vec id) = .ok (h.metric.value query (h.vec id)) :=
  distance_ok h (hq.trans (H.vec_length hid).symm)

omit [Arith] hq in
theorem nbrs_reach {id x : Nat} (hreach : Reach (h.adj layer) seeds id)
    (hx : x ∈ h.nbrs id layer) : x < h.n ∧ Reach (h.adj layer) seeds x :=
  ⟨H.links_lt id layer x hx, hreach.step hx⟩

theorem visit_spec {b : Beam} {id : Nat} (hb : BeamInv h layer predicate seeds b)
    (hid : id < h.n ∧ Reach (h.adj layer) seeds id) :
    Ensures (h.visit query predicate b id) fun r =>
      Visits h layer predicate seeds b r.2 ∧ id ∈ r.2.visited ∧
        (r.1 = true → b.visited.length < r.2.visited.length) := by
  obtain ⟨hlt, hreach⟩ := hid
  unfold visit
  by_cases hseen : id ∈ b.visited
  · rw [if_pos (List.contains_iff_mem.mpr hseen)]
    exact ensures_pure.mpr ⟨Visits.refl hb, hseen, fun hf => nomatch hf⟩
  · rw [if_neg (fun hc => hseen (List.contains_iff_mem.mp hc))]
    simp only [H.vector_eq hlt, Outcome.ok_bind, distance_vec H hq hlt,
      H.admissible_eq predicate hlt]
    split_ifs with hroom
    · have hadm : (!h.isDeleted id && h.nodeMatches id predicate) = true ↔
          h.Admits predicate id := by
        unfold Admits
        rw [Bool.and_eq_true, Bool.not_eq_true']
      refine ensures_pure.mpr ⟨hb.push (c := ⟨_, id⟩) hseen hlt hreach hadm _,
        List.mem_cons_self, fun _ => ?_⟩
      exact Nat.lt_succ_self _
    · refine ensures_pure.mpr ⟨hb.skip hseen hlt hreach ?_ _, List.mem_cons_self,
        fun hf => nomatch hf⟩
      by_contra hlt'
      exact hroom (by
        rw [Bool.or_eq_true, decide_eq_true_eq]
        exact Or.inl (not_le.mp hlt'))

theorem bridgeOut_spec {b : Beam} {id : Nat} (hb : BeamInv h layer predicate seeds b)
    (hid : Reach (h.adj layer) seeds id) :
    Ensures (h.bridgeOut query layer predicate b id) fun r =>
      Visits h layer predicate seeds b r.2 ∧
        (r.1 = true → b.visited.length < r.2.visited.length) := by
  unfold bridgeOut
  rw [H.neighbors_eq, Outcome.ok_bind]
  refine ensures_foldlM_const
    (fun r : Bool × Beam => Visits h layer predicate seeds b r.2 ∧
      (r.1 = true → b.visited.length < r.2.visited.length)) _ ?_ ⟨Visits.refl hb, nofun⟩
  rintro x hx ⟨queued, b'⟩ ⟨hv, hgrew⟩
  dsimp only
  split_ifs with hspent
  · exact ensures_pure.mpr ⟨hv, hgrew⟩
  · refine (visit_spec H hq hv.1 (nbrs_reach H hid hx)).bind ?_
    rintro ⟨joined, b''⟩ ⟨hv', -, hjoin⟩
    have hlen := Grows.visited_length hv.1.visited_nodup hv'.2
    have hlen₀ := Grows.visited_length hb.visited_nodup hv.2
    cases joined with
    | true =>
      refine ensures_pure.mpr ⟨(hv.trans hv').setTr _, fun _ => ?_⟩
      exact lt_of_le_of_lt hlen₀ (hjoin rfl)
    | false =>
      exact ensures_pure.mpr ⟨hv.trans hv', fun hq' => (hgrew hq').trans_le hlen⟩

theorem classifyNeighbors_spec {b : Beam} {ids : List Nat}
    (hb : BeamInv h layer predicate seeds b)
    (hids : ∀ x ∈ ids, x < h.n ∧ Reach (h.adj layer) seeds x) :
    Ensures (h.classifyNeighbors query predicate ids b) fun r =>
      Visits h layer predicate seeds b r.2.2 ∧
        ∀ x ∈ r.2.1, x < h.n ∧ Reach (h.adj layer) seeds x := by
  unfold classifyNeighbors
  refine ensures_foldlM_const
    (fun r : Nat × List Nat × Beam => Visits h layer predicate seeds b r.2.2 ∧
      ∀ x ∈ r.2.1, x < h.n ∧ Reach (h.adj layer) seeds x) _ ?_ ⟨Visits.refl hb, nofun⟩
  rintro x hx ⟨matching, bridges, b'⟩ ⟨hv, hbridges⟩
  dsimp only
  split_ifs with hmatch hroom
  · refine (visit_spec H hq hv.1 (hids x hx)).bind ?_
    rintro ⟨joined, b''⟩ ⟨hv', -, -⟩
    exact ensures_pure.mpr ⟨hv.trans hv', hbridges⟩
  · refine ensures_pure.mpr ⟨hv, fun y hy => ?_⟩
    rcases List.mem_append.mp hy with hy | hy
    · exact hbridges y hy
    · rw [List.mem_singleton.mp hy]
      exact hids x hx
  · exact ensures_pure.mpr ⟨hv, hbridges⟩

theorem crossBridges_spec {b : Beam} {bridges : List Nat} {matching : Nat}
    (hb : BeamInv h layer predicate seeds b)
    (hbridges : ∀ x ∈ bridges, x < h.n ∧ Reach (h.adj layer) seeds x) :
    Ensures (h.crossBridges query layer predicate bridges matching b) fun r =>
      Visits h layer predicate seeds b r.2 := by
  unfold crossBridges
  refine ensures_foldlM_const
    (fun r : Nat × Beam => Visits h layer predicate seeds b r.2) _ ?_ (Visits.refl hb)
  rintro x hx ⟨matching, b'⟩ hv
  dsimp only
  split_ifs with hdone
  · exact ensures_pure.mpr hv
  · rw [H.neighbors_eq, Outcome.ok_bind]
    refine ensures_foldlM_const
      (fun r : Nat × Beam => Visits h layer predicate seeds b r.2) _ ?_ hv
    rintro y hy ⟨matching, b''⟩ hv'
    dsimp only
    split_ifs with hdone' hmatch
    · exact ensures_pure.mpr hv'
    · refine (visit_spec H hq hv'.1 (nbrs_reach H (hbridges x hx).2 hy)).bind ?_
      rintro ⟨joined, b₃⟩ ⟨hv'', -, -⟩
      exact ensures_pure.mpr (hv'.trans hv'')
    · exact ensures_pure.mpr hv'

theorem expand_spec {b : Beam} {id : Nat} (hb : BeamInv h layer predicate seeds b)
    (hid : Reach (h.adj layer) seeds id) :
    Ensures (h.expand query layer predicate b id) fun r =>
      Visits h layer predicate seeds b r.2 ∧
        (isFiltered predicate = false → ∀ x ∈ h.nbrs id layer, x ∈ r.2.visited) := by
  have hids : ∀ x ∈ h.nbrs id layer, x < h.n ∧ Reach (h.adj layer) seeds x :=
    fun x hx => nbrs_reach H hid hx
  unfold expand
  rw [H.neighbors_eq, Outcome.ok_bind]
  cases hp : isFiltered predicate with
  | false =>
    -- the plain walk sees every neighbor, which is what completeness rests on
    simp only [Bool.not_false, if_true]
    refine Ensures.bind (P := fun b' => Visits h layer predicate seeds b b' ∧
      ∀ x ∈ h.nbrs id layer, x ∈ b'.visited) ?_ ?_
    · refine ensures_foldlM (fun done b' => Visits h layer predicate seeds b b' ∧
        ∀ x ∈ done, x ∈ b'.visited) _ ?_ ⟨Visits.refl hb, nofun⟩
      rintro done x rest b' hsplit ⟨hv, hdone⟩
      refine (visit_spec H hq hv.1 (hids x (by simp [hsplit]))).bind ?_
      rintro ⟨joined, b''⟩ ⟨hv', hx, -⟩
      refine ensures_pure.mpr ⟨hv.trans hv', fun y hy => ?_⟩
      rcases List.mem_append.mp hy with hy | hy
      · exact hv'.2.visited_sub y (hdone y hy)
      · rw [List.mem_singleton.mp hy]
        exact hx
    · rintro b' ⟨hv, hseen⟩
      exact ensures_pure.mpr ⟨hv, fun _ => hseen⟩
  | true =>
    simp only [Bool.not_true, Bool.false_eq_true, if_false]
    refine (classifyNeighbors_spec H hq hb hids).bind ?_
    rintro ⟨matching, bridges, b₁⟩ ⟨hv₁, hbridges⟩
    refine (crossBridges_spec H hq hv₁.1 hbridges).bind ?_
    rintro ⟨matching, b₂⟩ hv₂
    dsimp only
    split_ifs with hnone
    · refine (bridgeOut_spec H hq hv₂.1 hid).bind ?_
      rintro ⟨queued, b₃⟩ ⟨hv₃, -⟩
      exact ensures_pure.mpr ⟨(hv₁.trans hv₂).trans hv₃, nofun⟩
    · exact ensures_pure.mpr ⟨hv₁.trans hv₂, nofun⟩

theorem rescue_spec {b : Beam} {deferred : List Cand} (hb : BeamInv h layer predicate seeds b)
    (hdef : ∀ c ∈ deferred, Reach (h.adj layer) seeds c.id) :
    Ensures (h.rescue query layer predicate deferred b) fun r =>
      Visits h layer predicate seeds b r.2 ∧
        (r.1 = true → b.visited.length < r.2.visited.length) := by
  unfold rescue
  refine ensures_foldlM_const
    (fun r : Bool × Beam => Visits h layer predicate seeds b r.2 ∧
      (r.1 = true → b.visited.length < r.2.visited.length)) _ ?_ ⟨Visits.refl hb, nofun⟩
  rintro c hc ⟨progressed, b'⟩ ⟨hv, hgrew⟩
  dsimp only
  split_ifs with hspent
  · exact ensures_pure.mpr ⟨hv, hgrew⟩
  · refine (bridgeOut_spec H hq hv.1 (hdef c hc)).bind ?_
    rintro ⟨queued, b''⟩ ⟨hv', hqueued⟩
    have hlen := Grows.visited_length hv.1.visited_nodup hv'.2
    have hlen₀ := Grows.visited_length hb.visited_nodup hv.2
    refine ensures_pure.mpr ⟨hv.trans hv', fun hp => ?_⟩
    rcases Bool.or_eq_true_iff.mp hp with hp | hp
    · exact (hgrew hp).trans_le hlen
    · exact hlen₀.trans_lt (hqueued hp)

theorem seedBeam_spec {b : Beam} (hb : BeamInv h layer predicate seeds b)
    (hseeds : ∀ x ∈ seeds, x < h.n) :
    Ensures (h.seedBeam query predicate seeds b) fun b' =>
      Visits h layer predicate seeds b b' ∧ ∀ x ∈ seeds, x ∈ b'.visited := by
  unfold seedBeam
  refine ensures_foldlM (fun done b' => Visits h layer predicate seeds b b' ∧
    ∀ x ∈ done, x ∈ b'.visited) _ ?_ ⟨Visits.refl hb, nofun⟩
  rintro done x rest b' hsplit ⟨hv, hdone⟩
  have hx : x ∈ seeds := by simp [hsplit]
  by_cases hseen : x ∈ b'.visited
  · rw [if_pos (List.contains_iff_mem.mpr hseen)]
    exact ensures_pure.mpr ⟨hv, Beam.sees_snoc hdone (fun _ h => h) hseen⟩
  · rw [if_neg (fun hc => hseen (List.contains_iff_mem.mp hc))]
    have hlt := hseeds x hx
    simp only [H.vector_eq hlt, Outcome.ok_bind, distance_vec H hq hlt,
      H.admissible_eq predicate hlt]
    have hadm : (!h.isDeleted x && h.nodeMatches x predicate) = true ↔ h.Admits predicate x := by
      unfold Admits
      rw [Bool.and_eq_true, Bool.not_eq_true']
    have hpush := hv.1.push (c := ⟨h.metric.value query (h.vec x), x⟩) hseen hlt
      (Reach.of_seed hx) hadm b'.tr.countDistance
    exact ensures_pure.mpr ⟨hv.trans hpush, Beam.sees_snoc hdone hpush.2.visited_sub List.mem_cons_self⟩

end Loops

end Hnsw

/-! ## Completeness of a walk that found nothing -/

/-- While the heap is empty, whatever has been seen may not be returned, and is either still queued
or has had all its neighbors seen. -/
def Covered (h : Hnsw) (layer : Nat) (predicate : Option Predicate) (b : Beam) : Prop :=
  b.results = [] → ∀ v ∈ b.visited, ¬ h.Admits predicate v ∧
    ((∃ c ∈ b.frontier, c.id = v) ∨ ∀ x ∈ h.nbrs v layer, x ∈ b.visited)

/-- Expanding the nearest candidate: it leaves the frontier once all its neighbors were seen. -/
theorem Covered.expand {h : Hnsw} {layer : Nat} {predicate : Option Predicate} {b b' : Beam}
    {c : Cand} {rest : List Cand} (hc : Covered h layer predicate b) (hf : b.frontier = c :: rest)
    (tr : Traversal) (hef : 0 < b.ef)
    (hg : Grows h predicate ({ b with frontier := rest, tr } : Beam) b')
    (hnbrs : ∀ x ∈ h.nbrs c.id layer, x ∈ b'.visited) : Covered h layer predicate b' := by
  intro he v hv
  obtain ⟨he', hnew⟩ := hg.empty hef he
  by_cases hold : v ∈ b.visited
  · obtain ⟨hadm, hcase⟩ := hc he' v hold
    refine ⟨hadm, ?_⟩
    rcases hcase with ⟨d, hd, rfl⟩ | hseen
    · rw [hf] at hd
      rcases List.mem_cons.mp hd with rfl | hd
      · exact Or.inr hnbrs
      · exact Or.inl ⟨d, hg.frontier_sub d hd, rfl⟩
    · exact Or.inr fun x hx => hg.visited_sub x (hseen x hx)
  · obtain ⟨hq, hadm⟩ := hnew v hv hold
    exact ⟨hadm, Or.inl hq⟩

theorem Covered.visits {h : Hnsw} {layer : Nat} {predicate : Option Predicate} {b b' : Beam}
    (hc : Covered h layer predicate b) (hef : 0 < b.ef) (hg : Grows h predicate b b') :
    Covered h layer predicate b' := by
  intro he v hv
  obtain ⟨he', hnew⟩ := hg.empty hef he
  by_cases hold : v ∈ b.visited
  · obtain ⟨hadm, hcase⟩ := hc he' v hold
    refine ⟨hadm, ?_⟩
    rcases hcase with ⟨d, hd, hid⟩ | hseen
    · exact Or.inl ⟨d, hg.frontier_sub d hd, hid⟩
    · exact Or.inr fun x hx => hg.visited_sub x (hseen x hx)
  · obtain ⟨hq, hadm⟩ := hnew v hv hold
    exact ⟨hadm, Or.inl hq⟩

/-- What a whole walk does to the beam. -/
structure Walked (h : Hnsw) (layer : Nat) (predicate : Option Predicate) (seeds : List Nat)
    (b b' : Beam) : Prop where
  inv : BeamInv h layer predicate seeds b'
  ef_eq : b'.ef = b.ef
  visited_sub : ∀ v ∈ b.visited, v ∈ b'.visited
  /-- Unfiltered, an empty answer means an exhausted frontier. -/
  exhausted : Hnsw.isFiltered predicate = false → 0 < b.ef → Covered h layer predicate b →
    Covered h layer predicate b' ∧ (b'.results = [] → b'.frontier = [])

namespace BeamInv

variable {h : Hnsw} {layer : Nat} {predicate : Option Predicate} {seeds : List Nat} {b : Beam}

theorem new (h : Hnsw) (layer : Nat) (predicate : Option Predicate) (seeds : List Nat) (ef : Nat)
    (tr : Traversal) : BeamInv h layer predicate seeds (Beam.new ef tr) where
  visited_nodup := List.nodup_nil
  visited_lt := nofun
  visited_reach := nofun
  frontier_visited := nofun
  frontier_length := le_rfl
  deferred_visited := nofun
  results_visited := nofun
  results_admits := nofun
  results_nodup := List.nodup_nil
  results_length := Nat.zero_le _

theorem visited_length_le (hb : BeamInv h layer predicate seeds b) : b.visited.length ≤ h.n := by
  have hsub : b.visited ⊆ List.range h.n := fun v hv => List.mem_range.mpr (hb.visited_lt v hv)
  simpa using (List.Nodup.subperm hb.visited_nodup hsub).length_le

theorem pop (hb : BeamInv h layer predicate seeds b) {c : Cand} {rest : List Cand}
    (hf : b.frontier = c :: rest) (tr : Traversal) :
    BeamInv h layer predicate seeds ({ b with frontier := rest, tr } : Beam) :=
  { hb with
    frontier_visited := fun d hd => hb.frontier_visited d (by rw [hf]; exact .tail _ hd)
    frontier_length := by
      have hlen := hb.frontier_length
      rw [hf, List.length_cons] at hlen
      exact (Nat.le_succ _).trans hlen }

end BeamInv

namespace Hnsw

variable [Arith] {h : Hnsw} {layer : Nat} {predicate : Option Predicate} {seeds : List Nat}
  {query : List F32}

section Walks

variable (H : InRange h) (hq : query.length = h.dim)
include H hq

/-- One walk of the frontier pops each queued candidate once, and each node is queued once. -/
theorem walkFrontier_spec (fuel : Nat) {b : Beam} (hb : BeamInv h layer predicate seeds b)
    (hfuel : h.n + b.frontier.length < fuel + b.visited.length) :
    Ensures (h.walkFrontier query layer predicate fuel b) (Walked h layer predicate seeds b) := by
  induction fuel generalizing b with
  | zero =>
    have hle := hb.visited_length_le
    omega
  | succ fuel ih =>
    rw [walkFrontier.eq_def]
    dsimp only
    split
    · next hf =>
      exact ensures_pure.mpr ⟨hb, rfl, fun _ h => h, fun _ _ hc => ⟨hc, fun _ => hf⟩⟩
    · next c rest hf =>
      have hpop := fun tr => hb.pop hf tr
      split_ifs with hcut hspent
      · -- an empty heap reads as infinitely far, so this cut is only taken with results in hand
        refine ensures_pure.mpr ⟨hpop _, rfl, fun _ h => h, fun _ _ _ => ?_⟩
        have hfull : b.results ≠ [] := by
          intro he
          rw [Bool.and_eq_true] at hcut
          have hfar := hcut.1
          simp only [Beam.farthest, he, List.getLast?_nil, F32.gt, F32.not_infinity_lt] at hfar
          cases hfar
        exact ⟨fun he => absurd he hfull, fun he => absurd he hfull⟩
      · refine ensures_pure.mpr ⟨hpop _, rfl, fun _ h => h, fun hp => ?_⟩
        rw [hp] at hspent
        cases hspent
      · have hc := hb.frontier_visited c (by rw [hf]; exact List.mem_cons_self)
        refine (expand_spec H hq (hpop _) (hb.visited_reach c.id hc)).bind ?_
        rintro ⟨bridged, b₂⟩ ⟨hv, hnbrs⟩
        dsimp only at hv hnbrs ⊢
        generalize hb₃ : (if isFiltered predicate && !bridged then
          { b₂ with deferred := b₂.deferred ++ [c] } else b₂) = b₃
        have hsame : BeamInv h layer predicate seeds b₃ ∧ b₃.ef = b.ef ∧
            b₃.visited = b₂.visited ∧ b₃.frontier = b₂.frontier ∧ b₃.results = b₂.results := by
          split_ifs at hb₃ <;> subst hb₃
          · refine ⟨{ hv.1 with deferred_visited := fun d hd => ?_ }, hv.2.ef_eq, rfl, rfl, rfl⟩
            rcases List.mem_append.mp hd with hd | hd
            · exact hv.1.deferred_visited d hd
            · rw [List.mem_singleton.mp hd]
              exact hv.2.visited_sub c.id hc
          · exact ⟨hv.1, hv.2.ef_eq, rfl, rfl, rfl⟩
        obtain ⟨hinv₃, hef₃, hvis₃, hfront₃, hres₃⟩ := hsame
        -- one candidate left the frontier, and each that joined it is a node first seen
        have hfuel' : h.n + b₃.frontier.length < fuel + b₃.visited.length := by
          have hbudget := hv.2.budget
          rw [hf, List.length_cons] at hfuel
          rw [hvis₃, hfront₃]
          dsimp only at hbudget
          omega
        refine (ih hinv₃ hfuel').mono fun b' hw => ?_
        refine ⟨hw.inv, hw.ef_eq.trans hef₃, fun v hv' => ?_, fun hp hef hcov => ?_⟩
        · exact hw.visited_sub v (hvis₃ ▸ hv.2.visited_sub v hv')
        · refine hw.exhausted hp (hef₃ ▸ hef) ?_
          have hcov₂ := hcov.expand hf _ hef hv.2 (hnbrs hp)
          intro he v hv'
          rw [hvis₃] at hv' ⊢
          rw [hfront₃]
          exact hcov₂ (hres₃ ▸ he) v hv'

/-- Each rescue round that goes on has seen a new node. -/
theorem searchRounds_spec (rounds : Nat) {b : Beam} (hb : BeamInv h layer predicate seeds b)
    (hrounds : h.n < rounds + b.visited.length) :
    Ensures (h.searchRounds query layer predicate rounds b)
      (Walked h layer predicate seeds b) := by
  induction rounds generalizing b with
  | zero =>
    have hle := hb.visited_length_le
    omega
  | succ rounds ih =>
    unfold searchRounds
    have hfuel : h.n + b.frontier.length < h.n + 1 + b.visited.length := by
      have hle := hb.frontier_length
      omega
    refine (walkFrontier_spec H hq (h.n + 1) hb hfuel).bind fun b₁ hw => ?_
    have hlen : b.visited.length ≤ b₁.visited.length :=
      (List.Nodup.subperm hb.visited_nodup hw.visited_sub).length_le
    dsimp only
    split_ifs with hstop hnone
    · exact ensures_pure.mpr hw
    · -- only a filtered search gets past the first test
      refine ensures_pure.mpr ⟨{ hw.inv with deferred_visited := nofun }, hw.ef_eq,
        hw.visited_sub, fun hp => ?_⟩
      rw [hp] at hstop
      simp at hstop
    · have hfiltered : isFiltered predicate = true := by
        by_contra hp
        rw [Bool.not_eq_true] at hp
        rw [hp] at hstop
        simp at hstop
      have hcleared : BeamInv h layer predicate seeds ({ b₁ with deferred := [] } : Beam) :=
        { hw.inv with deferred_visited := nofun }
      refine (rescue_spec H hq hcleared fun c hc => ?_).bind ?_
      · have hc' : c ∈ b₁.deferred := (List.mem_insertionSort (· ≤ ·)).mp hc
        exact hw.inv.visited_reach c.id (hw.inv.deferred_visited c hc')
      · rintro ⟨progressed, b₂⟩ ⟨hv, hgrew⟩
        have hsub : ∀ v ∈ b.visited, v ∈ b₂.visited :=
          fun v hv' => hv.2.visited_sub v (hw.visited_sub v hv')
        cases progressed with
        | false =>
          refine ensures_pure.mpr ⟨hv.1, hv.2.ef_eq.trans hw.ef_eq, hsub, fun hp => ?_⟩
          rw [hfiltered] at hp
          cases hp
        | true =>
          have hnew : b₁.visited.length < b₂.visited.length := hgrew rfl
          have hrounds' : h.n < rounds + b₂.visited.length := by omega
          refine (ih hv.1 hrounds').mono fun b' hw' => ?_
          refine ⟨hw'.inv, hw'.ef_eq.trans (hv.2.ef_eq.trans hw.ef_eq),
            fun v hv' => hw'.visited_sub v (hsub v hv'), fun hp => ?_⟩
          rw [hfiltered] at hp
          cases hp

end Walks

end Hnsw

/-- What a layer search returns. -/
structure Found (h : Hnsw) (layer : Nat) (predicate : Option Predicate) (seeds : List Nat)
    (ef : Nat) (w : List Cand) : Prop where
  reach : ∀ c ∈ w, Reach (h.adj layer) seeds c.id
  lt : ∀ c ∈ w, c.id < h.n
  admits : ∀ c ∈ w, h.Admits predicate c.id
  nodup : (w.map Cand.id).Nodup
  length_le : w.length ≤ ef
  complete : Hnsw.isFiltered predicate = false → 0 < ef → w = [] →
    ∀ x, Reach (h.adj layer) seeds x → h.isDeleted x = true

namespace Hnsw

variable [Arith] {h : Hnsw} {predicate : Option Predicate} {seeds : List Nat} {query : List F32}

/-- **The layer search.** It returns, and returns what `Found` says. -/
theorem searchLayer_spec (H : InRange h) (hq : query.length = h.dim)
    (hseeds : ∀ x ∈ seeds, x < h.n) (ef layer : Nat) (tr : Traversal) :
    Ensures (h.searchLayer query seeds ef layer predicate tr) fun r =>
      Found h layer predicate seeds ef r.1 := by
  unfold searchLayer
  have hnew := BeamInv.new h layer predicate seeds ef tr
  refine (seedBeam_spec H hq hnew hseeds).bind ?_
  rintro b₁ ⟨hv, hseen⟩
  refine (searchRounds_spec H hq (h.n + 1) hv.1 (by omega)).bind fun b₂ hw => ?_
  have hef : b₂.ef = ef := hw.ef_eq.trans hv.2.ef_eq
  refine ensures_pure.mpr
    { reach := fun c hc => hw.inv.visited_reach c.id (hw.inv.results_visited c hc)
      lt := fun c hc => hw.inv.visited_lt c.id (hw.inv.results_visited c hc)
      admits := hw.inv.results_admits
      nodup := hw.inv.results_nodup
      length_le := hef ▸ hw.inv.results_length
      complete := fun hp hpos he x hx => ?_ }
  have hcov₀ : Covered h layer predicate (Beam.new ef tr) := fun _ => nofun
  have hcov₁ := hcov₀.visits hpos hv.2
  obtain ⟨hcov₂, hdone⟩ := hw.exhausted hp (by rw [hv.2.ef_eq]; exact hpos) hcov₁
  -- nothing found: what was seen holds the seeds and is closed under the lists
  have hvisited : x ∈ b₂.visited := by
    refine Reach.of_closed (P := fun y => y ∈ b₂.visited)
      (fun s hs => hw.visited_sub s (hseen s hs)) (fun a _ ha y hy => ?_) hx
    rcases (hcov₂ he a ha).2 with ⟨c, hc, -⟩ | hnbrs
    · rw [hdone he] at hc
      cases hc
    · exact hnbrs y hy
  have hadm := (hcov₂ he x hvisited).1
  unfold Admits at hadm
  rw [not_isFiltered_matches h x hp] at hadm
  simpa using hadm

/-! ## The search of the whole graph -/

omit [Arith] in
/-- A descent goes on from the nearest node it found, or from where it was. -/
theorem forall_nearest {P : Nat → Prop} {w : List Cand} {epIds : List Nat} (hw : ∀ c ∈ w, P c.id)
    (heps : ∀ x ∈ epIds, P x) : ∀ x ∈ (match w.head? with
      | some nearest => [nearest.id]
      | none => epIds), P x := by
  intro x hx
  cases hhead : w.head? with
  | none =>
    simp only [hhead] at hx
    exact heps x hx
  | some nearest =>
    simp only [hhead, List.mem_singleton] at hx
    exact hx ▸ hw nearest (List.mem_of_mem_head? hhead)

theorem descend_spec (H : InRange h) (hq : query.length = h.dim) (layers : List Nat)
    {epIds : List Nat} {tr : Traversal} (heps : ∀ x ∈ epIds, x < h.n) :
    Ensures (h.descend query predicate layers epIds [] tr) fun r =>
      (∀ x ∈ r.1, x < h.n) ∧ ∀ x ∈ r.2.1, x < h.n := by
  unfold descend
  refine ensures_foldlM_const (fun r : List Nat × List Nat × Traversal =>
    (∀ x ∈ r.1, x < h.n) ∧ ∀ x ∈ r.2.1, x < h.n) _ ?_ ⟨heps, nofun⟩
  rintro lc - ⟨eps, seeds, tr⟩ ⟨heps, hseeds⟩
  refine (searchLayer_spec H hq heps 1 lc tr).bind ?_
  rintro ⟨w, tr'⟩ hw
  have heps' := forall_nearest hw.lt heps
  dsimp only
  split_ifs with hp
  · have hprobe := fun x (hx : x ∈ _ ++ seeds) => (List.mem_append.mp hx).elim (heps' x) (hseeds x)
    refine (searchLayer_spec H hq hprobe 1 lc tr').bind ?_
    rintro ⟨found, tr''⟩ hfound
    refine ensures_pure.mpr ⟨heps', fun x hx => ?_⟩
    obtain ⟨c, hc, rfl⟩ := List.mem_map.mp hx
    exact hfound.lt c hc
  · exact ensures_pure.mpr ⟨heps', hseeds⟩

/-- A search of a graph with links and entry point in range returns, or reports the dimension; what
it returns is at most `k` distinct admissible nodes. -/
theorem searchInner_spec (H : InRange h) (hentry : ∀ e, h.entryPoint = some e → e < h.n)
    (hq : query.length = h.dim) (k efSearch : Nat) :
    Ensures (h.searchInner query k efSearch predicate) fun r => r.1.length ≤ k ∧
      (r.1.map Prod.snd).Nodup ∧ ∀ x ∈ r.1.map Prod.snd, x < h.n ∧ h.Admits predicate x := by
  unfold searchInner
  cases he : h.entryPoint with
  | none => exact ensures_pure.mpr ⟨Nat.zero_le _, List.nodup_nil, nofun⟩
  | some entry =>
    dsimp only
    by_cases hk : k = 0
    · rw [if_pos hk]
      exact ensures_pure.mpr ⟨Nat.zero_le _, List.nodup_nil, nofun⟩
    · rw [if_neg hk, if_neg (not_not.mpr hq)]
      have hentry' : ∀ x ∈ [entry], x < h.n := fun x hx =>
        List.mem_singleton.mp hx ▸ hentry entry he
      refine (descend_spec H hq (upperLayers h.maxLayer) hentry').bind ?_
      rintro ⟨eps, seeds, tr⟩ ⟨heps, hseeds⟩
      have hall : ∀ x ∈ eps ++ seeds, x < h.n := fun x hx =>
        (List.mem_append.mp hx).elim (heps x) (hseeds x)
      refine (searchLayer_spec H hq hall (max efSearch k) 0 _).bind ?_
      rintro ⟨w, tr'⟩ hw
      have hids : ((w.take k).map fun c => (c.dist, c.id)).map Prod.snd =
          (w.take k).map Cand.id := List.map_map ..
      have hsub : ((w.take k).map Cand.id).Sublist (w.map Cand.id) :=
        (List.take_sublist k w).map Cand.id
      refine ensures_pure.mpr ⟨?_, ?_, fun x hx => ?_⟩
      · rw [List.length_map]
        exact List.length_take_le k w
      · rw [hids]
        exact hsub.nodup hw.nodup
      · rw [hids] at hx
        obtain ⟨c, hc, rfl⟩ := List.mem_map.mp (hsub.subset hx)
        exact ⟨hw.lt c hc, hw.admits c hc⟩

theorem searchInner_safe (H : InRange h) (hentry : ∀ e, h.entryPoint = some e → e < h.n)
    (query : List F32) (k efSearch : Nat) (predicate : Option Predicate) :
    Outcome.Safe (h.searchInner query k efSearch predicate) := by
  by_cases hq : query.length = h.dim
  · exact (searchInner_spec H hentry hq k efSearch).safe
  · unfold searchInner
    cases h.entryPoint with
    | none => exact Outcome.safe_pure _
    | some entry =>
      dsimp only
      by_cases hk : k = 0
      · rw [if_pos hk]
        exact Outcome.safe_pure _
      · rw [if_neg hk, if_pos hq]
        exact Outcome.safe_fail _

end Hnsw

end Brindle
