/-
# Brindle.Hnsw.Once — a layer search ends, and does nothing twice.

A node is scored when it is first seen, and queued then or never; a popped node leaves the frontier
for good; what is put off is taken up once, because taking it up empties the list. `Once` says so of the
beam and the log together, and every step of the search keeps it.
-/
import Brindle.Hnsw.Accepted
import Brindle.Hnsw.Trace

namespace Brindle

open Outcome (Ensures Halts halts_foldlM index)
open Run (After after_foldlM)

namespace Event

/-- The node whose distance is computed. -/
def scoredId : Event → Option Nat
  | scored _ _ cand => some cand.id
  | _ => none

def expandedId : Event → Option Nat
  | expanded id => some id
  | _ => none

def rescuedId : Event → Option Nat
  | rescued id => some id
  | _ => none

end Event

namespace Hnsw

/-- Nothing is done twice; `hand` is what the search holds between frontier and list of the deferred. -/
structure Once (hand : List Cand) (t : Traced) : Prop where
  scored_eq : t.log.filterMap Event.scoredId = t.beam.visited
  visited_nodup : t.beam.visited.Nodup
  frontier_nodup : (t.beam.frontier.map Cand.id).Nodup
  frontier_visited : ∀ c ∈ t.beam.frontier, c.id ∈ t.beam.visited
  frontier_fresh : ∀ c ∈ t.beam.frontier, c.id ∉ t.log.filterMap Event.expandedId
  expanded_nodup : (t.log.filterMap Event.expandedId).Nodup
  expanded_visited : ∀ id ∈ t.log.filterMap Event.expandedId, id ∈ t.beam.visited
  putOff_nodup : ((hand ++ t.beam.deferred).map Cand.id).Nodup
  putOff_expanded : ∀ c ∈ hand ++ t.beam.deferred, c.id ∈ t.log.filterMap Event.expandedId
  putOff_fresh : ∀ c ∈ hand ++ t.beam.deferred, c.id ∉ t.log.filterMap Event.rescuedId
  rescued_nodup : (t.log.filterMap Event.rescuedId).Nodup
  rescued_expanded : ∀ id ∈ t.log.filterMap Event.rescuedId, id ∈ t.log.filterMap Event.expandedId

variable [Arith] {h : Hnsw} {query : List F32} {layer : Nat} {predicate : Option Predicate}

namespace Once

variable {hand : List Cand} {t : Traced}

omit [Arith] in
theorem new (ef : Nat) (tr : Traversal) : Once [] { beam := Beam.new ef tr } := by
  constructor <;> simp [Beam.new]

omit [Arith] in
/-- A node first seen may join the frontier. -/
theorem queue (O : Once hand t) {c : Cand} (hnew : c.id ∉ t.beam.visited) (entry admissible : Bool)
    (tr : Traversal) : Once hand { t.see entry c with
      beam := { (t.beam.see c.id).push c admissible with tr } } where
  scored_eq := congrArg (c.id :: ·) O.scored_eq
  visited_nodup := List.nodup_cons.mpr ⟨hnew, O.visited_nodup⟩
  frontier_nodup := by
    have hperm : ((t.beam.frontier.orderedInsert (· ≤ ·) c).map Cand.id).Perm
        (c.id :: t.beam.frontier.map Cand.id) := (List.perm_orderedInsert ..).map Cand.id
    refine hperm.nodup_iff.mpr (List.nodup_cons.mpr ⟨fun hmem => ?_, O.frontier_nodup⟩)
    obtain ⟨d, hd, hid⟩ := List.mem_map.mp hmem
    exact hnew (hid ▸ O.frontier_visited d hd)
  frontier_visited := by
    intro d hd
    rcases (Beam.mem_push_frontier (a := admissible)).mp hd with rfl | hd
    · exact List.mem_cons_self
    · exact List.mem_cons_of_mem _ (O.frontier_visited d hd)
  frontier_fresh := by
    intro d hd
    rcases (Beam.mem_push_frontier (a := admissible)).mp hd with rfl | hd
    · exact fun hexpanded => hnew (O.expanded_visited _ hexpanded)
    · exact O.frontier_fresh d hd
  expanded_nodup := O.expanded_nodup
  expanded_visited id hid := List.mem_cons_of_mem _ (O.expanded_visited id hid)
  putOff_nodup := O.putOff_nodup
  putOff_expanded := O.putOff_expanded
  putOff_fresh := O.putOff_fresh
  rescued_nodup := O.rescued_nodup
  rescued_expanded := O.rescued_expanded

omit [Arith] in
/-- Or it may not. -/
theorem skip (O : Once hand t) {c : Cand} (hnew : c.id ∉ t.beam.visited) (entry : Bool) :
    Once hand (t.see entry c) where
  scored_eq := congrArg (c.id :: ·) O.scored_eq
  visited_nodup := List.nodup_cons.mpr ⟨hnew, O.visited_nodup⟩
  frontier_nodup := O.frontier_nodup
  frontier_visited d hd := List.mem_cons_of_mem _ (O.frontier_visited d hd)
  frontier_fresh := O.frontier_fresh
  expanded_nodup := O.expanded_nodup
  expanded_visited id hid := List.mem_cons_of_mem _ (O.expanded_visited id hid)
  putOff_nodup := O.putOff_nodup
  putOff_expanded := O.putOff_expanded
  putOff_fresh := O.putOff_fresh
  rescued_nodup := O.rescued_nodup
  rescued_expanded := O.rescued_expanded

omit [Arith] in
theorem drop (O : Once hand t) {c : Cand} {rest : List Cand} (hf : t.beam.frontier = c :: rest) :
    Once hand { t with beam.frontier := rest } where
  scored_eq := O.scored_eq
  visited_nodup := O.visited_nodup
  frontier_nodup := by
    have hnodup := O.frontier_nodup
    rw [hf, List.map_cons] at hnodup
    exact hnodup.of_cons
  frontier_visited d hd := O.frontier_visited d (hf ▸ List.mem_cons_of_mem c hd)
  frontier_fresh d hd := O.frontier_fresh d (hf ▸ List.mem_cons_of_mem c hd)
  expanded_nodup := O.expanded_nodup
  expanded_visited := O.expanded_visited
  putOff_nodup := O.putOff_nodup
  putOff_expanded := O.putOff_expanded
  putOff_fresh := O.putOff_fresh
  rescued_nodup := O.rescued_nodup
  rescued_expanded := O.rescued_expanded

omit [Arith] in
/-- A popped node has not been expanded before, so it has not been put off before either. -/
theorem pop (O : Once [] t) {c : Cand} {rest : List Cand} (hf : t.beam.frontier = c :: rest)
    (tr : Traversal) : Once [c]
      (Traced.record { t with beam := { t.beam with frontier := rest, tr } } (.expanded c.id)) := by
  have D := O.drop hf
  have hc : c ∈ t.beam.frontier := hf ▸ List.mem_cons_self
  have hfresh := O.frontier_fresh c hc
  have hfirst : ∀ d ∈ rest, d.id ≠ c.id := by
    have hnodup := O.frontier_nodup
    rw [hf, List.map_cons, List.nodup_cons] at hnodup
    exact fun d hd hid => hnodup.1 (hid ▸ List.mem_map_of_mem hd)
  exact
    { scored_eq := D.scored_eq
      visited_nodup := D.visited_nodup
      frontier_nodup := D.frontier_nodup
      frontier_visited := D.frontier_visited
      frontier_fresh := by
        intro d hd hexpanded
        rcases List.mem_cons.mp hexpanded with hid | hexpanded
        · exact hfirst d hd hid
        · exact D.frontier_fresh d hd hexpanded
      expanded_nodup := List.nodup_cons.mpr ⟨hfresh, D.expanded_nodup⟩
      expanded_visited := by
        intro id hid
        rcases List.mem_cons.mp hid with rfl | hid
        · exact O.frontier_visited c hc
        · exact D.expanded_visited id hid
      putOff_nodup := by
        refine List.nodup_cons.mpr ⟨fun hmem => ?_, D.putOff_nodup⟩
        obtain ⟨d, hd, hid⟩ := List.mem_map.mp hmem
        exact hfresh (hid ▸ O.putOff_expanded d hd)
      putOff_expanded := by
        intro d hd
        rcases List.mem_cons.mp hd with rfl | hd
        · exact List.mem_cons_self
        · exact List.mem_cons_of_mem _ (D.putOff_expanded d hd)
      putOff_fresh := by
        intro d hd
        rcases List.mem_cons.mp hd with rfl | hd
        · exact fun hrescued => hfresh (O.rescued_expanded _ hrescued)
        · exact D.putOff_fresh d hd
      rescued_nodup := D.rescued_nodup
      rescued_expanded := fun id hid => List.mem_cons_of_mem _ (D.rescued_expanded id hid) }

omit [Arith] in
/-- What is put off, in hand or on the list, may be put in any order, and some of it let go. -/
theorem putOff (O : Once hand t) {hand' deferred' : List Cand}
    (hsub : (hand' ++ deferred').Subperm (hand ++ t.beam.deferred)) :
    Once hand' { t with beam.deferred := deferred' } where
  scored_eq := O.scored_eq
  visited_nodup := O.visited_nodup
  frontier_nodup := O.frontier_nodup
  frontier_visited := O.frontier_visited
  frontier_fresh := O.frontier_fresh
  expanded_nodup := O.expanded_nodup
  expanded_visited := O.expanded_visited
  putOff_nodup := by
    obtain ⟨kept, hperm, hkept⟩ := hsub
    exact (hperm.map Cand.id).nodup_iff.mp ((hkept.map Cand.id).nodup O.putOff_nodup)
  putOff_expanded c hc := O.putOff_expanded c (hsub.subset hc)
  putOff_fresh c hc := O.putOff_fresh c (hsub.subset hc)
  rescued_nodup := O.rescued_nodup
  rescued_expanded := O.rescued_expanded

omit [Arith] in
theorem rescue {c : Cand} (O : Once (c :: hand) t) : Once hand (t.record (.rescued c.id)) := by
  have R : Once hand { t with beam.deferred := t.beam.deferred } :=
    O.putOff (List.sublist_cons_self c _).subperm
  have hnodup := O.putOff_nodup
  rw [List.cons_append, List.map_cons, List.nodup_cons] at hnodup
  exact
    { R with
      putOff_fresh := by
        intro d hd hrescued
        rcases List.mem_cons.mp hrescued with hid | hrescued
        · exact hnodup.1 (hid ▸ List.mem_map_of_mem hd)
        · exact R.putOff_fresh d hd hrescued
      rescued_nodup :=
        List.nodup_cons.mpr ⟨O.putOff_fresh c List.mem_cons_self, R.rescued_nodup⟩
      rescued_expanded := by
        intro id hid
        rcases List.mem_cons.mp hid with rfl | hid
        · exact O.putOff_expanded c List.mem_cons_self
        · exact R.rescued_expanded id hid }

/-- Every step of a search keeps it. -/
theorem lawful : Lawful h query predicate Once where
  step hand t t' hs O := by
    cases hs with
    | queue id tr hnew hfits => exact O.queue (c := h.scored query id) hnew false _ tr
    | skip id hnew hfar => exact O.skip (c := h.scored query id) hnew false
  drop t c rest hf O := O.drop hf
  pop t c rest tr hf O := O.pop hf tr
  defer t c O := O.putOff
    (List.perm_append_comm : (t.beam.deferred ++ [c]).Perm ([c] ++ t.beam.deferred)).subperm
  release t c hand O := O.putOff (List.sublist_cons_self c _).subperm
  resume t O := O.putOff (by
    rw [List.append_nil]
    exact (List.perm_insertionSort ..).subperm)
  rescue t c hand O := O.rescue

end Once

/-! ## Termination -/

theorem distance_halts (h : Hnsw) (a b : List F32) : Halts (h.distance a b) := by
  unfold distance
  cases h.metric.distance a b with
  | ok d => exact nofun
  | error e => exact nofun

omit [Arith] in
theorem index_halts {α : Type} (xs : List α) (i : Nat) :
    Halts (index xs i : Outcome HnswError α) := by
  unfold index
  cases xs[i]? with
  | some x => exact nofun
  | none => exact nofun

omit [Arith] in
theorem vector_halts (h : Hnsw) (id : Nat) : Halts (h.vector id) := by
  unfold vector Outcome.slice
  split_ifs
  · exact nofun
  · exact nofun

theorem seedBeam_halts (seeds : List Nat) (b : Beam) :
    Halts (h.seedBeam query predicate seeds b) := by
  refine halts_foldlM seeds (fun b x _ => ?_) b
  split_ifs
  · exact nofun
  · refine (vector_halts h x).bind fun v _ => (distance_halts h query v).bind fun d _ => ?_
    have hadmissible : Halts (h.admissible x predicate) :=
      (index_halts h.deleted x).bind fun deleted _ => nofun
    exact hadmissible.bind fun a _ => nofun

theorem after_distance_length (h : Hnsw) (a b : List F32) :
    After (fun _ => a.length = b.length) (h.distance a b) := by
  by_cases hlen : a.length = b.length
  · exact (Run.after_true _).mono fun _ _ => hlen
  · unfold distance
    rw [Metric.distance_ne h.metric hlen]
    trivial

/-- Seeding goes through only with a query of the right length, from nodes of the graph. -/
theorem seedBeam_checks (H : InRange h) (seeds : List Nat) (ef : Nat) (tr : Traversal) :
    After (fun _ => ∀ x ∈ seeds, x < h.n ∧ query.length = h.dim)
      (h.seedBeam query predicate seeds (Beam.new ef tr)) := by
  refine (after_foldlM (fun done b => (∀ x ∈ done, x < h.n ∧ query.length = h.dim) ∧
    ∀ x ∈ b.visited, x < h.n ∧ query.length = h.dim) seeds ?_
    ⟨fun _ hx => absurd hx List.not_mem_nil, fun _ hx => absurd hx List.not_mem_nil⟩).mono
    fun b hb => hb.1
  rintro done x b - ⟨hdone, hvisited⟩
  -- what a seed that goes through has passed is passed for every later repeat of it
  have hnext : x < h.n ∧ query.length = h.dim →
      ∀ y ∈ done ++ [x], y < h.n ∧ query.length = h.dim := by
    intro hx y hy
    rcases List.mem_append.mp hy with hy | hy
    · exact hdone y hy
    · rw [List.mem_singleton.mp hy]
      exact hx
  split_ifs with hseen
  · exact ⟨hnext (hvisited x (List.contains_iff_mem.mp hseen)), hvisited⟩
  · refine After.bind (after_vector h x) ?_
    rintro v rfl
    refine After.bind (after_distance_length h query (h.vec x)) fun d hlen => ?_
    have hstored : After (fun _ => x < h.n) (h.admissible x predicate) := by
      refine After.bind (P := fun _ => x < h.n) (Run.after_iff.mpr fun deleted hdeleted => ?_)
        fun _ hx => hx
      rw [← H.deleted_len]
      by_contra hpast
      rw [Outcome.index, List.getElem?_eq_none (Nat.le_of_not_lt hpast)] at hdeleted
      cases hdeleted
    refine After.bind hstored fun a hx => ?_
    have hboth : x < h.n ∧ query.length = h.dim := ⟨hx, hlen.trans (H.vec_length hx)⟩
    refine ⟨hnext hboth, fun y hy => ?_⟩
    rcases List.mem_cons.mp hy with rfl | hy
    · exact hboth
    · exact hvisited y hy

/-- Whatever it is asked, a search comes to an end. -/
theorem searchLayer_halts (H : InRange h) (seeds : List Nat) (ef layer : Nat)
    (tr : Traversal) : Halts (h.searchLayer query seeds ef layer predicate tr) := by
  unfold searchLayer
  refine (seedBeam_halts seeds _).bind fun b hseed => ?_
  have hchecks := (seedBeam_checks H seeds ef tr).elim hseed
  cases hseeds : seeds with
  | nil =>
    -- with no entry point there is nothing to walk from
    rw [hseeds] at hseed
    cases hseed
    show Halts (h.searchRounds query layer predicate (h.n + 1) (Beam.new ef tr) >>= _)
    have hwalk : h.walkFrontier query layer predicate (h.n + 1) (Beam.new ef tr) =
        .ok (Beam.new ef tr) := rfl
    have hround : Halts (h.searchRounds query layer predicate (h.n + 1) (Beam.new ef tr)) := by
      unfold searchRounds
      rw [hwalk, Outcome.ok_bind]
      dsimp only
      split_ifs with hstop hnone
      · exact Outcome.halts_pure _
      · exact Outcome.halts_pure _
      · exact absurd rfl hnone
    exact hround.bind fun b _ => Outcome.halts_pure _
  | cons x rest =>
    rw [hseeds] at hchecks hseed
    have hq := (hchecks x List.mem_cons_self).2
    have hreturns : Halts (h.searchLayer query (x :: rest) ef layer predicate tr) :=
      (searchLayer_spec H hq (fun y hy => (hchecks y hy).1) ef layer tr).halts
    unfold searchLayer at hreturns
    rw [hseed, Outcome.ok_bind] at hreturns
    exact hreturns

/-! ## Once each -/

/-- The traced search ends with a log in which nothing is done twice. -/
theorem searchLayerTraced_once (h : Hnsw) (query : List F32) (seeds : List Nat) (ef layer : Nat)
    (predicate : Option Predicate) (tr : Traversal) :
    After (fun r => (r.2.2.filterMap Event.scoredId).Nodup ∧
        (r.2.2.filterMap Event.expandedId).Nodup ∧ (r.2.2.filterMap Event.rescuedId).Nodup)
      (h.searchLayerTraced query seeds ef layer predicate tr) := by
  refine After.bind (seedBeamTraced_keeps (P := Once [])
    (fun t id hnew O => O.queue (c := h.scored query id) hnew true _ _) seeds (Once.new ef tr))
    fun t O => ?_
  refine After.bind (searchRoundsTraced_keeps Once.lawful (h.n + 1) O) fun t' O' => ?_
  refine ⟨?_, O'.expanded_nodup, O'.rescued_nodup⟩
  show (t'.log.filterMap Event.scoredId).Nodup
  rw [O'.scored_eq]
  exact O'.visited_nodup

/-- **Termination, and no work done twice.** Over any graph whose links name stored nodes, a layer
search ends, whatever the query, the entry points, the predicate and the allowances are. In the search
that also keeps a log, which is the search itself without it, each node is scored, expanded and rescued
at most once. -/
theorem searchLayer_once (h : Hnsw) (H : InRange h) (query : List F32) (seeds : List Nat)
    (ef layer : Nat) (predicate : Option Predicate) (tr : Traversal) :
    Halts (h.searchLayer query seeds ef layer predicate tr) ∧
      h.searchLayer query seeds ef layer predicate tr =
        (fun r => (r.1, r.2.1)) <$> h.searchLayerTraced query seeds ef layer predicate tr ∧
      After (fun r => (r.2.2.filterMap Event.scoredId).Nodup ∧
          (r.2.2.filterMap Event.expandedId).Nodup ∧ (r.2.2.filterMap Event.rescuedId).Nodup)
        (h.searchLayerTraced query seeds ef layer predicate tr) :=
  ⟨searchLayer_halts H seeds ef layer tr, (searchLayerTraced_erase ..).symm,
    searchLayerTraced_once h query seeds ef layer predicate tr⟩

omit [Arith] in
/-- A graph the decoder accepts, whose node 0 links to itself at layer 1. -/
theorem searchLayer_once_misfiled :
    Halts (@searchLayer Arith.ieee (misfiled 0) [F32.one] [0, 0] 2 1 none .unfiltered) ∧
      Ensures (@searchLayerTraced Arith.ieee (misfiled 0) [F32.one] [0, 0] 2 1 none .unfiltered)
        fun r => (r.2.2.filterMap Event.expandedId).Nodup ∧
          r.2.2.filterMap Event.expandedId = [0] := by
  have S : Sound (misfiled 0) := @fromBytes_sound Arith.ieee (misfiledBytes 0) _ (by decide +kernel)
  obtain ⟨hhalts, -, honce⟩ := @searchLayer_once Arith.ieee (misfiled 0) S.toInRange [F32.one] [0, 0]
    2 1 none .unfiltered
  refine ⟨hhalts, ?_⟩
  have hlog : Ensures
      (@searchLayerTraced Arith.ieee (misfiled 0) [F32.one] [0, 0] 2 1 none .unfiltered)
      fun r => r.2.2.filterMap Event.expandedId = [0] := by
    decide +kernel
  obtain ⟨r, hr, hexpanded⟩ := hlog
  exact ⟨r, hr, (honce.elim hr).2.1, hexpanded⟩

end Hnsw

end Brindle
