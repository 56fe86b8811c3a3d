/-
# Brindle.Hnsw.FullBeam — a beam as wide as the graph is exact.

Without tombstones, and with room for every node, whatever an unfiltered walk has seen it also holds. A
queued candidate is then itself a hit, so none is farther than the farthest hit, in whichever order: the
walk is never cut, NaN or not, and stops only when its frontier is empty. By then the nodes seen are
closed under the lists, however asymmetric those are.
-/
import Brindle.Hnsw.Findable
import Brindle.Hnsw.Tombstones

namespace Brindle

open Outcome (Ensures ensures_pure index)
open Run (After)

namespace Hnsw

variable [Arith] {h : Hnsw} {query : List F32} {predicate : Option Predicate} {layer : Nat}
  {within : Nat → Prop} {ef : Nat} {seeds : List Nat}

/-- What is queued has been seen. -/
def Queued (b : Beam) : Prop := ∀ c ∈ b.frontier, c.id ∈ b.visited

theorem Queued.move {b b' : Beam} (hm : Move h query predicate within b b') (hb : Queued b) :
    Queued b' := by
  have hpush : ∀ id, ∀ c ∈ ((b.see id).push (h.scored query id) (h.admitted predicate id)).frontier,
      c.id ∈ id :: b.visited := by
    intro id c hc
    rcases Beam.mem_push_frontier.mp hc with rfl | hc
    · exact List.mem_cons_self
    · exact List.mem_cons_of_mem _ (hb c hc)
  cases hm with
  | queue id => exact hpush id
  | route id => exact hpush id
  | skip id => exact fun c hc => List.mem_cons_of_mem _ (hb c hc)

/-- A walk that has run its course: what it saw is closed under the lists. -/
structure Walked (h : Hnsw) (query : List F32) (predicate : Option Predicate) (ef layer : Nat)
    (b b' : Beam) : Prop where
  ample : Ample h query predicate ef b'
  visited_sub : ∀ v ∈ b.visited, v ∈ b'.visited
  closed : ∀ v ∈ b'.visited, ∀ x ∈ h.nbrs v layer, x ∈ b'.visited

/-- Where every candidate is a hit, none is past the farthest. -/
theorem not_cut {b : Beam} (hlive : ∀ id < h.n, h.admitted predicate id = true)
    (A : Ample h query predicate ef b) (O : Orderly h query predicate b) {c : Cand}
    (hc : c ∈ b.frontier) (hseen : c.id ∈ b.visited) : c.dist.gt b.farthest = false := by
  have hheld : c ∈ b.results := by
    rw [O.frontier_scored c hc]
    exact A.kept c.id hseen (hlive c.id (A.lt c.id hseen))
  exact Beam.not_gt_farthest O.ranked.1 hheld

section Walk

variable (H : InRange h) (hef : h.n ≤ ef) (hp : isFiltered predicate = false)
  (hlive : ∀ id < h.n, h.admitted predicate id = true)
include H hef hp hlive

theorem walkFrontier_full (fuel : Nat) {b : Beam} (A : Ample h query predicate ef b)
    (O : Orderly h query predicate b) (hqueued : Queued b) (hin : Inside (Around h layer seeds) b)
    (hb : Opened h layer b) :
    After (Walked h query predicate ef layer b)
      (h.walkFrontier query layer predicate fuel b) := by
  induction fuel generalizing b with
  | zero => trivial
  | succ fuel ih =>
    rw [walkFrontier.eq_def]
    dsimp only
    split
    · next hf =>
      refine ⟨A, fun _ hv => hv, fun v hv => ?_⟩
      rcases hb v hv with ⟨c, hc, -⟩ | hnbrs
      · rw [hf] at hc
        cases hc
      · exact hnbrs
    · next c rest hf =>
      have hmem : c ∈ b.frontier := hf ▸ List.mem_cons_self
      have hc : Around h layer seeds c.id := hin.1 c hmem
      have hrest : ∀ d ∈ rest, d ∈ b.frontier := fun d hd => (sublist_tail hf).subset hd
      -- what is queued is held, so it is never past the farthest hit
      have hfar : c.dist.gt ({ b with frontier := rest } : Beam).farthest = false :=
        not_cut hlive A O hmem (hqueued c hmem)
      rw [hp, hfar, if_neg (by simp), if_neg (by simp)]
      have A₁ : Ample h query predicate ef
          { b with frontier := rest, tr := b.tr.countExpansion false } := { A with }
      have O₁ : Orderly h query predicate
          { b with frontier := rest, tr := b.tr.countExpansion false } :=
        { ranked := O.ranked
          frontier_sorted := O.frontier_sorted.sublist (sublist_tail hf)
          frontier_scored := fun d hd => O.frontier_scored d (hrest d hd)
          held := O.held }
      refine After.bind (expand_sees H hp _ hc) ?_
      rintro ⟨bridged, b₂⟩ ⟨hfalse, hm, hseen⟩
      obtain ⟨A₂, s⟩ := A₁.moves hef (fun _ hid => hid.1) hm
      refine (ih A₂ (Moves.keeps (fun _ _ => Orderly.move) hm O₁)
        (Moves.keeps (fun _ _ => Queued.move) hm fun d hd => hqueued d (hrest d hd))
        (Moves.keeps (fun _ _ => Inside.move) hm ⟨fun d hd => hin.1 d (hrest d hd), hin.2⟩)
        (hb.expanded hf s hseen)).mono fun b' w => ?_
      exact { w with visited_sub := fun v hv => w.visited_sub v (s.visited_sub v hv) }

end Walk

/-- **A layer search with a full beam** over a graph without tombstones returns all its seeds lead to. -/
theorem searchLayer_full (H : InRange h) (hq : query.length = h.dim)
    (hlive : ∀ id < h.n, h.isDeleted id = false) (hseeds : ∀ x ∈ seeds, x < h.n) (hef : h.n ≤ ef)
    (layer : Nat) (tr : Traversal) :
    Ensures (h.searchLayer query seeds ef layer none tr) fun r =>
      Ranking h query (Reach (h.adj layer) seeds) r.1 := by
  have hadmitted : ∀ id < h.n, h.admitted none id = true := fun id hid =>
    (admitted_none id).mpr (hlive id hid)
  have hcovers : After (fun r : List Cand × Traversal =>
      ∀ id, Reach (h.adj layer) seeds id → h.scored query id ∈ r.1)
      (h.searchLayer query seeds ef layer none tr) := by
    have A₀ : Ample h query none ef (Beam.new ef tr) :=
      ⟨rfl, List.nodup_nil, nofun, le_rfl, nofun⟩
    have O₀ : Orderly h query none (Beam.new ef tr) :=
      ⟨⟨List.Pairwise.nil, nofun⟩, List.Pairwise.nil, nofun, nofun⟩
    refine After.bind (seedBeam_covers layer (Beam.new ef tr) hseeds) ?_
    rintro b₁ ⟨hm, hseeded⟩
    obtain ⟨A₁, s⟩ := A₀.moves hef (fun _ hid => hid.1) hm
    have hb₁ : Opened h layer b₁ := fun v hv => .inl (s.queued v hv List.not_mem_nil)
    have hrounds : After (Walked h query none ef layer b₁)
        (h.searchRounds query layer none (h.n + 1) b₁) := by
      rw [searchRounds_plain]
      exact walkFrontier_full H hef rfl hadmitted (h.n + 1) A₁
        (Moves.keeps (fun _ _ => Orderly.move) hm O₀) (Moves.keeps (fun _ _ => Queued.move) hm nofun)
        (Moves.keeps (fun _ _ => Inside.move) hm ⟨nofun, nofun⟩) hb₁
    refine After.bind hrounds fun b₂ w id hreach => ?_
    -- what has been seen is closed under the links, and nothing seen was turned away
    have hvisited : id ∈ b₂.visited :=
      Reach.of_closed (P := fun y => y ∈ b₂.visited) (fun x hx => w.visited_sub x (hseeded x hx))
        (fun a _ ha x hx => w.closed a ha x hx) hreach
    exact w.ample.kept id hvisited (hadmitted id (w.ample.lt id hvisited))
  refine (((hcovers.and (searchLayer_ranked h query seeds ef layer none tr)).of_ensures
    (searchLayer_spec H hq hseeds ef layer tr))).mono ?_
  rintro ⟨w, tr'⟩ ⟨⟨hall, hsorted, hscored⟩, F⟩
  exact ⟨pairwise_lt_of_nodup hsorted F.nodup, hscored,
    fun id => ⟨fun hid => F.reach _ hid, hall id⟩⟩

/-! ## The exact search -/

/-- **The exact search** returns the first `k` of all live nodes, nearest first. -/
theorem bruteForce_ranking (L : Layout h) (hq : query.length = h.dim) (k : Nat) :
    ∃ full, Ranking h query h.Live full ∧
      h.bruteForce query k = .ok ((full.take k).map fun c => (c.dist, c.id)) := by
  have hscan : Ensures ((List.range h.n).foldlM (fun (all : List Cand) id => do
      if ← index h.deleted id then return all
      let d ← h.distance query (← h.vector id)
      return all ++ [⟨d, id⟩]) [])
      fun all => all = ((List.range h.n).filter (!h.isDeleted ·)).map (h.scored query) := by
    refine Outcome.ensures_foldlM (fun done (all : List Cand) =>
      all = (done.filter (!h.isDeleted ·)).map (h.scored query)) _ ?_ rfl
    rintro done id rest all hrange rfl
    have hid : id < h.n := List.mem_range.mp (hrange ▸ by simp)
    have hlen : query.length = (h.vec id).length := hq.trans (L.vec_length hid).symm
    rw [L.index_deleted hid, L.vector_eq hid, Outcome.ok_bind, Outcome.ok_bind, distance_ok h hlen,
      List.filter_append, List.map_append]
    cases hdel : h.isDeleted id with
    | true => simp [hdel]
    | false => simp [hdel, scored]
  obtain ⟨all, hrun, rfl⟩ := hscan
  set live := (List.range h.n).filter (!h.isDeleted ·)
  have hmem : ∀ c, c ∈ (live.map (h.scored query)).insertionSort (· ≤ ·) ↔
      ∃ id ∈ live, h.scored query id = c := fun c =>
    (List.mem_insertionSort (· ≤ ·)).trans List.mem_map
  have hids : (((live.map (h.scored query)).insertionSort (· ≤ ·)).map Cand.id).Nodup := by
    refine ((List.perm_insertionSort ..).map Cand.id).nodup_iff.mpr ?_
    rw [List.map_map]
    exact (List.map_id live).symm ▸ List.nodup_range.filter _
  refine ⟨(live.map (h.scored query)).insertionSort (· ≤ ·), ⟨?_, fun c hc => ?_, fun id => ?_⟩, ?_⟩
  · exact pairwise_lt_of_nodup (List.pairwise_insertionSort _ _) hids
  · obtain ⟨id, -, rfl⟩ := (hmem c).mp hc
    rfl
  · rw [hmem]
    constructor
    · rintro ⟨id', hid, heq⟩
      obtain rfl : id' = id := congrArg Cand.id heq
      simpa [live, Live] using hid
    · exact fun hid => ⟨id, by simpa [live, Live] using hid, rfl⟩
  · unfold bruteForce
    rw [if_neg (by simp [hq]), hrun]
    rfl

/-- **Exactness with a full beam.** Over a well-formed graph without tombstones, an unfiltered search
whose `ef_search` covers the graph returns the first `k` of all nodes that layer 0 leads to from the
node navigation ends on, whatever the distances are; it is the exact search where that is every node. -/
theorem search_exact (h : Hnsw) (W : WellFormed h) (hlive : ∀ id < h.n, h.isDeleted id = false)
    (query : List F32) (hq : query.length = h.dim) (k efSearch : Nat) (hef : h.n ≤ efSearch) :
    Ensures (h.startSet query none (max efSearch k)) fun start =>
      (0 < h.n → ∃ e < h.n, start = [e]) ∧
        (∃ full, Ranking h query (Reach (h.adj 0) start) full ∧
          h.search query k efSearch = .ok ((full.take k).map fun c => (c.dist, c.id))) ∧
        ((∀ id < h.n, Reach (h.adj 0) start id) →
          h.search query k efSearch = h.bruteForce query k) := by
  -- two rankings of the same nodes are one list
  have hexact : ∀ start found, (∀ id, Reach (h.adj 0) start id → id < h.n) →
      Ranking h query (Reach (h.adj 0) start) found →
      h.search query k efSearch = .ok ((found.take k).map fun c => (c.dist, c.id)) →
      (∀ id < h.n, Reach (h.adj 0) start id) → h.search query k efSearch = h.bruteForce query k := by
    intro start found hlt R hsearch hall
    obtain ⟨full, R', hbrute⟩ := bruteForce_ranking W.toLayout hq k
    have heq : found = full := R.unique R' fun id =>
      ⟨fun hid => ⟨hlt id hid, hlive id (hlt id hid)⟩, fun hid => hall id hid.1⟩
    rw [hsearch, hbrute, heq]
  unfold startSet
  cases he : h.entryPoint with
  | none =>
    have hempty : ¬ 0 < h.n := by
      intro hpos
      obtain ⟨e, he', -⟩ := W.entry hpos
      rw [he] at he'
      cases he'
    have hnowhere : ∀ id, ¬ Reach (h.adj 0) [] id := fun id ⟨_, hs, _⟩ => List.not_mem_nil hs
    have R : Ranking h query (Reach (h.adj 0) []) [] :=
      ⟨List.Pairwise.nil, nofun, fun id => iff_of_false List.not_mem_nil (hnowhere id)⟩
    have hsearch : h.search query k efSearch =
        .ok ((([] : List Cand).take k).map fun c => (c.dist, c.id)) := by
      unfold search searchInner
      rw [he, List.take_nil]
      rfl
    exact ensures_pure.mpr ⟨fun hpos => absurd hpos hempty, ⟨[], R, hsearch⟩,
      hexact [] [] (fun id hid => absurd hid (hnowhere id)) R hsearch⟩
  | some entry =>
    have hentry : entry < h.n := W.entry_lt entry he
    obtain ⟨⟨eps, seeds, tr⟩, hrun, heps, hseeds, hdescended⟩ := descend_unfiltered W.toInRange hq
      hentry (upperLayers h.maxLayer) Traversal.unfiltered
    dsimp only at heps hseeds hdescended
    subst hseeds
    have hstart : ∃ e, eps = [e] := by
      rcases hdescended with ⟨e, -, hone, -⟩ | ⟨hone, -⟩
      · exact ⟨e, hone⟩
      · exact ⟨entry, hone⟩
    obtain ⟨e, rfl⟩ := hstart
    have he' : e < h.n := heps e List.mem_cons_self
    obtain ⟨⟨w, tr'⟩, hlayer, R⟩ := searchLayer_full W.toInRange hq hlive heps
      (hef.trans (Nat.le_max_left efSearch k)) 0 tr
    have hsearch : h.search query k efSearch = .ok ((w.take k).map fun c => (c.dist, c.id)) := by
      unfold search searchInner
      rw [he]
      dsimp only
      by_cases hk : k = 0
      · rw [if_pos hk, hk]
        rfl
      · simp only [if_neg hk, if_neg (not_not.mpr hq), isFiltered, Bool.false_eq_true, if_false, hrun,
          Outcome.ok_bind, List.append_nil, hlayer]
        rfl
    simp only [isFiltered, Bool.false_eq_true, if_false, hrun, Outcome.ok_bind, List.append_nil]
    have hlt : ∀ id, Reach (h.adj 0) [e] id → id < h.n := by
      intro id hid
      exact Reach.of_closed (P := (· < h.n)) heps (fun a _ _ x hx => W.links_lt a 0 x hx) hid
    exact ensures_pure.mpr ⟨fun _ => ⟨e, he', rfl⟩, ⟨w, R, hsearch⟩, hexact [e] w hlt R hsearch⟩

omit [Arith] in
/-- The whole price list, its three nearest rows. Every row is reached, the fifth through the second. -/
theorem search_exact_priced :
    Ensures pricedGraph fun h =>
      Ensures (@search Arith.ieee h pricedQuery 3 6) (·.map Prod.snd = [3, 2, 0]) ∧
        @search Arith.ieee h pricedQuery 3 6 = @bruteForce Arith.ieee h pricedQuery 3 := by
  let := Arith.ieee
  obtain ⟨h, hrun, W⟩ := pricedGraph_wellFormed
  have hfacts : Ensures pricedGraph fun h =>
      (pricedQuery.length = h.dim ∧ h.n = 6 ∧ ∀ id < h.n, h.isDeleted id = false) ∧
      h.startSet pricedQuery none (max 6 3) = .ok [3] ∧
      (h.nbrs 3 0 = [0, 2, 5, 1] ∧ 4 ∈ h.nbrs 1 0) ∧
      Ensures (h.search pricedQuery 3 6) (·.map Prod.snd = [3, 2, 0]) := by
    decide +kernel
  obtain ⟨⟨hdim, hn, hlive⟩, hstart, ⟨hfirst, hsecond⟩, hhits⟩ := hfacts.elim hrun
  obtain ⟨start, hstart', -, -, hexact⟩ := search_exact h W hlive pricedQuery hdim 3 6 hn.le
  cases hstart.symm.trans hstart'
  refine ⟨h, hrun, hhits, hexact fun id hid => ?_⟩
  have hseed : Reach (h.adj 0) [3] 3 := Reach.of_seed List.mem_cons_self
  have hstep : ∀ x ∈ [0, 2, 5, 1], Reach (h.adj 0) [3] x := fun x hx =>
    hseed.step (show x ∈ h.nbrs 3 0 by rw [hfirst]; exact hx)
  obtain rfl | rfl | rfl | rfl | rfl | rfl :
      id = 0 ∨ id = 1 ∨ id = 2 ∨ id = 3 ∨ id = 4 ∨ id = 5 := by omega
  · exact hstep 0 (by decide)
  · exact hstep 1 (by decide)
  · exact hstep 2 (by decide)
  · exact hseed
  · exact (hstep 1 (by decide)).step hsecond
  · exact hstep 5 (by decide)

end Hnsw

end Brindle
