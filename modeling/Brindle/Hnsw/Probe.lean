/-
# Brindle.Hnsw.Probe — a descent step ends on a local minimum, and its probe stays there.

With a beam of one an unfiltered layer search holds one node, which it only ever leaves for a nearer
one and always expands: it ends on a node none of whose neighbors is nearer. Where every stored row
satisfies the predicate, the probe that a filtered search makes beside it starts from that node and
finds nothing to move to, however large or small its allowance is.
-/
import Brindle.Hnsw.Tombstones

namespace Brindle

open Outcome (Ensures Alike alike_self index)
open Run (After after_foldlM)

/-! ## The same walk -/

/-- The same walk, whatever the allowances are and whatever has been put off. -/
def SameWalk (b b' : Beam) : Prop := ∃ deferred tr, b' = { b with deferred, tr }

theorem SameWalk.trans {b b' b'' : Beam} (M : SameWalk b b') (M' : SameWalk b' b'') :
    SameWalk b b'' := by
  obtain ⟨_, _, rfl⟩ := M
  obtain ⟨deferred, tr, rfl⟩ := M'
  exact ⟨deferred, tr, rfl⟩

namespace Hnsw

variable [Arith] {h : Hnsw} {query : List F32} {predicate : Option Predicate} {layer : Nat}

theorem visit_same {b b' : Beam} (M : SameWalk b b') (id : Nat) :
    Alike (fun r r' => r.1 = r'.1 ∧ SameWalk r.2 r'.2) (h.visit query predicate b id)
      (h.visit query predicate b' id) := by
  obtain ⟨deferred, tr, rfl⟩ := M
  unfold visit
  dsimp only
  split_ifs
  · exact .ok ⟨rfl, deferred, tr, rfl⟩
  · refine (alike_self (h.vector id)).bind ?_
    rintro v _ rfl
    refine (alike_self (h.distance query v)).bind ?_
    rintro d _ rfl
    show Alike _ (if (decide (b.results.length < b.ef) || d.lt b.farthest) = true then _ else _)
      (if (decide (b.results.length < b.ef) || d.lt b.farthest) = true then _ else _)
    split_ifs
    · refine (alike_self (h.admissible id predicate)).bind ?_
      rintro a _ rfl
      exact .ok ⟨rfl, deferred, tr.countDistance, rfl⟩
    · exact .ok ⟨rfl, deferred, tr.countDistance, rfl⟩

theorem visitAll_same {b b' : Beam} (M : SameWalk b b') (ids : List Nat) :
    Alike SameWalk (h.visitAll query predicate ids b) (h.visitAll query predicate ids b') := by
  unfold visitAll
  refine Alike.foldlM (R := Eq) ?_ (List.forall₂_refl ids) M
  rintro b b' id _ M rfl
  exact (visit_same M id).bind fun r r' hr => .ok hr.2

theorem seedBeam_same {b b' : Beam} (M : SameWalk b b') (seeds : List Nat) :
    Alike SameWalk (h.seedBeam query predicate seeds b) (h.seedBeam query predicate seeds b') := by
  unfold seedBeam
  refine Alike.foldlM (R := Eq) ?_ (List.forall₂_refl seeds) M
  rintro b _ ep _ ⟨deferred, tr, rfl⟩ rfl
  dsimp only
  split_ifs
  · exact .ok ⟨deferred, tr, rfl⟩
  · refine (alike_self (h.vector ep)).bind ?_
    rintro v _ rfl
    refine (alike_self (h.distance query v)).bind ?_
    rintro d _ rfl
    refine (alike_self (h.admissible ep predicate)).bind ?_
    rintro a _ rfl
    exact .ok ⟨deferred, tr.countDistance, rfl⟩

/-! ## Expansions -/

/-- An unfiltered expansion visits the neighbors. -/
theorem expand_plain (H : InRange h) (b : Beam) (id : Nat) :
    h.expand query layer none b id =
      (fun b' => (false, b')) <$> h.visitAll query none (h.nbrs id layer) b := by
  unfold expand
  rw [H.neighbors_eq, Outcome.ok_bind]
  rfl

section Matching

variable (hmatch : ∀ id < h.n, h.nodeMatches id predicate = true)
include hmatch

/-- A predicate that every stored row satisfies decides no visit. -/
theorem visit_matching (b : Beam) {id : Nat} (hid : id < h.n) :
    h.visit query predicate b id = h.visit query none b id := by
  have hadmissible : h.admissible id predicate = h.admissible id none := by
    unfold admissible
    rw [hmatch id hid]
    rfl
  unfold visit
  rw [hadmissible]

theorem seedBeam_matching (b : Beam) {seeds : List Nat} (hseeds : ∀ x ∈ seeds, x < h.n) :
    h.seedBeam query predicate seeds b = h.seedBeam query none seeds b := by
  have hadmissible : ∀ id < h.n, h.admissible id predicate = h.admissible id none := by
    intro id hid
    unfold admissible
    rw [hmatch id hid]
    rfl
  unfold seedBeam
  induction seeds generalizing b with
  | nil => rfl
  | cons ep rest ih =>
    rw [List.foldlM_cons, List.foldlM_cons, hadmissible ep (hseeds ep List.mem_cons_self)]
    exact bind_congr fun b' => ih b' fun x hx => hseeds x (List.mem_cons_of_mem _ hx)

/-- With nothing but matching neighbors there is nothing to bridge. -/
theorem classifyLoop_matching {ids : List Nat} (hids : ∀ x ∈ ids, x < h.n) (count : Nat) (b : Beam) :
    ids.foldlM (fun (matching, bridges, beam) n => do
      if h.nodeMatches n predicate then
        let (_, beam) ← h.visit query predicate beam n
        return (matching + 1, bridges, beam)
      else if bridges.length < h.m then return (matching, bridges ++ [n], beam)
      else return (matching, bridges, beam)) ((count, [], b) : Nat × List Nat × Beam) =
      (fun b' => (count + ids.length, [], b')) <$> h.visitAll query none ids b := by
  induction ids generalizing count b with
  | nil => rfl
  | cons x rest ih =>
    have hx := hids x List.mem_cons_self
    have hrest : ∀ y ∈ rest, y < h.n := fun y hy => hids y (List.mem_cons_of_mem _ hy)
    unfold visitAll at ih ⊢
    rw [List.foldlM_cons, List.foldlM_cons]
    dsimp only
    rw [if_pos (hmatch x hx), visit_matching hmatch b hx, bind_assoc, bind_assoc, map_bind]
    refine bind_congr fun r => ?_
    rw [pure_bind, pure_bind, ih hrest (count + 1) r.2, List.length_cons, Nat.add_assoc,
      Nat.add_comm 1]

theorem classifyNeighbors_matching {ids : List Nat} (hids : ∀ x ∈ ids, x < h.n) (b : Beam) :
    h.classifyNeighbors query predicate ids b =
      (fun b' => (ids.length, [], b')) <$> h.visitAll query none ids b := by
  unfold classifyNeighbors
  rw [classifyLoop_matching hmatch hids 0 b, Nat.zero_add]

/-- A filtered expansion then visits the neighbors too, and bridges out of a node that has none. -/
theorem expand_matching (H : InRange h) (hp : isFiltered predicate = true) (b : Beam) (id : Nat) :
    h.expand query layer predicate b id =
      (fun b' => ((h.nbrs id layer).isEmpty, b')) <$> h.visitAll query none (h.nbrs id layer) b := by
  unfold expand
  rw [H.neighbors_eq, Outcome.ok_bind, hp,
    classifyNeighbors_matching hmatch (fun x hx => H.links_lt id layer x hx), bind_map_left,
    ← bind_pure_comp]
  refine bind_congr fun b' => ?_
  cases hnbrs : h.nbrs id layer with
  | nil =>
    have hbridge : h.bridgeOut query layer predicate b' id = .ok (false, b') := by
      unfold bridgeOut
      rw [H.neighbors_eq, hnbrs]
      rfl
    have hcross : h.crossBridges query layer predicate [] ([] : List Nat).length b' =
        .ok (0, b') := rfl
    dsimp only
    rw [hcross, Outcome.ok_bind]
    dsimp only
    rw [if_pos rfl, hbridge]
    rfl
  | cons x rest => rfl

end Matching

/-! ## The walk, step by step -/

/-- One turn of the unfiltered walk. -/
theorem walkFrontier_plain (H : InRange h) (fuel : Nat) {b : Beam} {c : Cand} {rest : List Cand}
    (hf : b.frontier = c :: rest) :
    h.walkFrontier query layer none (fuel + 1) b =
      if c.dist.gt b.farthest then .ok { b with frontier := rest }
      else h.visitAll query none (h.nbrs c.id layer)
        { b with frontier := rest, tr := b.tr.countExpansion false } >>=
          h.walkFrontier query layer none fuel := by
  obtain ⟨visited, frontier, results, ef, deferred, tr⟩ := b
  obtain rfl : frontier = c :: rest := hf
  rw [walkFrontier.eq_def]
  simp only [isFiltered, Bool.not_false, Bool.true_or, Bool.and_true, Bool.false_and,
    Bool.false_eq_true, if_false, expand_plain H, bind_map_left]
  rfl

/-- One turn of the filtered walk. -/
theorem walkFrontier_matching (hmatch : ∀ id < h.n, h.nodeMatches id predicate = true)
    (H : InRange h) (hp : isFiltered predicate = true) (fuel : Nat) {b : Beam} {c : Cand}
    {rest : List Cand} (hf : b.frontier = c :: rest) :
    h.walkFrontier query layer predicate (fuel + 1) b =
      if c.dist.gt b.farthest ∧ b.ef ≤ b.results.length then .ok { b with frontier := rest }
      else if b.tr.expansions = 0 then .ok { b with frontier := rest }
      else h.visitAll query none (h.nbrs c.id layer)
        { b with frontier := rest, tr := b.tr.countExpansion true } >>= fun b' =>
          h.walkFrontier query layer predicate fuel
            (if (h.nbrs c.id layer).isEmpty = false then
              { b' with deferred := b'.deferred ++ [c] } else b') := by
  obtain ⟨visited, frontier, results, ef, deferred, tr⟩ := b
  obtain rfl : frontier = c :: rest := hf
  rw [walkFrontier.eq_def]
  simp only [hp, Bool.not_true, Bool.false_or, Bool.true_and, Bool.and_eq_true, decide_eq_true_eq,
    expand_matching hmatch H hp, bind_map_left, Bool.not_eq_true']
  rfl

/-- Walking without a predicate, the allowances decide nothing. -/
theorem walkFrontier_same (H : InRange h) (fuel : Nat) {b b' : Beam} (M : SameWalk b b') :
    Alike SameWalk (h.walkFrontier query layer none fuel b)
      (h.walkFrontier query layer none fuel b') := by
  induction fuel generalizing b b' with
  | zero => exact .error _
  | succ fuel ih =>
    obtain ⟨deferred, tr, rfl⟩ := M
    obtain ⟨visited, frontier, results, ef, deferred₀, tr₀⟩ := b
    cases frontier with
    | nil =>
      rw [walkFrontier.eq_def, walkFrontier.eq_def]
      exact .ok ⟨deferred, tr, rfl⟩
    | cons c rest =>
      rw [walkFrontier_plain H fuel rfl, walkFrontier_plain H fuel rfl]
      dsimp only
      rw [show Beam.farthest ⟨visited, c :: rest, results, ef, deferred, tr⟩ =
        Beam.farthest ⟨visited, c :: rest, results, ef, deferred₀, tr₀⟩ from rfl]
      split_ifs
      · exact .ok ⟨deferred, tr, rfl⟩
      · exact (visitAll_same ⟨deferred, tr.countExpansion false, rfl⟩ _).bind fun _ _ M' => ih M'

/-- **An unfiltered layer search** finds the same, whatever the allowances are. -/
theorem searchLayer_same (H : InRange h) (seeds : List Nat) (ef layer : Nat) (tr tr' : Traversal) :
    Alike (fun r r' => r.1 = r'.1) (h.searchLayer query seeds ef layer none tr)
      (h.searchLayer query seeds ef layer none tr') := by
  unfold searchLayer
  refine (seedBeam_same ⟨[], tr', rfl⟩ seeds).bind fun b b' M => ?_
  rw [searchRounds_plain, searchRounds_plain]
  refine (walkFrontier_same H (h.n + 1) M).bind fun r r' M' => ?_
  obtain ⟨deferred, tr'', rfl⟩ := M'
  exact .ok rfl

/-! ## A beam of one -/

omit [Arith] in
theorem lt_trans_dist {a b c : F32} (hab : a.lt b = true) (hbc : b.lt c = true) : a.lt c = true := by
  simp only [F32.lt, Bool.and_eq_true, decide_eq_true_eq, Bool.not_eq_true'] at hab hbc ⊢
  exact ⟨⟨hab.1.1, hbc.1.2⟩, hab.2.trans hbc.2⟩

omit [Arith] in
/-- The numeric order is part of the order of the heap. -/
theorem lt_of_lt_dist {a b : Cand} (hlt : a.dist.lt b.dist = true) : a < b := by
  by_contra hnot
  have hsigned := F32.signed_le_of_totalKey_le (Cand.totalKey_le (not_lt.mp hnot))
  simp only [F32.lt, Bool.and_eq_true, decide_eq_true_eq] at hlt
  omega

omit [Arith] in
/-- What a heap of one makes of an offer: it keeps the nearer of the two. -/
theorem push_one {b : Beam} {c d : Cand} (hef : b.ef = 1) (hresults : b.results = [d]) :
    (b.push c true).results = [min c d] := by
  have hcut : b.ef < 2 := by omega
  rcases le_or_gt c d with hle | hlt
  · simp [Beam.push, hresults, hle, hcut]
  · simp [Beam.push, hresults, not_le.mpr hlt, hcut, min_eq_right hlt.le]

/-- No neighbor of `r` at `layer` is nearer. -/
def LocalMin (h : Hnsw) (query : List F32) (layer r : Nat) : Prop :=
  ∀ x ∈ h.nbrs r layer, (h.scored query x).dist.lt (h.scored query r).dist = false

/-- A beam of one that has come from `start` to `r`: of all nodes seen none is nearer. -/
structure Descends (h : Hnsw) (query : List F32) (start r : Nat) (b : Beam) : Prop where
  ef_eq : b.ef = 1
  results_eq : b.results = [h.scored query r]
  closer : r = start ∨ (h.scored query r).dist.lt (h.scored query start).dist = true
  nearest : ∀ v ∈ b.visited, (h.scored query v).dist.lt (h.scored query r).dist = false
  frontier_sorted : b.frontier.Pairwise (· ≤ ·)
  frontier_scored : ∀ c ∈ b.frontier, c = h.scored query c.id

/-- What a stretch of visits of `ids` does to a beam of one. -/
structure Ventures (h : Hnsw) (query : List F32) (start : Nat) (ids : List Nat) (r : Nat) (b b' : Beam)
    (r' : Nat) : Prop where
  descends : Descends h query start r' b'
  visited_sub : ∀ v ∈ b.visited, v ∈ b'.visited
  frontier_sub : ∀ c ∈ b.frontier, c ∈ b'.frontier
  seen : ∀ x ∈ ids, x ∈ b'.visited
  /-- A node moved to is still to be expanded. -/
  moved : r' = r ∨ h.scored query r' ∈ b'.frontier

section Single

variable (hlive : ∀ id < h.n, h.isDeleted id = false) {start r : Nat}

theorem Descends.farthest {b : Beam} (D : Descends h query start r b) :
    b.farthest = (h.scored query r).dist := by
  rw [Beam.farthest, D.results_eq]
  rfl

include hlive

/-- Visiting moves to a nearer node, or stays. -/
theorem Descends.visit {b : Beam} (D : Descends h query start r b) {id : Nat} (hid : id < h.n) :
    After (fun s => ∃ r', Ventures h query start [id] r b s.2 r') (h.visit query none b id) := by
  have hadm : h.admitted none id = true := (admitted_none id).mpr (hlive id hid)
  have hfull : ¬ b.results.length < b.ef := by
    rw [D.results_eq, D.ef_eq]
    exact lt_irrefl 1
  refine (visit_offers b id).mono ?_
  rintro s (⟨hseen, rfl⟩ | ⟨hnew, hfits, rfl⟩ | ⟨hnew, hfar, rfl⟩)
  · exact ⟨r, D, fun _ hv => hv, fun _ hc => hc, fun x hx => List.mem_singleton.mp hx ▸ hseen, .inl rfl⟩
  · have hlt : (h.scored query id).dist.lt (h.scored query r).dist = true :=
      D.farthest ▸ hfits.resolve_left hfull
    rw [hadm]
    refine ⟨id, ⟨D.ef_eq, ?_, .inr ?_, fun v hv => ?_, ?_, fun c hc => ?_⟩,
      fun v hv => List.mem_cons_of_mem _ hv, fun c hc => Beam.mem_push_frontier.mpr (.inr hc),
      fun x hx => List.mem_singleton.mp hx ▸ List.mem_cons_self,
      .inr (Beam.mem_push_frontier.mpr (.inl rfl))⟩
    · rw [push_one (b := b.see id) D.ef_eq D.results_eq, min_eq_left (lt_of_lt_dist hlt).le]
    · rcases D.closer with rfl | hcloser
      · exact hlt
      · exact lt_trans_dist hlt hcloser
    · rcases List.mem_cons.mp hv with rfl | hv
      · exact F32.lt_irrefl _
      · refine Bool.eq_false_of_not_eq_true fun hnearer => ?_
        have hcontra := D.nearest v hv
        rw [lt_trans_dist hnearer hlt] at hcontra
        cases hcontra
    · exact List.Pairwise.orderedInsert _ _ D.frontier_sorted
    · rcases Beam.mem_push_frontier.mp hc with rfl | hc
      · rfl
      · exact D.frontier_scored c hc
  · have hnot : (h.scored query id).dist.lt (h.scored query r).dist = false := by
      rw [← D.farthest]
      exact Bool.eq_false_of_not_eq_true fun hlt => hfar (.inr hlt)
    refine ⟨r, ⟨D.ef_eq, D.results_eq, D.closer, fun v hv => ?_, D.frontier_sorted, D.frontier_scored⟩,
      fun v hv => List.mem_cons_of_mem _ hv, fun _ hc => hc,
      fun x hx => List.mem_singleton.mp hx ▸ List.mem_cons_self, .inl rfl⟩
    rcases List.mem_cons.mp hv with rfl | hv
    · exact hnot
    · exact D.nearest v hv

theorem Descends.visitAll {b : Beam} (D : Descends h query start r b) {ids : List Nat}
    (hids : ∀ x ∈ ids, x < h.n) :
    After (fun b' => ∃ r', Ventures h query start ids r b b' r') (h.visitAll query none ids b) := by
  refine after_foldlM (fun done b' => ∃ r', Ventures h query start done r b b' r') ids ?_
    ⟨r, D, fun _ hv => hv, fun _ hc => hc, nofun, .inl rfl⟩
  rintro done x b₁ hx ⟨r₁, V₁⟩
  refine After.bind (V₁.descends.visit hlive (hids x hx)) ?_
  rintro s ⟨r₂, V₂⟩
  refine ⟨r₂, V₂.descends, fun v hv => V₂.visited_sub v (V₁.visited_sub v hv),
    fun c hc => V₂.frontier_sub c (V₁.frontier_sub c hc), fun y hy => ?_, ?_⟩
  · rcases List.mem_append.mp hy with hy | hy
    · exact V₂.visited_sub y (V₁.seen y hy)
    · exact V₂.seen y hy
  · rcases V₂.moved with rfl | hmoved
    · exact V₁.moved.imp id (V₂.frontier_sub _)
    · exact .inr hmoved

/-- **The walk of one** ends where no neighbor is nearer. -/
theorem walkFrontier_descends (H : InRange h) (fuel : Nat) {b : Beam}
    (D : Descends h query start r b)
    (hopen : h.scored query r ∈ b.frontier ∨ ∀ x ∈ h.nbrs r layer, x ∈ b.visited) :
    After (fun b' => ∃ r', b'.results = [h.scored query r'] ∧ LocalMin h query layer r' ∧
        (r' = start ∨ (h.scored query r').dist.lt (h.scored query start).dist = true))
      (h.walkFrontier query layer none fuel b) := by
  induction fuel generalizing b r with
  | zero => trivial
  | succ fuel ih =>
    -- the walk may only end once `r` has been expanded
    have hdone : ∀ b' : Beam, b'.results = b.results → (∀ x ∈ h.nbrs r layer, x ∈ b.visited) →
        ∃ r', b'.results = [h.scored query r'] ∧ LocalMin h query layer r' ∧
          (r' = start ∨ (h.scored query r').dist.lt (h.scored query start).dist = true) :=
      fun b' hb' hclosed => ⟨r, hb'.trans D.results_eq, fun x hx => D.nearest x (hclosed x hx), D.closer⟩
    cases hf : b.frontier with
    | nil =>
      rw [walkFrontier.eq_def]
      dsimp only
      rw [hf]
      refine hdone b rfl (hopen.resolve_left fun hmem => ?_)
      rw [hf] at hmem
      cases hmem
    | cons c rest =>
      have hsorted := D.frontier_sorted
      rw [hf] at hsorted hopen
      have hrest : ∀ d ∈ rest, d ∈ b.frontier := fun d hd => hf ▸ List.mem_cons_of_mem c hd
      rw [walkFrontier_plain H fuel hf, D.farthest]
      split_ifs with hcut
      · -- the held node cannot be among what is cut
        refine hdone _ rfl (hopen.resolve_left fun hmem => ?_)
        have hle : c ≤ h.scored query r := by
          rcases List.mem_cons.mp hmem with heq | hmem
          · exact heq.ge
          · exact (List.pairwise_cons.mp hsorted).1 _ hmem
        exact absurd hle (not_le.mpr (lt_of_lt_dist hcut))
      · have D₁ : Descends h query start r
            { b with frontier := rest, tr := b.tr.countExpansion false } :=
          { D with
            frontier_sorted := (List.pairwise_cons.mp hsorted).2
            frontier_scored := fun d hd => D.frontier_scored d (hrest d hd) }
        refine After.bind (D₁.visitAll hlive fun x hx => H.links_lt c.id layer x hx) ?_
        rintro b' ⟨r', V⟩
        refine ih V.descends ?_
        -- either `r` is still held, or what is held now has just been queued
        rcases V.moved with rfl | hmoved
        · rcases hopen with hmem | hclosed
          · rcases List.mem_cons.mp hmem with heq | hmem
            · exact .inr fun x hx => V.seen x (by rw [← heq]; exact hx)
            · exact .inl (V.frontier_sub _ hmem)
          · exact .inr fun x hx => V.visited_sub x (hclosed x hx)
        · exact .inl hmoved

end Single

/-! ## One layer of the descent -/

/-- The beam after its first seed. -/
theorem seedBeam_one (predicate : Option Predicate) (s ef : Nat) (tr : Traversal) :
    After (fun b => b = ((Beam.new ef tr).see s).push (h.scored query s) (h.admitted predicate s))
      (h.seedBeam query predicate [s] (Beam.new ef tr)) := by
  apply after_seed
  · intro hseen
    cases hseen
  · intro _
    rfl

/-- **Navigation of one layer** ends on a node none of whose neighbors is nearer. -/
theorem searchLayer_descends (H : InRange h) (hq : query.length = h.dim)
    (hlive : ∀ id < h.n, h.isDeleted id = false) {start : Nat} (hstart : start < h.n) (layer : Nat)
    (tr : Traversal) :
    Ensures (h.searchLayer query [start] 1 layer none tr) fun s =>
      ∃ r < h.n, s.1 = [h.scored query r] ∧ LocalMin h query layer r ∧
        (r = start ∨ (h.scored query r).dist.lt (h.scored query start).dist = true) := by
  have hadm : h.admitted none start = true := (admitted_none start).mpr (hlive start hstart)
  have hwalk : After (fun s : List Cand × Traversal => ∃ r, s.1 = [h.scored query r] ∧
      LocalMin h query layer r ∧
        (r = start ∨ (h.scored query r).dist.lt (h.scored query start).dist = true))
      (h.searchLayer query [start] 1 layer none tr) := by
    refine After.bind (seedBeam_one none start 1 tr) ?_
    rintro b rfl
    rw [hadm]
    have D : Descends h query start start
        (((Beam.new 1 tr).see start).push (h.scored query start) true) := by
      refine ⟨rfl, rfl, .inl rfl, fun v hv => ?_, List.pairwise_singleton _ _, fun c hc => ?_⟩
      · rw [List.mem_singleton.mp hv]
        exact F32.lt_irrefl _
      · rw [List.mem_singleton.mp hc]
        rfl
    rw [searchRounds_plain]
    refine After.bind (walkFrontier_descends hlive H (h.n + 1) D (.inl List.mem_cons_self)) ?_
    rintro b' ⟨r, hb', hrest⟩
    exact ⟨r, hb', hrest⟩
  refine (hwalk.of_ensures (searchLayer_spec H hq (fun x hx => List.mem_singleton.mp hx ▸ hstart) 1
    layer tr)).mono ?_
  rintro s ⟨⟨r, hs, hmin, hcloser⟩, F⟩
  exact ⟨r, F.lt (h.scored query r) (hs ▸ List.mem_cons_self), hs, hmin, hcloser⟩

/-- A beam of one that has nowhere to go from `r`. -/
structure Stays (h : Hnsw) (query : List F32) (r : Nat) (b : Beam) : Prop where
  ef_eq : b.ef = 1
  results_eq : b.results = [h.scored query r]
  farther : ∀ c ∈ b.frontier, c = h.scored query r ∨ (h.scored query r).dist.lt c.dist = true

theorem Stays.visitAll {r : Nat} {b : Beam} (S : Stays h query r b) {ids : List Nat}
    (hfar : ∀ x ∈ ids, (h.scored query x).dist.lt (h.scored query r).dist = false) :
    After (Stays h query r) (h.visitAll query none ids b) := by
  refine Run.after_foldlM_const (Stays h query r) ids (fun x b' hx S' => ?_) S
  refine After.bind (visit_offers b' x) ?_
  rintro s (⟨-, rfl⟩ | ⟨-, hfits, rfl⟩ | ⟨-, -, rfl⟩)
  · exact S'
  · rcases hfits with hroom | hlt
    · rw [S'.results_eq, S'.ef_eq] at hroom
      exact absurd hroom (lt_irrefl 1)
    · rw [Beam.farthest, S'.results_eq] at hlt
      have hnot := hfar x hx
      rw [show (h.scored query x).dist.lt (h.scored query r).dist = true from hlt] at hnot
      cases hnot
  · exact ⟨S'.ef_eq, S'.results_eq, S'.farther⟩

theorem walkFrontier_stays (H : InRange h) (hp : isFiltered predicate = true)
    (hmatch : ∀ id < h.n, h.nodeMatches id predicate = true) {r : Nat}
    (hmin : LocalMin h query layer r) (fuel : Nat) {b : Beam} (S : Stays h query r b) :
    After (Stays h query r) (h.walkFrontier query layer predicate fuel b) := by
  induction fuel generalizing b with
  | zero => trivial
  | succ fuel ih =>
    cases hf : b.frontier with
    | nil =>
      rw [walkFrontier.eq_def]
      dsimp only
      rw [hf]
      exact S
    | cons c rest =>
      have hrest : ∀ d ∈ rest, d ∈ b.frontier := fun d hd => hf ▸ List.mem_cons_of_mem c hd
      have hdropped : ∀ tr, Stays h query r { b with frontier := rest, tr } := fun tr =>
        ⟨S.ef_eq, S.results_eq, fun d hd => S.farther d (hrest d hd)⟩
      rw [walkFrontier_matching hmatch H hp fuel hf]
      by_cases hcut : c.dist.gt b.farthest = true ∧ b.ef ≤ b.results.length
      · rw [if_pos hcut]
        exact hdropped b.tr
      by_cases hspent : b.tr.expansions = 0
      · rw [if_neg hcut, if_pos hspent]
        exact hdropped b.tr
      rw [if_neg hcut, if_neg hspent]
      -- anything but `r` would have been cut
      have hc : c = h.scored query r := by
        refine (S.farther c (hf ▸ List.mem_cons_self)).resolve_right fun hlt => hcut ⟨?_, ?_⟩
        · rw [Beam.farthest, S.results_eq]
          exact hlt
        · rw [S.ef_eq, S.results_eq]
          exact le_rfl
      have hnbrs : ∀ x ∈ h.nbrs c.id layer,
          (h.scored query x).dist.lt (h.scored query r).dist = false := by
        rw [hc]
        exact hmin
      refine After.bind ((hdropped _).visitAll hnbrs) fun b' S' => ih ?_
      split_ifs
      · exact ⟨S'.ef_eq, S'.results_eq, S'.farther⟩
      · exact S'

/-- A second seed that is no nearer changes nothing. -/
theorem Stays.seed {r s : Nat} {b : Beam} (S : Stays h query r b) (hseen : r ∈ b.visited)
    (hadm : h.admitted predicate s = true)
    (hs : r = s ∨ (h.scored query r).dist.lt (h.scored query s).dist = true) :
    After (Stays h query r) (h.seedBeam query predicate [s] b) := by
  apply after_seed
  · exact fun _ => S
  · intro hnew
    have hlt := hs.resolve_left fun heq => hnew (heq ▸ hseen)
    rw [hadm]
    refine ⟨S.ef_eq, ?_, fun c hc => ?_⟩
    · show ((b.see s).push (h.scored query s) true).results = _
      rw [push_one (b := b.see s) S.ef_eq S.results_eq, min_eq_right (lt_of_lt_dist hlt).le]
    · rcases Beam.mem_push_frontier.mp hc with rfl | hc
      · exact .inr hlt
      · exact S.farther c hc

/-- **A probe** from where navigation has come to stays there, whatever its allowance is. -/
theorem searchLayer_stays (H : InRange h) (hq : query.length = h.dim)
    (hlive : ∀ id < h.n, h.isDeleted id = false) (hp : isFiltered predicate = true)
    (hmatch : ∀ id < h.n, h.nodeMatches id predicate = true) {r start : Nat} (hr : r < h.n)
    (hstart : start < h.n) (hlayer : layer ≠ 0) (hmin : LocalMin h query layer r)
    (hcloser : r = start ∨ (h.scored query r).dist.lt (h.scored query start).dist = true)
    {seeds : List Nat} (hseeds : seeds = [] ∨ seeds = [start]) (tr : Traversal) :
    Ensures (h.searchLayer query ([r] ++ seeds) 1 layer predicate tr) fun s =>
      s.1 = [h.scored query r] := by
  have hall : ∀ x ∈ [r] ++ seeds, x < h.n := by
    intro x hx
    rcases hseeds with rfl | rfl
    · rw [List.mem_singleton.mp hx]
      exact hr
    · rcases List.mem_cons.mp hx with rfl | hx
      · exact hr
      · rw [List.mem_singleton.mp hx]
        exact hstart
  have hadmitted : ∀ id < h.n, h.admitted predicate id = true := by
    intro id hid
    unfold admitted
    rw [hlive id hid, hmatch id hid]
    rfl
  have hfirst : After (fun b => Stays h query r b ∧ r ∈ b.visited)
      (h.seedBeam query predicate [r] (Beam.new 1 tr)) := by
    refine (seedBeam_one predicate r 1 tr).mono ?_
    rintro b rfl
    rw [hadmitted r hr]
    refine ⟨⟨rfl, rfl, fun c hc => .inl ?_⟩, List.mem_cons_self⟩
    rw [List.mem_singleton.mp hc]
  have hseeded : After (Stays h query r)
      (h.seedBeam query predicate ([r] ++ seeds) (Beam.new 1 tr)) := by
    rcases hseeds with rfl | rfl
    · exact hfirst.mono fun b hb => hb.1
    · show After _ ([r, start].foldlM _ (Beam.new 1 tr))
      rw [show [r, start] = [r] ++ [start] from rfl, List.foldlM_append]
      exact After.bind hfirst fun b hb => hb.1.seed hb.2 (hadmitted start hstart) hcloser
  have hwalk : After (fun s : List Cand × Traversal => s.1 = [h.scored query r])
      (h.searchLayer query ([r] ++ seeds) 1 layer predicate tr) := by
    refine After.bind hseeded fun b S => ?_
    refine After.bind (P := Stays h query r) ?_ fun b' S' => S'.results_eq
    unfold searchRounds
    -- above layer 0 there is one round
    refine After.bind (walkFrontier_stays H hp hmatch hmin (h.n + 1) S) fun b' S' => ?_
    rw [if_pos (by simp [hlayer])]
    exact S'
  exact (hwalk.of_ensures (searchLayer_spec H hq hall 1 layer tr)).mono fun s hs => hs.1

end Hnsw

end Brindle
