/-
# Brindle.Hnsw.Tombstones — what deleting rows does to an unfiltered search.

A tombstone is queued but never enters the result heap, and an unfiltered walk ends at the first
candidate farther than every result it holds, whether the heap is full or not. So a tombstone that far
out ends the walk, and what only it leads to is not found. That is the one thing a tombstone hides:
everything else the walk sees is opened, and every live node it sees is in the answer.
-/
import Brindle.Hnsw.FullBudget
import Brindle.Hnsw.Runs

namespace Brindle

open Outcome (Ensures ensures_pure)
open Run (After after_iff after_foldlM run Along)

/-! ## Distances that are numbers -/

namespace F32

/-- `total_cmp` orders no pair against the numeric order. -/
theorem signed_le_of_totalKey_le {a b : F32} (h : a.totalKey ≤ b.totalKey) :
    a.signed ≤ b.signed := by
  unfold totalKey at h
  unfold signed
  split_ifs at h ⊢ <;> omega

theorem lt_of_le_of_lt_of_le {a b c d : F32} (ha : a.isNan = false) (hd : d.isNan = false)
    (hab : a.totalKey ≤ b.totalKey) (hbc : b.lt c = true) (hcd : c.totalKey ≤ d.totalKey) :
    a.lt d = true := by
  have h₁ := signed_le_of_totalKey_le hab
  have h₂ := signed_le_of_totalKey_le hcd
  simp only [lt, Bool.and_eq_true, decide_eq_true_eq] at hbc
  simp only [lt, ha, hd, Bool.not_false, Bool.true_and, decide_eq_true_eq]
  omega

theorem lt_irrefl (a : F32) : a.lt a = false := by
  simp [lt]

end F32

theorem Cand.totalKey_le {a b : Cand} (h : a ≤ b) : a.dist.totalKey ≤ b.dist.totalKey := by
  have hkey : a.key ≤ b.key := h
  rcases (Prod.Lex.le_iff (α := Int) (β := Nat)).mp hkey with hlt | ⟨heq, -⟩
  · exact hlt.le
  · exact heq.le

/-- A hit is not past the farthest hit. -/
theorem Beam.not_gt_farthest {b : Beam} (hsorted : b.results.Pairwise (· ≤ ·)) {c : Cand}
    (hc : c ∈ b.results) : c.dist.gt b.farthest = false := by
  obtain ⟨last, -, hfar, hle⟩ := Beam.farthest_last hsorted (List.ne_nil_of_mem hc)
  have hsigned := F32.signed_le_of_totalKey_le (Cand.totalKey_le (hle c hc))
  rw [hfar, F32.gt, F32.lt, decide_eq_false (not_lt.mpr hsigned), Bool.and_false]

namespace Hnsw

variable [Arith] {h : Hnsw} {query : List F32} {predicate : Option Predicate} {layer : Nat}
  {within : Nat → Prop} {ef : Nat}

/-! ## Queues in order -/

/-- Both queues are in order and carry the metric's distances, and the heap holds what was seen. -/
structure Orderly (h : Hnsw) (query : List F32) (predicate : Option Predicate) (b : Beam) :
    Prop where
  ranked : Ranked h query b
  frontier_sorted : b.frontier.Pairwise (· ≤ ·)
  frontier_scored : ∀ c ∈ b.frontier, c = h.scored query c.id
  held : ∀ c ∈ b.results, c.id ∈ b.visited ∧ h.admitted predicate c.id = true

theorem Orderly.move {b b' : Beam} (hm : Move h query predicate within b b')
    (hb : Orderly h query predicate b) : Orderly h query predicate b' := by
  have hranked := Ranked.move hm hb.ranked
  have hsorted : ∀ id, ((b.see id).push (h.scored query id)
      (h.admitted predicate id)).frontier.Pairwise (· ≤ ·) := fun id =>
    List.Pairwise.orderedInsert _ _ hb.frontier_sorted
  have hscored : ∀ id, ∀ c ∈ ((b.see id).push (h.scored query id)
      (h.admitted predicate id)).frontier, c = h.scored query c.id := by
    intro id c hc
    rcases Beam.mem_push_frontier.mp hc with rfl | hc
    · rfl
    · exact hb.frontier_scored c hc
  have hheld : ∀ id, ∀ c ∈ ((b.see id).push (h.scored query id)
      (h.admitted predicate id)).results, c.id ∈ id :: b.visited ∧
        h.admitted predicate c.id = true := by
    intro id c hc
    have hold : c ∈ b.results → c.id ∈ id :: b.visited ∧ h.admitted predicate c.id = true :=
      fun hc => ⟨List.mem_cons_of_mem _ (hb.held c hc).1, (hb.held c hc).2⟩
    rcases Beam.mem_push_results hc with ⟨rfl, hadm⟩ | hc
    · exact ⟨List.mem_cons_self, hadm⟩
    · exact hold hc
  cases hm with
  | queue id => exact ⟨hranked, hsorted id, hscored id, hheld id⟩
  | route id => exact ⟨hranked, hsorted id, hscored id, hheld id⟩
  | skip id =>
    refine ⟨hranked, hb.frontier_sorted, hb.frontier_scored, fun c hc => ?_⟩
    exact ⟨List.mem_cons_of_mem _ (hb.held c hc).1, (hb.held c hc).2⟩

/-- Every node seen is one of `within`. -/
def Roams (within : Nat → Prop) (b : Beam) : Prop := ∀ v ∈ b.visited, within v

theorem Roams.move {b b' : Beam} (hm : Move h query predicate within b b') (hb : Roams within b) :
    Roams within b' := by
  have hcons : ∀ id, within id → ∀ v ∈ id :: b.visited, within v := by
    intro id hin v hv
    rcases List.mem_cons.mp hv with rfl | hv
    · exact hin
    · exact hb v hv
  cases hm with
  | queue id hin => exact hcons id hin
  | route id hin => exact hcons id hin
  | skip id hin => exact hcons id hin

omit [Arith] in
theorem sublist_tail {b : Beam} {c : Cand} {rest : List Cand} (hf : b.frontier = c :: rest) :
    rest.Sublist b.frontier := by
  rw [hf]
  exact List.sublist_cons_self c rest

/-! ## The unfiltered walk -/

section Walk

variable {seeds : List Nat} (H : InRange h) (hef : h.n ≤ ef) (hp : isFiltered predicate = false)
include H hef hp

omit hef in
/-- An unfiltered expansion sees all neighbors. -/
theorem expand_sees (b : Beam) {id : Nat} (hid : Around h layer seeds id) :
    After (fun r => r.1 = false ∧ Moves h query predicate (Around h layer seeds) b r.2 ∧
        ∀ x ∈ h.nbrs id layer, x ∈ r.2.visited)
      (h.expand query layer predicate b id) := by
  have hids : ∀ x ∈ h.nbrs id layer, Around h layer seeds x :=
    fun x hx => ⟨H.links_lt id layer x hx, hid.2.step hx⟩
  unfold expand
  rw [H.neighbors_eq, Outcome.ok_bind, hp]
  simp only [Bool.not_false, if_true]
  refine After.bind (visitAll_sees hids b) ?_
  rintro b' ⟨hm, hseen⟩
  exact ⟨rfl, hm, hseen⟩

/-- Every node seen is still queued or has had all its neighbors seen. -/
def Opened (h : Hnsw) (layer : Nat) (b : Beam) : Prop :=
  ∀ v ∈ b.visited, (∃ c ∈ b.frontier, c.id = v) ∨ ∀ x ∈ h.nbrs v layer, x ∈ b.visited

omit [Arith] H hef hp in
/-- An expansion that sees all neighbors of the popped candidate keeps it so. -/
theorem Opened.expanded {b b' : Beam} {c : Cand} {rest : List Cand} {tr : Traversal}
    (hb : Opened h layer b) (hf : b.frontier = c :: rest)
    (s : Swept { b with frontier := rest, tr } b') (hseen : ∀ x ∈ h.nbrs c.id layer, x ∈ b'.visited) :
    Opened h layer b' := by
  intro v hv
  by_cases hold : v ∈ b.visited
  · rcases hb v hold with ⟨d, hd, hid⟩ | hnbrs
    · rw [hf] at hd
      rcases List.mem_cons.mp hd with rfl | hd
      · exact .inr (hid ▸ hseen)
      · exact .inl ⟨d, s.frontier_sub d hd, hid⟩
    · exact .inr fun x hx => s.visited_sub x (hnbrs x hx)
  · exact .inl (s.queued v hv hold)

/-- A node farther than every result, of which there is one. -/
def Beyond (h : Hnsw) (query : List F32) (b : Beam) (v : Nat) : Prop :=
  b.results ≠ [] ∧ ∀ r ∈ b.results, r.dist.lt (h.scored query v).dist = true

/-- What an unfiltered walk leaves: a node seen has had all its neighbors seen, or is beyond every
result. -/
structure Veiled (h : Hnsw) (query : List F32) (predicate : Option Predicate) (ef layer : Nat)
    (seeds : List Nat) (b b' : Beam) : Prop where
  ample : Ample h query predicate ef b'
  roams : Roams (Around h layer seeds) b'
  orderly : Orderly h query predicate b'
  visited_sub : ∀ v ∈ b.visited, v ∈ b'.visited
  opened : ∀ v ∈ b'.visited, (∀ x ∈ h.nbrs v layer, x ∈ b'.visited) ∨ Beyond h query b' v

variable (hnan : ∀ id < h.n, (h.scored query id).dist.isNan = false)
include hnan

omit H hef hp in
/-- Where the walk is cut, everything still queued is beyond every result. -/
theorem beyond_of_cut {b : Beam} (A : Ample h query predicate ef b)
    (O : Orderly h query predicate b) {c : Cand} {rest : List Cand} (hf : b.frontier = c :: rest)
    (hcut : c.dist.gt b.farthest = true) {d : Cand} (hd : d ∈ b.frontier) (hlt : d.id < h.n) :
    Beyond h query b d.id := by
  have hcd : c ≤ d := by
    have hsorted := O.frontier_sorted
    rw [hf] at hd hsorted
    rcases List.mem_cons.mp hd with rfl | hd
    · exact le_rfl
    · exact (List.pairwise_cons.mp hsorted).1 d hd
  have hdnan : d.dist.isNan = false := by
    rw [O.frontier_scored d hd]
    exact hnan d.id hlt
  by_cases hne : b.results = []
  · rw [Beam.farthest, hne] at hcut
    simp only [List.getLast?_nil, F32.gt, F32.not_infinity_lt] at hcut
    cases hcut
  · obtain ⟨last, -, hfar, hlast⟩ := Beam.farthest_last O.ranked.1 hne
    rw [hfar] at hcut
    refine ⟨hne, fun r hr => ?_⟩
    have hrnan : r.dist.isNan = false := by
      rw [O.ranked.2 r hr]
      exact hnan r.id (A.lt r.id (O.held r hr).1)
    rw [← O.frontier_scored d hd]
    exact F32.lt_of_le_of_lt_of_le hrnan hdnan (Cand.totalKey_le (hlast r hr)) hcut
      (Cand.totalKey_le hcd)

theorem walkFrontier_veiled (fuel : Nat) {b : Beam} (A : Ample h query predicate ef b)
    (O : Orderly h query predicate b) (hin : Inside (Around h layer seeds) b)
    (hv : Roams (Around h layer seeds) b) (hb : Opened h layer b) :
    After (Veiled h query predicate ef layer seeds b)
      (h.walkFrontier query layer predicate fuel b) := by
  induction fuel generalizing b with
  | zero => trivial
  | succ fuel ih =>
    rw [walkFrontier.eq_def]
    dsimp only
    split
    · next hf =>
      refine ⟨A, hv, O, fun _ hv => hv, fun v hv => ?_⟩
      rcases hb v hv with ⟨c, hc, -⟩ | hnbrs
      · rw [hf] at hc
        cases hc
      · exact .inl hnbrs
    · next c rest hf =>
      have hc : Around h layer seeds c.id := hin.1 c (by rw [hf]; exact List.mem_cons_self)
      have hrest : ∀ d ∈ rest, Around h layer seeds d.id := fun d hd =>
        hin.1 d (by rw [hf]; exact List.mem_cons_of_mem c hd)
      have O₁ : ∀ tr, Orderly h query predicate { b with frontier := rest, tr } := fun tr =>
        { ranked := O.ranked
          frontier_sorted := O.frontier_sorted.sublist (sublist_tail hf)
          frontier_scored := fun d hd => O.frontier_scored d ((sublist_tail hf).subset hd)
          held := O.held }
      rw [hp]
      split_ifs with hcut hspent
      · -- what is still queued is at least as far as the one cut at
        simp only [Bool.not_false, Bool.true_or, Bool.and_true] at hcut
        refine ⟨{ A with }, hv, O₁ b.tr, fun _ hv => hv, fun v hv => ?_⟩
        rcases hb v hv with ⟨d, hd, rfl⟩ | hnbrs
        · exact .inr (beyond_of_cut hnan A O hf hcut hd (A.lt d.id hv))
        · exact .inl hnbrs
      · cases hspent
      · have A₁ : Ample h query predicate ef
            { b with frontier := rest, tr := b.tr.countExpansion false } := { A with }
        refine After.bind (expand_sees H hp _ hc) ?_
        rintro ⟨bridged, b₂⟩ ⟨hfalse, hm, hseen⟩
        obtain ⟨A₂, s⟩ := A₁.moves hef (fun _ hid => hid.1) hm
        have O₂ : Orderly h query predicate b₂ :=
          Moves.keeps (fun _ _ => Orderly.move) hm (O₁ _)
        have hin₂ : Inside (Around h layer seeds) b₂ :=
          Moves.keeps (fun _ _ => Inside.move) hm ⟨hrest, hin.2⟩
        have hb₂ : Opened h layer b₂ := hb.expanded hf s hseen
        have hv₂ : Roams (Around h layer seeds) b₂ := Moves.keeps (fun _ _ => Roams.move) hm hv
        refine (ih A₂ O₂ hin₂ hv₂ hb₂).mono fun b' e => ?_
        exact { e with visited_sub := fun v hv => e.visited_sub v (s.visited_sub v hv) }

end Walk

/-- What an unfiltered search of layer 0 sees from `seeds`. -/
structure Seen (h : Hnsw) (query : List F32) (seeds : List Nat) (V : Nat → Prop) : Prop where
  seeded : ∀ s ∈ seeds, V s
  around : ∀ v, V v → v < h.n ∧ Reach (h.adj 0) seeds v
  /-- A node that was not opened is farther than every live one seen, and there is one. -/
  opened : ∀ v, V v → (∀ x ∈ h.nbrs v 0, V x) ∨
    ((∃ id, V id ∧ h.isDeleted id = false) ∧ ∀ id, V id → h.isDeleted id = false →
      (h.scored query id).dist.lt (h.scored query v).dist = true)

omit [Arith] in
theorem admitted_none (id : Nat) : h.admitted none id = true ↔ h.isDeleted id = false := by
  simp [admitted, nodeMatches]

/-- **An unfiltered search of layer 0** with room for every node returns the live nodes it sees. -/
theorem searchLayer_seen (H : InRange h) (hq : query.length = h.dim)
    (hnan : ∀ id < h.n, (h.scored query id).dist.isNan = false) {seeds : List Nat}
    (hseeds : ∀ x ∈ seeds, x < h.n) (hef : h.n ≤ ef) (tr : Traversal) :
    Ensures (h.searchLayer query seeds ef 0 none tr) fun r =>
      ∃ V, Seen h query seeds V ∧
        Ranking h query (fun id => V id ∧ h.isDeleted id = false) r.1 := by
  have hseen : After (fun r : List Cand × Traversal => ∃ V, Seen h query seeds V ∧
      (∀ c ∈ r.1, c = h.scored query c.id) ∧ r.1.Pairwise (· ≤ ·) ∧
      ∀ id, h.scored query id ∈ r.1 ↔ V id ∧ h.isDeleted id = false)
      (h.searchLayer query seeds ef 0 none tr) := by
    have A₀ : Ample h query none ef (Beam.new ef tr) :=
      ⟨rfl, List.nodup_nil, nofun, le_rfl, nofun⟩
    have O₀ : Orderly h query none (Beam.new ef tr) :=
      ⟨⟨List.Pairwise.nil, nofun⟩, List.Pairwise.nil, nofun, nofun⟩
    refine After.bind (seedBeam_covers 0 (Beam.new ef tr) hseeds) ?_
    rintro b₁ ⟨hm, hseeded⟩
    obtain ⟨A₁, s⟩ := A₀.moves hef (fun _ hid => hid.1) hm
    have O₁ : Orderly h query none b₁ := Moves.keeps (fun _ _ => Orderly.move) hm O₀
    have hin : Inside (Around h 0 seeds) b₁ :=
      Moves.keeps (fun _ _ => Inside.move) hm ⟨nofun, nofun⟩
    have hv₁ : Roams (Around h 0 seeds) b₁ := Moves.keeps (fun _ _ => Roams.move) hm nofun
    have hb₁ : Opened h 0 b₁ := fun v hv => .inl (s.queued v hv List.not_mem_nil)
    have hrounds : After (Veiled h query none ef 0 seeds b₁)
        (h.searchRounds query 0 none (h.n + 1) b₁) := by
      rw [searchRounds_plain]
      exact walkFrontier_veiled H hef rfl hnan (h.n + 1) A₁ O₁ hin hv₁ hb₁
    refine After.bind hrounds fun b₂ e => ?_
    have hmem : ∀ id, h.scored query id ∈ b₂.results ↔
        id ∈ b₂.visited ∧ h.isDeleted id = false := by
      intro id
      constructor
      · intro hid
        obtain ⟨hvisited, hadm⟩ := e.orderly.held _ hid
        exact ⟨hvisited, (admitted_none id).mp hadm⟩
      · rintro ⟨hvisited, hlive⟩
        exact e.ample.kept id hvisited ((admitted_none id).mpr hlive)
    refine ⟨fun v => v ∈ b₂.visited, ⟨fun x hx => e.visited_sub x (hseeded x hx), e.roams, ?_⟩,
      e.orderly.ranked.2, e.orderly.ranked.1, hmem⟩
    intro v hv
    rcases e.opened v hv with hnbrs | ⟨hsome, hfar⟩
    · exact .inl hnbrs
    · obtain ⟨c, hc⟩ := List.exists_mem_of_ne_nil _ hsome
      obtain ⟨hvisited, hadm⟩ := e.orderly.held c hc
      refine .inr ⟨⟨c.id, hvisited, (admitted_none c.id).mp hadm⟩, fun id hid hlive => ?_⟩
      exact hfar _ ((hmem id).mpr ⟨hid, hlive⟩)
  refine (hseen.of_ensures (searchLayer_spec H hq hseeds ef 0 tr)).mono ?_
  rintro ⟨w, tr'⟩ ⟨⟨V, S, hscored, hsorted, hmem⟩, F⟩
  exact ⟨V, S, pairwise_lt_of_nodup hsorted F.nodup, hscored, hmem⟩

/-- **An unfiltered search** with room for every node returns the nearest `k` of the live nodes it
sees from its start set. -/
theorem search_seen (W : WellFormed h) (hq : query.length = h.dim)
    (hnan : ∀ id < h.n, (h.scored query id).dist.isNan = false) (k : Nat) {efSearch : Nat}
    (hef : h.n ≤ efSearch) :
    Ensures (h.startSet query none (max efSearch k)) fun start =>
      ∃ V found, Seen h query start V ∧
        Ranking h query (fun id => V id ∧ h.isDeleted id = false) found ∧
        h.search query k efSearch = .ok ((found.take k).map fun c => (c.dist, c.id)) := by
  unfold startSet search searchInner
  cases he : h.entryPoint with
  | none =>
    refine ensures_pure.mpr ⟨fun _ => False, [], ⟨nofun, nofun, nofun⟩,
      ⟨List.Pairwise.nil, nofun, fun id => ⟨fun hid => ?_, fun hid => hid.1.elim⟩⟩, ?_⟩
    · cases hid
    · rw [List.take_nil]
      rfl
  | some entry =>
    have hentry : ∀ x ∈ [entry], x < h.n := fun x hx =>
      List.mem_singleton.mp hx ▸ W.entry_lt entry he
    simp only [isFiltered, Bool.false_eq_true, if_false, if_neg (not_not.mpr hq)]
    have hdescend : Ensures (h.descend query none (upperLayers h.maxLayer) [entry] []
        Traversal.unfiltered) _ :=
      descend_spec W.toInRange hq (upperLayers h.maxLayer) hentry
    obtain ⟨⟨eps, seeds, tr⟩, hrun, heps, hseeds⟩ := hdescend
    have hall : ∀ x ∈ eps ++ seeds, x < h.n := fun x hx =>
      (List.mem_append.mp hx).elim (heps x) (hseeds x)
    obtain ⟨⟨w, tr'⟩, hlayer, V, S, hranking⟩ := searchLayer_seen W.toInRange hq hnan hall
      (hef.trans (Nat.le_max_left efSearch k)) tr
    rw [hrun]
    refine ensures_pure.mpr ⟨V, w, S, hranking, ?_⟩
    by_cases hk : k = 0
    · rw [if_pos hk, hk]
      rfl
    · rw [if_neg hk]
      simp only [Outcome.ok_bind, hlayer]
      rfl

/-! ## Deleting rows -/

omit [Arith] in
/-- Delete every row of `ids`. -/
def deleteAll (h : Hnsw) (ids : List Nat) : Except HnswError Hnsw :=
  ids.foldlM (fun h id => h.delete id) h

omit [Arith] in
theorem deleteAll_ok {h : Hnsw} (W : WellFormed h) {ids : List Nat} (hids : ∀ id ∈ ids, id < h.n) :
    ∃ deleted, h.deleteAll ids = .ok { h with deleted } ∧ WellFormed { h with deleted } ∧
      ∀ x, deleted.getD x false = true ↔ h.isDeleted x = true ∨ x ∈ ids := by
  induction ids generalizing h with
  | nil => exact ⟨h.deleted, rfl, W, by simp [isDeleted]⟩
  | cons id ids ih =>
    have hid : id < h.deleted.length := by
      rw [W.deleted_len]
      exact hids id List.mem_cons_self
    have hdel := delete_eq_ok hid
    have W' := W.delete hdel
    obtain ⟨deleted, hrun, W'', hmem⟩ := ih W' fun x hx => hids x (List.mem_cons_of_mem id hx)
    refine ⟨deleted, ?_, W'', fun x => ?_⟩
    · unfold deleteAll at hrun ⊢
      rw [List.foldlM_cons, hdel]
      exact hrun
    · have hset : ({ h with deleted := h.deleted.set id true } : Hnsw).isDeleted x = true ↔
          h.isDeleted x = true ∨ x = id := by
        unfold isDeleted
        rw [List.getD_eq_getElem?_getD, List.getElem?_set, List.getD_eq_getElem?_getD]
        by_cases hx : id = x
        · subst hx
          simp [hid]
        · rw [if_neg hx]
          simp [Ne.symm hx]
      rw [hmem, hset, List.mem_cons, or_assoc]

/-! ## What the tombstones hide -/

omit [Arith] in
/-- Two lists of the same nodes, nearest first, are the same list. -/
theorem Ranking.unique [Arith] {P Q : Nat → Prop} {full full' : List Cand}
    (R : Ranking h query P full) (R' : Ranking h query Q full') (hPQ : ∀ id, P id ↔ Q id) :
    full = full' := by
  have hmem : ∀ c, c ∈ full ↔ c ∈ full' := by
    intro c
    constructor
    · intro hc
      have hscored := R.scored c hc
      rw [hscored] at hc ⊢
      exact (R'.mem_iff _).mpr ((hPQ _).mp ((R.mem_iff _).mp hc))
    · intro hc
      have hscored := R'.scored c hc
      rw [hscored] at hc ⊢
      exact (R.mem_iff _).mpr ((hPQ _).mpr ((R'.mem_iff _).mp hc))
  have hperm : full.Perm full' := (List.perm_ext_iff_of_nodup
    (R.sorted.imp fun hlt => hlt.ne) (R'.sorted.imp fun hlt => hlt.ne)).mpr hmem
  exact hperm.eq_of_pairwise (fun a b _ _ hab hba => absurd hab (lt_asymm hba)) R.sorted R'.sorted

omit [Arith] in
/-- A ranking of stored nodes holds each of them once. -/
theorem Ranking.length_le [Arith] {P : Nat → Prop} {full : List Cand} (R : Ranking h query P full)
    (hlt : ∀ id, P id → id < h.n) : full.length ≤ h.n := by
  have hnodup : (full.map Cand.id).Nodup := by
    refine List.Nodup.map_on (fun c hc d hd hid => ?_) (R.sorted.imp fun hlt => hlt.ne)
    rw [R.scored c hc, R.scored d hd, hid]
  have hsub : full.map Cand.id ⊆ List.range h.n := by
    intro id hid
    obtain ⟨c, hc, rfl⟩ := List.mem_map.mp hid
    have hscored := R.scored c hc
    rw [hscored] at hc
    exact List.mem_range.mpr (hlt c.id ((R.mem_iff _).mp hc))
  simpa using (List.Nodup.subperm hnodup hsub).length_le

theorem Ranking.filter {P : Nat → Prop} {full : List Cand} (R : Ranking h query P full)
    (Q : Nat → Bool) : Ranking h query (fun id => P id ∧ Q id = true) (full.filter (Q ·.id)) where
  sorted := R.sorted.filter _
  scored c hc := R.scored c (List.mem_of_mem_filter hc)
  mem_iff id := by
    rw [List.mem_filter, R.mem_iff]
    rfl

/-- Every tombstone among `ids` that `start` leads to is no farther than some other node that `start`
leads to without passing one. -/
def Shielded (h : Hnsw) (query : List F32) (ids start : List Nat) : Prop :=
  ∀ t ∈ ids, Reach (h.adj 0) start t →
    ∃ x, x ∉ ids ∧ Reach (fun id => if id ∈ ids then [] else h.adj 0 id) start x ∧
      (h.scored query x).dist.lt (h.scored query t).dist = false

omit [Arith] in
/-- A node on the way from `start` to `x` that was not opened, where `x` was not seen. -/
theorem exists_unopened {adj : Nat → List Nat} {start : List Nat} {V : Nat → Prop}
    (hseeded : ∀ s ∈ start, V s) {x : Nat} (hx : Reach adj start x) (hV : ¬ V x) :
    ∃ v, V v ∧ Reach adj [v] x ∧ ¬ ∀ y ∈ adj v, V y := by
  obtain ⟨s, hs, hpath⟩ := hx
  have hfrom := hseeded s hs
  clear hs
  induction hpath using Relation.ReflTransGen.head_induction_on with
  | refl => exact absurd hfrom hV
  | head hstep hrest ih =>
    rename_i a c
    by_cases hc : V c
    · exact ih hc
    · refine ⟨a, hfrom, ⟨a, List.mem_cons_self, .head hstep hrest⟩, fun hall => hc ?_⟩
      exact hall c hstep

section Hidden

variable {start : List Nat} {V : Nat → Prop} (S : Seen h query start V)
include S

/-- A node seen and not opened is a tombstone, farther than every live node seen. -/
theorem Seen.unopened {v : Nat} (hV : V v) (hclosed : ¬ ∀ x ∈ h.nbrs v 0, V x) :
    h.isDeleted v ≠ false ∧ (∃ id, V id ∧ h.isDeleted id = false) ∧
      ∀ id, V id → h.isDeleted id = false →
        (h.scored query id).dist.lt (h.scored query v).dist = true := by
  rcases S.opened v hV with hnbrs | ⟨hsome, hfar⟩
  · exact absurd hnbrs hclosed
  · refine ⟨fun hlive => ?_, hsome, hfar⟩
    have hself := hfar v hV hlive
    rw [F32.lt_irrefl] at hself
    cases hself

/-- A node reached and not seen lies behind such a tombstone. -/
theorem Seen.hidden {x : Nat} (hreach : Reach (h.adj 0) start x) (hx : ¬ V x) :
    ∃ t, V t ∧ h.isDeleted t ≠ false ∧ Reach (h.adj 0) [t] x ∧
      (∃ id, V id ∧ h.isDeleted id = false) ∧
      ∀ id, V id → h.isDeleted id = false →
        (h.scored query id).dist.lt (h.scored query t).dist = true := by
  obtain ⟨t, hV, hfrom, hclosed⟩ := exists_unopened S.seeded hreach hx
  obtain ⟨hdead, hsome, hfar⟩ := S.unopened hV hclosed
  exact ⟨t, hV, hdead, hfrom, hsome, hfar⟩

/-- What is reached without passing a tombstone has been seen. -/
theorem Seen.open_way {ids : List Nat} (hids : ∀ v, V v → h.isDeleted v ≠ false → v ∈ ids) {x : Nat}
    (hx : Reach (fun id => if id ∈ ids then [] else h.adj 0 id) start x) : V x := by
  refine Reach.of_closed S.seeded (fun a _ ha b hb => ?_) hx
  split_ifs at hb with hin
  · cases hb
  · by_contra hnot
    exact hin (hids a ha (S.unopened ha fun hall => hnot (hall b hb)).1)

/-- Without tombstones everything reached has been seen. -/
theorem Seen.iff_reach (hlive : ∀ id < h.n, h.isDeleted id = false) (id : Nat) :
    (V id ∧ h.isDeleted id = false) ↔ Reach (h.adj 0) start id := by
  constructor
  · exact fun hid => (S.around id hid.1).2
  · intro hreach
    have hV : V id := by
      by_contra hnot
      obtain ⟨t, ht, hdead, -⟩ := S.hidden hreach hnot
      exact hdead (hlive t (S.around t ht).1)
    exact ⟨hV, hlive id (S.around id hV).1⟩

end Hidden

/-- **Searching after deletes.** With room for every node, an unfiltered search returns the nearest `k`
of a set of live nodes that layer 0 leads to from where the descent ends. A live node it leaves out
lies behind a deleted one farther than every node of the set. Where the descent ends where it did
before the deletes and every deleted node is shielded, nothing is left out, and the answer is what the
search before the deletes returned without the deleted rows. -/
theorem search_after_deletes (h : Hnsw) (W : WellFormed h)
    (hlive : ∀ id < h.n, h.isDeleted id = false) (ids : List Nat) (hids : ∀ id ∈ ids, id < h.n)
    (query : List F32) (hq : query.length = h.dim)
    (hnan : ∀ id < h.n, (h.scored query id).dist.isNan = false) (k efSearch : Nat)
    (hef : h.n ≤ efSearch) :
    ∃ g, h.deleteAll ids = .ok g ∧
      Ensures (g.startSet query none (max efSearch k)) fun start =>
        ∃ S found, Ranking h query S found ∧
          (∀ id, S id → id ∉ ids ∧ Reach (h.adj 0) start id) ∧
          g.search query k efSearch = .ok ((found.take k).map fun c => (c.dist, c.id)) ∧
          (∀ x, x ∉ ids → Reach (h.adj 0) start x → ¬ S x →
            ∃ t ∈ ids, Reach (h.adj 0) start t ∧ Reach (h.adj 0) [t] x ∧ (∃ id, S id) ∧
              ∀ id, S id → (h.scored query id).dist.lt (h.scored query t).dist = true) ∧
          (h.startSet query none (max efSearch h.n) = .ok start → h.Shielded query ids start →
            Ensures (h.search query h.n efSearch) fun full =>
              g.search query k efSearch = .ok ((full.filter (·.2 ∉ ids)).take k)) := by
  obtain ⟨deleted, hdel, W', hmem⟩ := deleteAll_ok W hids
  refine ⟨{ h with deleted }, hdel, ?_⟩
  have hgone : ∀ id < h.n, ({ h with deleted } : Hnsw).isDeleted id = false ↔ id ∉ ids := by
    intro id hid
    have hiff := hmem id
    rw [hlive id hid] at hiff
    show deleted.getD id false = false ↔ _
    rw [← Bool.not_eq_true, hiff]
    simp
  refine (search_seen W' hq hnan k hef).mono ?_
  rintro start ⟨V, found, SV, R, hsearch⟩
  have hout : ∀ id, V id → (({ h with deleted } : Hnsw).isDeleted id = false ↔ id ∉ ids) :=
    fun id hV => hgone id (SV.around id hV).1
  have hin : ∀ id, V id → ({ h with deleted } : Hnsw).isDeleted id ≠ false → id ∈ ids :=
    fun id hV hdead => by_contra fun hnot => hdead ((hout id hV).mpr hnot)
  have hhidden : ∀ x, x ∉ ids → Reach (h.adj 0) start x →
      ¬ (V x ∧ ({ h with deleted } : Hnsw).isDeleted x = false) →
      ∃ t ∈ ids, V t ∧ Reach (h.adj 0) [t] x ∧
        (∃ id, V id ∧ ({ h with deleted } : Hnsw).isDeleted id = false) ∧
        ∀ id, V id ∧ ({ h with deleted } : Hnsw).isDeleted id = false →
          (h.scored query id).dist.lt (h.scored query t).dist = true := by
    intro x hx hreach hnot
    obtain ⟨t, hV, hdead, hfrom, hsome, hfar⟩ :=
      SV.hidden hreach fun hV => hnot ⟨hV, (hout x hV).mpr hx⟩
    exact ⟨t, hin t hV hdead, hV, hfrom, hsome, fun id hid => hfar id hid.1 hid.2⟩
  refine ⟨fun id => V id ∧ ({ h with deleted } : Hnsw).isDeleted id = false, found, ?_, ?_,
    hsearch, ?_, ?_⟩
  · exact ⟨R.sorted, R.scored, R.mem_iff⟩
  · rintro id ⟨hV, hid⟩
    exact ⟨(hout id hV).mp hid, (SV.around id hV).2⟩
  · intro x hx hreach hnot
    obtain ⟨t, ht, hV, hfrom, hsome, hfar⟩ := hhidden x hx hreach hnot
    exact ⟨t, ht, (SV.around t hV).2, hfrom, hsome, hfar⟩
  · intro hstart hshield
    -- the node that shields a tombstone has been seen, and is not nearer than it
    have hcomplete : ∀ x, (V x ∧ ({ h with deleted } : Hnsw).isDeleted x = false) ↔
        Reach (h.adj 0) start x ∧ decide (x ∉ ids) = true := by
      intro x
      rw [decide_eq_true_eq]
      constructor
      · rintro ⟨hV, hid⟩
        exact ⟨(SV.around x hV).2, (hout x hV).mp hid⟩
      · rintro ⟨hreach, hx⟩
        by_contra hnot
        obtain ⟨t, ht, hV, -, -, hfar⟩ := hhidden x hx hreach hnot
        obtain ⟨y, hy, hyreach, hnear⟩ := hshield t ht (SV.around t hV).2
        have hVy : V y := SV.open_way hin hyreach
        have hlt := hfar y ⟨hVy, (hout y hVy).mpr hy⟩
        rw [hnear] at hlt
        cases hlt
    obtain ⟨V₀, found₀, S₀, R₀, hsearch₀⟩ := (search_seen W hq hnan h.n hef).elim hstart
    have hfound : found = found₀.filter (fun c => decide (c.id ∉ ids)) := by
      have R' : Ranking h query (fun id => V id ∧ ({ h with deleted } : Hnsw).isDeleted id = false)
          found := ⟨R.sorted, R.scored, R.mem_iff⟩
      refine R'.unique (R₀.filter fun id => decide (id ∉ ids)) fun id => ?_
      rw [hcomplete id, S₀.iff_reach hlive id]
    have hlength : found₀.length ≤ h.n := R₀.length_le fun id hid => (S₀.around id hid.1).1
    rw [List.take_of_length_le hlength] at hsearch₀
    refine ⟨_, hsearch₀, ?_⟩
    rw [hsearch, hfound]
    show _ = Except.ok (((found₀.map fun c => (c.dist, c.id)).filter _).take k)
    rw [List.filter_map, List.map_take]
    rfl

omit [Arith] in
/-- The whole price list. With the second and the third row deleted the fifth hides behind them; with
the first and the third it does not, and nothing else goes missing. -/
theorem search_after_deletes_priced :
    Ensures pricedGraph fun h =>
      (∃ g, h.deleteAll [1, 2] = .ok g ∧
        Ensures (@search Arith.ieee g pricedQuery 4 6) (·.map Prod.snd = [3, 0, 5]) ∧
        Ensures (@startSet Arith.ieee g pricedQuery none (max 6 4)) fun start =>
          ∃ S found, @Ranking Arith.ieee h pricedQuery S found ∧
            (∀ id, S id → id ∉ [1, 2] ∧ Reach (h.adj 0) start id) ∧
            @search Arith.ieee g pricedQuery 4 6 =
              .ok ((found.take 4).map fun c => (c.dist, c.id)) ∧
            (∀ x, x ∉ [1, 2] → Reach (h.adj 0) start x → ¬ S x →
              ∃ t ∈ [1, 2], Reach (h.adj 0) start t ∧ Reach (h.adj 0) [t] x ∧ (∃ id, S id) ∧
                ∀ id, S id → (@scored Arith.ieee h pricedQuery id).dist.lt
                  (@scored Arith.ieee h pricedQuery t).dist = true) ∧
            (@startSet Arith.ieee h pricedQuery none (max 6 h.n) = .ok start →
              @Shielded Arith.ieee h pricedQuery [1, 2] start →
              Ensures (@search Arith.ieee h pricedQuery h.n 6) fun full =>
                @search Arith.ieee g pricedQuery 4 6 = .ok ((full.filter (·.2 ∉ [1, 2])).take 4))) ∧
      ∃ g, h.deleteAll [0, 2] = .ok g ∧
        Ensures (@search Arith.ieee g pricedQuery 4 6) (·.map Prod.snd = [3, 5, 1, 4]) ∧
        Ensures (@search Arith.ieee h pricedQuery h.n 6) fun full =>
          @search Arith.ieee g pricedQuery 4 6 = .ok ((full.filter (·.2 ∉ [0, 2])).take 4) := by
  let := Arith.ieee
  obtain ⟨h, hrun, W⟩ := pricedGraph_wellFormed
  have hfacts : Ensures pricedGraph fun h =>
      (h.n = 6 ∧ pricedQuery.length = h.dim ∧ (∀ id < h.n, h.isDeleted id = false) ∧
        ∀ id < h.n, (h.scored pricedQuery id).dist.isNan = false) ∧
      (∃ g ∈ (h.deleteAll [1, 2]).toOption,
        Ensures (g.search pricedQuery 4 6) (·.map Prod.snd = [3, 0, 5])) ∧
      (∃ g ∈ (h.deleteAll [0, 2]).toOption,
        Ensures (g.search pricedQuery 4 6) (·.map Prod.snd = [3, 5, 1, 4]) ∧
          g.startSet pricedQuery none (max 6 4) = .ok [3]) ∧
      h.startSet pricedQuery none (max 6 h.n) = .ok [3] ∧
      (1 ∈ h.nbrs 3 0 ∧ 4 ∈ h.nbrs 1 0) ∧
      ∀ t ∈ [0, 2], (h.scored pricedQuery 4).dist.lt (h.scored pricedQuery t).dist = false := by
    decide +kernel
  obtain ⟨⟨hn, hdim, hlive, hnan⟩, ⟨g₁, hg₁, hhidden⟩, ⟨g₂, hg₂, hkept, hsame⟩, hstart,
    ⟨hfirst, hsecond⟩, hfar⟩ := hfacts.elim hrun
  have hids : ∀ ids ⊆ List.range 6, ∀ id ∈ ids, id < h.n := fun ids hsub id hid =>
    hn ▸ List.mem_range.mp (hsub hid)
  obtain ⟨g, hdel, hsearch⟩ := search_after_deletes h W hlive [1, 2] (hids _ (by decide))
    pricedQuery hdim hnan 4 6 hn.le
  obtain ⟨g', hdel', start, hstart', S, found, -, -, -, -, hshielded⟩ := search_after_deletes h W
    hlive [0, 2] (hids _ (by decide)) pricedQuery hdim hnan 4 6 hn.le
  rw [hdel] at hg₁
  rw [hdel'] at hg₂
  cases hg₁
  cases hg₂
  cases hsame.symm.trans hstart'
  refine ⟨h, hrun, ⟨g₁, hdel, hhidden, hsearch⟩, g₂, hdel', hkept, hshielded hstart ?_⟩
  -- the fifth row is the farthest, and the fourth and the second lead to it
  intro t ht _
  refine ⟨4, by decide, ?_, hfar t ht⟩
  have hroot : Reach (fun id => if id ∈ [0, 2] then [] else h.adj 0 id) [3] 3 :=
    Reach.of_seed List.mem_cons_self
  have hnext : Reach (fun id => if id ∈ [0, 2] then [] else h.adj 0 id) [3] 1 := hroot.step hfirst
  exact hnext.step hsecond

/-- Deleting rows takes them out of the answers and hides nothing else. -/
def DeletesTransparent : Prop :=
  ∀ h : Hnsw, WellFormed h → (∀ id < h.n, h.isDeleted id = false) →
    ∀ ids : List Nat, (∀ id ∈ ids, id < h.n) → ∀ query : List F32, query.length = h.dim →
    (∀ id < h.n, (h.scored query id).dist.isNan = false) → ∀ k efSearch, 1 ≤ k → h.n ≤ efSearch →
    ∃ g, h.deleteAll ids = .ok g ∧ Ensures (h.search query h.n efSearch) fun full =>
      g.search query k efSearch = .ok ((full.filter (·.2 ∉ ids)).take k)

omit [Arith] in
/-- Six rows on one layer; only the second leads to the fifth. -/
def sparseEdits : List Edit :=
  [(9, 6), (1, 2), (6, 4), (10, 3), (0, 2), (6, 7)].map fun (x, y) =>
    .insert [F32.ofUsize x, F32.ofUsize y] [] 0

omit [Arith] in
/-- With the second of six rows deleted, the fifth is no longer found from `(9, 0)`: the walk ends at
the deleted row, the farthest it has come to, with room in the heap for the one behind it. -/
theorem not_deletesTransparent : ¬ @DeletesTransparent Arith.ieee := by
  let := Arith.ieee
  let query := [F32.ofUsize 9, F32.ofUsize 0]
  obtain ⟨h, hrun, W⟩ := wellFormed_edits sparseParams
    (show Along editStep EditFits (Hnsw.new sparseParams) sparseEdits by decide +kernel)
  have hfacts : Ensures (run editStep (Hnsw.new sparseParams) sparseEdits) fun h =>
      h.n = 6 ∧ (∀ id < h.n, h.isDeleted id = false) ∧ query.length = h.dim ∧
      (∀ id < h.n, (h.scored query id).dist.isNan = false) ∧
      Ensures (h.search query h.n 6) fun full =>
        Ensures (({ h with deleted := h.deleted.set 1 true } : Hnsw).search query 6 6) fun hits =>
          hits ≠ (full.filter (·.2 ∉ [1])).take 6 := by
    decide +kernel
  obtain ⟨hn, hlive, hdim, hnan, hmissed⟩ := hfacts.elim hrun
  intro hall
  obtain ⟨g, hg, full, hfull, hhits⟩ := hall h W hlive [1] (by simp [hn]) query hdim hnan 6 6
    (by decide) hn.le
  have hlen : 1 < h.deleted.length := by
    rw [W.deleted_len, hn]
    decide
  have hdel : h.deleteAll [1] = .ok { h with deleted := h.deleted.set 1 true } := by
    unfold deleteAll
    rw [List.foldlM_cons, delete_eq_ok hlen]
    rfl
  cases hdel.symm.trans hg
  exact (hmissed.elim hfull).elim hhits rfl

end Hnsw

end Brindle
