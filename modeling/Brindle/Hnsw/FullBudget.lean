/-
# Brindle.Hnsw.FullBudget — a filtered search with budgets to spare misses nothing.

With a heap as wide as the graph nothing is ever turned away, with one detour more than there are
nodes the allowance never runs out, and each expansion pops a node that was queued once. Under those
three budgets every early exit of the filtered walk is one that leaves nothing behind: an expanded node
has had all its neighbors seen, or it has been put off and the rescue rounds see them. The nodes seen
are therefore closed under the layer's lists, and the hits are all that may be returned among them.
-/
import Brindle.Hnsw.Answers
import Mathlib.Combinatorics.Enumerative.DoubleCounting

namespace Brindle

open Outcome (Ensures ensures_pure)
open Run (After after_iff after_foldlM after_foldlM_const after_true)

namespace Hnsw

variable [Arith] {h : Hnsw} {query : List F32} {predicate : Option Predicate} {layer : Nat}
  {within : Nat → Prop} {ef funds : Nat}

/-- A list of all nodes that satisfy `P`, nearest first. -/
structure Ranking (h : Hnsw) (query : List F32) (P : Nat → Prop) (full : List Cand) : Prop where
  sorted : full.Pairwise (· < ·)
  scored : ∀ c ∈ full, c = h.scored query c.id
  mem_iff : ∀ id, h.scored query id ∈ full ↔ P id

/-! ## Budgets to spare -/

/-- An expansion is left for every node still queued. -/
def Funded (funds : Nat) (b : Beam) : Prop :=
  funds + b.frontier.length ≤ b.tr.expansions + b.visited.length

theorem Funded.steady : Steady h query predicate within (Funded funds) := by
  refine ⟨fun b b' hm hb => ?_, fun b c rest hf hb => ?_, fun b c rest hf hleft hb => ?_,
    fun _ _ hb => hb⟩
  · have hpush : ∀ id, funds + ((b.see id).push (h.scored query id)
        (h.admitted predicate id)).frontier.length ≤ b.tr.expansions + (b.visited.length + 1) := by
      intro id
      rw [Beam.push_frontier_length]
      exact Nat.succ_le_succ hb
    cases hm with
    | queue id => exact hpush id
    | route id => exact hpush id
    | skip id => exact hb.trans (Nat.le_succ _)
  · unfold Funded at hb ⊢
    rw [hf, List.length_cons] at hb
    dsimp only
    omega
  · unfold Funded at hb ⊢
    rw [hf, List.length_cons] at hb
    cases hp : isFiltered predicate with
    | false =>
      simp only [Traversal.countExpansion, Bool.false_eq_true, if_false]
      omega
    | true =>
      have hpos := hleft hp
      simp only [Traversal.countExpansion, if_true]
      omega

/-- The heap has room for every node of the graph. -/
structure Ample (h : Hnsw) (query : List F32) (predicate : Option Predicate) (ef : Nat) (b : Beam) :
    Prop where
  ef_eq : b.ef = ef
  nodup : b.visited.Nodup
  lt : ∀ v ∈ b.visited, v < h.n
  room : b.results.length ≤ b.visited.length
  kept : ∀ v ∈ b.visited, h.admitted predicate v = true → h.scored query v ∈ b.results

/-- And the detours last for every one of them. -/
structure Lavish (h : Hnsw) (query : List F32) (predicate : Option Predicate) (ef : Nat) (b : Beam) :
    Prop extends Ample h query predicate ef b where
  detours : h.n < b.tr.detours + b.visited.length

/-- What a stretch of moves leaves of the beam, when nothing is turned away. -/
structure Swept (b b' : Beam) : Prop where
  visited_sub : ∀ v ∈ b.visited, v ∈ b'.visited
  frontier_sub : ∀ c ∈ b.frontier, c ∈ b'.frontier
  deferred_eq : b'.deferred = b.deferred
  queued : ∀ v ∈ b'.visited, v ∉ b.visited → ∃ c ∈ b'.frontier, c.id = v

omit [Arith] in
theorem Swept.refl (b : Beam) : Swept b b :=
  ⟨fun _ hv => hv, fun _ hc => hc, rfl, fun _ hv hn => absurd hv hn⟩

omit [Arith] in
theorem Swept.trans {b b' b'' : Beam} (s : Swept b b') (s' : Swept b' b'') : Swept b b'' where
  visited_sub v hv := s'.visited_sub v (s.visited_sub v hv)
  frontier_sub c hc := s'.frontier_sub c (s.frontier_sub c hc)
  deferred_eq := s'.deferred_eq.trans s.deferred_eq
  queued v hv hn := by
    by_cases hv' : v ∈ b'.visited
    · obtain ⟨c, hc, hid⟩ := s.queued v hv' hn
      exact ⟨c, s'.frontier_sub c hc, hid⟩
    · exact s'.queued v hv hv'

namespace Ample

variable {b b' : Beam}

theorem visited_le (A : Ample h query predicate ef b) : b.visited.length ≤ h.n := by
  have hsub : b.visited ⊆ List.range h.n := fun v hv => List.mem_range.mpr (A.lt v hv)
  simpa using (List.Nodup.subperm A.nodup hsub).length_le

/-- One more node fits. -/
theorem visited_lt (A : Ample h query predicate ef b) {id : Nat} (hid : id < h.n)
    (hnew : id ∉ b.visited) : b.visited.length < h.n := by
  have hnodup : (id :: b.visited).Nodup := List.nodup_cons.mpr ⟨hnew, A.nodup⟩
  have hsub : id :: b.visited ⊆ List.range h.n := by
    intro v hv
    rcases List.mem_cons.mp hv with rfl | hv
    · exact List.mem_range.mpr hid
    · exact List.mem_range.mpr (A.lt v hv)
  have hle := (List.Nodup.subperm hnodup hsub).length_le
  rw [List.length_cons, List.length_range] at hle
  exact hle

/-- A full heap has seen every node. -/
theorem all_visited (A : Ample h query predicate ef b) (hef : h.n ≤ ef)
    (hfull : b.ef ≤ b.results.length) : ∀ v < h.n, v ∈ b.visited := by
  intro v hv
  by_contra hnew
  have hlt := A.visited_lt hv hnew
  have hroom := A.room
  rw [A.ef_eq] at hfull
  omega

/-- Queueing a new node. -/
theorem push (A : Ample h query predicate ef b) (hef : h.n ≤ ef) {id : Nat} (hid : id < h.n)
    (hnew : id ∉ b.visited) (tr : Traversal) :
    let b' := { (b.see id).push (h.scored query id) (h.admitted predicate id) with tr }
    Ample h query predicate ef b' ∧ Swept b b' := by
  have hlt := A.visited_lt hid hnew
  have hroom := A.room
  -- the heap is not full, so nothing falls out of it
  have hresults : ((b.see id).push (h.scored query id) (h.admitted predicate id)).results =
      if h.admitted predicate id then
        b.results.orderedInsert (· ≤ ·) (h.scored query id) else b.results := by
    have hlen : (b.results.orderedInsert (· ≤ ·) (h.scored query id)).length =
        b.results.length + 1 := List.orderedInsert_length ..
    cases hadm : h.admitted predicate id with
    | false => simp [Beam.push, Beam.see]
    | true =>
      have hnot : ¬ b.ef < b.results.length + 1 := by
        rw [A.ef_eq]
        omega
      simp [Beam.push, Beam.see, hlen, hnot]
  refine ⟨⟨A.ef_eq, List.nodup_cons.mpr ⟨hnew, A.nodup⟩, ?_, ?_, ?_⟩, ⟨?_, ?_, rfl, ?_⟩⟩
  · intro v hv
    rcases List.mem_cons.mp hv with rfl | hv
    · exact hid
    · exact A.lt v hv
  · show ((b.see id).push _ _).results.length ≤ b.visited.length + 1
    rw [hresults]
    split_ifs
    · rw [List.orderedInsert_length]
      omega
    · omega
  · intro v hv hadm
    show _ ∈ ((b.see id).push _ _).results
    rw [hresults]
    rcases List.mem_cons.mp hv with rfl | hv
    · rw [if_pos hadm]
      exact (List.mem_orderedInsert (· ≤ ·)).mpr (.inl rfl)
    · have hold := A.kept v hv hadm
      split_ifs
      · exact (List.mem_orderedInsert (· ≤ ·)).mpr (.inr hold)
      · exact hold
  · exact fun v hv => List.mem_cons_of_mem _ hv
  · intro c hc
    show c ∈ ((b.see id).push (h.scored query id) (h.admitted predicate id)).frontier
    exact Beam.mem_push_frontier.mpr (.inr hc)
  · intro v hv hn
    rcases List.mem_cons.mp hv with rfl | hv
    · refine ⟨h.scored query v, ?_, rfl⟩
      show _ ∈ ((b.see v).push (h.scored query v) (h.admitted predicate v)).frontier
      exact Beam.mem_push_frontier.mpr (.inl rfl)
    · exact absurd hv hn

/-- Nothing is turned away. -/
theorem move (A : Ample h query predicate ef b) (hef : h.n ≤ ef) (hin : ∀ id, within id → id < h.n)
    (hm : Move h query predicate within b b') : Ample h query predicate ef b' ∧ Swept b b' := by
  cases hm with
  | queue id hid hnew =>
    exact A.push hef (hin id hid) hnew b.tr.countDistance
  | route id hid hnew hleft =>
    exact A.push hef (hin id hid) hnew b.tr.countDistance.countDetour
  | skip id hid hnew hfull =>
    exact absurd (A.all_visited hef hfull id (hin id hid)) hnew

theorem moves (A : Ample h query predicate ef b) (hef : h.n ≤ ef) (hin : ∀ id, within id → id < h.n)
    (hm : Moves h query predicate within b b') : Ample h query predicate ef b' ∧ Swept b b' := by
  induction hm with
  | refl => exact ⟨A, Swept.refl b⟩
  | tail _ hlast ih =>
    obtain ⟨A', s'⟩ := ih.1.move hef hin hlast
    exact ⟨A', ih.2.trans s'⟩

end Ample

namespace Lavish

variable {b b' : Beam}

theorem detours_pos (A : Lavish h query predicate ef b) : b.tr.detours ≠ 0 := by
  have hle := A.visited_le
  have hd := A.detours
  omega

theorem move (A : Lavish h query predicate ef b) (hef : h.n ≤ ef)
    (hin : ∀ id, within id → id < h.n) (hm : Move h query predicate within b b') :
    Lavish h query predicate ef b' := by
  refine ⟨(A.toAmple.move hef hin hm).1, ?_⟩
  have hd := A.detours
  cases hm with
  | queue id hid hnew =>
    show h.n < b.tr.detours + (b.visited.length + 1)
    omega
  | route id hid hnew hleft =>
    show h.n < b.tr.detours - 1 + (b.visited.length + 1)
    omega
  | skip id hid hnew hfull =>
    show h.n < b.tr.detours + (b.visited.length + 1)
    omega

theorem moves (A : Lavish h query predicate ef b) (hef : h.n ≤ ef)
    (hin : ∀ id, within id → id < h.n) (hm : Moves h query predicate within b b') :
    Lavish h query predicate ef b' ∧ Swept b b' :=
  ⟨Moves.keeps (fun _ _ hmove hb => move hb hef hin hmove) hm A, (A.toAmple.moves hef hin hm).2⟩

end Lavish

/-! ## What has been seen -/

/-- Every node seen is still queued, or has been put off, or has had all its neighbors seen. -/
def Accounted (h : Hnsw) (layer : Nat) (b : Beam) : Prop :=
  ∀ v ∈ b.visited, (∃ c ∈ b.frontier, c.id = v) ∨ (∃ c ∈ b.deferred, c.id = v) ∨
    ∀ x ∈ h.nbrs v layer, x ∈ b.visited

/-- The nodes the search may see: the stored ones that lie on a path from the seeds. -/
def Around (h : Hnsw) (layer : Nat) (seeds : List Nat) (v : Nat) : Prop :=
  v < h.n ∧ Reach (h.adj layer) seeds v

omit [Arith] in
theorem closed_around (H : InRange h) (layer : Nat) (seeds : List Nat) :
    Closed h layer (Around h layer seeds) := by
  intro id hid
  rw [H.neighbors_eq]
  exact fun x hx => ⟨H.links_lt id layer x hx, hid.2.step hx⟩

section Coverage

variable {seeds : List Nat} (H : InRange h) (hef : h.n ≤ ef)
include H hef

/-- Bridging out of a node sees all its neighbors; where it queues none, all had been seen. -/
theorem bridgeOut_covers {b : Beam} (A : Lavish h query predicate ef b) {id : Nat}
    (hid : Around h layer seeds id) :
    After (fun r => Moves h query predicate (Around h layer seeds) b r.2 ∧
        (∀ x ∈ h.nbrs id layer, x ∈ r.2.visited) ∧ (r.1 = false → r.2 = b))
      (h.bridgeOut query layer predicate b id) := by
  have hids : ∀ x ∈ h.nbrs id layer, Around h layer seeds x :=
    fun x hx => ⟨H.links_lt id layer x hx, hid.2.step hx⟩
  unfold bridgeOut
  rw [H.neighbors_eq, Outcome.ok_bind]
  refine after_foldlM (fun done (r : Bool × Beam) =>
    Moves h query predicate (Around h layer seeds) b r.2 ∧ (∀ x ∈ done, x ∈ r.2.visited) ∧
      (r.1 = false → r.2 = b)) _ ?_ ⟨.refl, nofun, fun _ => rfl⟩
  rintro done x ⟨queued, b'⟩ hx ⟨hm, hdone, hsame⟩
  obtain ⟨A', -⟩ := A.moves hef (fun _ hin => hin.1) hm
  dsimp only at hm hdone hsame ⊢
  rw [if_neg A'.detours_pos]
  refine After.bind (visit_cases b' x) ?_
  rintro r (⟨hseen, rfl⟩ | ⟨hnew, rfl⟩ | ⟨hnew, hfull, rfl⟩)
  · exact ⟨hm, Beam.sees_snoc hdone (fun _ hv => hv) hseen, hsame⟩
  · refine ⟨hm.tail (Move.route x (hids x hx) hnew A'.detours_pos), ?_, nofun⟩
    exact Beam.sees_snoc hdone (fun _ hv => List.mem_cons_of_mem _ hv) List.mem_cons_self
  · exact absurd (A'.all_visited hef hfull x (hids x hx).1) hnew

/-- An expansion that bridged out has seen all its neighbors. -/
theorem expand_covers (hp : isFiltered predicate = true) {b : Beam}
    (A : Lavish h query predicate ef b) {id : Nat} (hid : Around h layer seeds id) :
    After (fun r => Moves h query predicate (Around h layer seeds) b r.2 ∧
        (r.1 = true → ∀ x ∈ h.nbrs id layer, x ∈ r.2.visited))
      (h.expand query layer predicate b id) := by
  have hclosed := closed_around H layer seeds
  refine After.bind (hclosed id hid) fun ids hids => ?_
  rw [hp]
  simp only [Bool.not_true, Bool.false_eq_true, if_false]
  refine After.bind (classifyNeighbors_moves hids b) ?_
  rintro ⟨matching, bridges, b₁⟩ ⟨hm₁, hbridges⟩
  refine After.bind (crossBridges_moves hclosed hbridges matching b₁) ?_
  rintro ⟨matching', b₂⟩ hm₂
  dsimp only at hm₁ hm₂ ⊢
  have hm := hm₁.trans hm₂
  split_ifs with hnone
  · obtain ⟨A₂, -⟩ := A.moves hef (fun _ hin => hin.1) hm
    refine After.bind (bridgeOut_covers H hef A₂ hid) ?_
    rintro ⟨queued, b₃⟩ ⟨hm₃, hseen, -⟩
    exact ⟨hm.trans hm₃, fun _ => hseen⟩
  · exact ⟨hm, nofun⟩

/-- A rescue sees all neighbors of what was put off; where it makes no progress, all had been seen. -/
theorem rescue_covers {b : Beam} (A : Lavish h query predicate ef b) {deferred : List Cand}
    (hdeferred : ∀ c ∈ deferred, Around h layer seeds c.id) :
    After (fun r => Moves h query predicate (Around h layer seeds) b r.2 ∧
        (∀ c ∈ deferred, ∀ x ∈ h.nbrs c.id layer, x ∈ r.2.visited) ∧ (r.1 = false → r.2 = b))
      (h.rescue query layer predicate deferred b) := by
  unfold rescue
  refine after_foldlM (fun done (r : Bool × Beam) =>
    Moves h query predicate (Around h layer seeds) b r.2 ∧
      (∀ c ∈ done, ∀ x ∈ h.nbrs c.id layer, x ∈ r.2.visited) ∧ (r.1 = false → r.2 = b))
    deferred ?_ (s := (false, b)) ⟨.refl, nofun, fun _ => rfl⟩
  rintro done c ⟨progressed, b'⟩ hc ⟨hm, hdone, hsame⟩
  obtain ⟨A', -⟩ := A.moves hef (fun _ hin => hin.1) hm
  dsimp only at hm hdone hsame A' ⊢
  rw [if_neg A'.detours_pos]
  refine After.bind (bridgeOut_covers H hef A' (hdeferred c hc)) ?_
  rintro ⟨queued, b''⟩ ⟨hm', hseen, hsame'⟩
  obtain ⟨-, s⟩ := A'.moves hef (fun _ hin => hin.1) hm'
  refine ⟨hm.trans hm', fun d hd x hx => ?_, fun hnone => ?_⟩
  · rcases List.mem_append.mp hd with hd | hd
    · exact s.visited_sub x (hdone d hd x hx)
    · rw [List.mem_singleton.mp hd] at hx
      exact hseen x hx
  · obtain ⟨hprogressed, hqueued⟩ := Bool.or_eq_false_iff.mp hnone
    exact (hsame' hqueued).trans (hsame hprogressed)

omit H hef in
theorem seedBeam_covers (layer : Nat) (b : Beam) (hseeds : ∀ x ∈ seeds, x < h.n) :
    After (fun b' => Moves h query predicate (Around h layer seeds) b b' ∧
        ∀ x ∈ seeds, x ∈ b'.visited)
      (h.seedBeam query predicate seeds b) :=
  seedBeam_sees (fun x hx => ⟨hseeds x hx, Reach.of_seed hx⟩) b

/-- What a walk of a funded beam leaves: a node seen has been put off, or has had all its neighbors
seen. -/
structure Exhausted (h : Hnsw) (query : List F32) (predicate : Option Predicate) (ef layer : Nat)
    (seeds : List Nat) (b b' : Beam) : Prop where
  ample : Lavish h query predicate ef b'
  funded : Funded h.n b'
  inside : Inside (Around h layer seeds) b'
  visited_sub : ∀ v ∈ b.visited, v ∈ b'.visited
  accounted : ∀ v ∈ b'.visited, (∃ c ∈ b'.deferred, c.id = v) ∨ ∀ x ∈ h.nbrs v layer, x ∈ b'.visited

omit [Arith] H hef in
/-- After an expansion everything but the node expanded is accounted for as before. -/
theorem Accounted.expanded {b b' : Beam} {c : Cand} {rest : List Cand} {tr : Traversal}
    (hb : Accounted h layer b) (hf : b.frontier = c :: rest)
    (s : Swept { b with frontier := rest, tr } b') :
    ∀ v ∈ b'.visited, v = c.id ∨ (∃ d ∈ b'.frontier, d.id = v) ∨ (∃ d ∈ b'.deferred, d.id = v) ∨
      ∀ x ∈ h.nbrs v layer, x ∈ b'.visited := by
  intro v hv
  by_cases hold : v ∈ b.visited
  · rcases hb v hold with ⟨d, hd, hid⟩ | ⟨d, hd, hid⟩ | hnbrs
    · rw [hf] at hd
      rcases List.mem_cons.mp hd with rfl | hd
      · exact .inl hid.symm
      · exact .inr (.inl ⟨d, s.frontier_sub d hd, hid⟩)
    · exact .inr (.inr (.inl ⟨d, s.deferred_eq ▸ hd, hid⟩))
    · exact .inr (.inr (.inr fun x hx => s.visited_sub x (hnbrs x hx)))
  · exact .inr (.inl (s.queued v hv hold))

/-- Neither the stop rule nor the allowance ends a walk before its frontier is used up. -/
theorem walkFrontier_covers (hp : isFiltered predicate = true) (fuel : Nat) {b : Beam}
    (A : Lavish h query predicate ef b) (hfunded : Funded h.n b)
    (hin : Inside (Around h layer seeds) b) (hb : Accounted h layer b) :
    After (Exhausted h query predicate ef layer seeds b)
      (h.walkFrontier query layer predicate fuel b) := by
  have K : Steady h query predicate (Around h layer seeds) (Funded h.n) := Funded.steady
  induction fuel generalizing b with
  | zero => trivial
  | succ fuel ih =>
    rw [walkFrontier.eq_def]
    dsimp only
    split
    · next hf =>
      refine ⟨A, hfunded, hin, fun _ hv => hv, fun v hv => ?_⟩
      rcases hb v hv with ⟨c, hc, -⟩ | hrest
      · rw [hf] at hc
        cases hc
      · exact hrest
    · next c rest hf =>
      have hc : Around h layer seeds c.id := hin.1 c (by rw [hf]; exact List.mem_cons_self)
      have hrest : ∀ d ∈ rest, Around h layer seeds d.id := fun d hd =>
        hin.1 d (by rw [hf]; exact List.mem_cons_of_mem c hd)
      have hleft : b.tr.expansions ≠ 0 := by
        have hle := A.visited_le
        unfold Funded at hfunded
        rw [hf, List.length_cons] at hfunded
        omega
      rw [hp]
      split_ifs with hcut hspent
      · -- the heap is full, so there is no node left to see
        have hfull : b.ef ≤ b.results.length := by
          simp only [Bool.not_true, Bool.false_or, Bool.and_eq_true, decide_eq_true_eq] at hcut
          exact hcut.2
        have hall := A.all_visited hef hfull
        refine ⟨⟨{ A.toAmple with }, A.detours⟩, K.drop b c rest hf hfunded, ⟨hrest, hin.2⟩,
          fun _ hv => hv, fun v _ => .inr fun x hx => ?_⟩
        exact hall x (H.links_lt v layer x hx)
      · simp only [Bool.true_and, decide_eq_true_eq] at hspent
        exact absurd hspent hleft
      · have A₁ : Lavish h query predicate ef
            { b with frontier := rest, tr := b.tr.countExpansion true } := ⟨{ A.toAmple with }, A.detours⟩
        have hfunded₁ := K.pop b c rest hf (fun _ => hleft) hfunded
        rw [hp] at hfunded₁
        refine After.bind (expand_covers H hef hp A₁ hc) ?_
        rintro ⟨bridged, b₂⟩ ⟨hm, hseen⟩
        obtain ⟨A₂, s⟩ := A₁.moves hef (fun _ hid => hid.1) hm
        have hfunded₂ : Funded h.n b₂ := Moves.keeps K.move hm hfunded₁
        have hin₂ : Inside (Around h layer seeds) b₂ :=
          Moves.keeps (fun _ _ => Inside.move) hm ⟨hrest, hin.2⟩
        have hother := hb.expanded hf s
        dsimp only at hseen ⊢
        cases bridged with
        | true =>
          have hb₂ : Accounted h layer b₂ := by
            intro v hv
            rcases hother v hv with rfl | hrest
            · exact .inr (.inr (hseen rfl))
            · exact hrest
          refine (ih A₂ hfunded₂ hin₂ hb₂).mono fun b' e => ?_
          exact { e with visited_sub := fun v hv => e.visited_sub v (s.visited_sub v hv) }
        | false =>
          -- a rescue may still bridge out of the node put off
          have hkept : ∀ d ∈ b₂.deferred, d ∈ b₂.deferred ++ [c] :=
            fun d hd => List.mem_append_left _ hd
          have hb₂ : Accounted h layer { b₂ with deferred := b₂.deferred ++ [c] } := by
            intro v hv
            rcases hother v hv with rfl | hqueued | ⟨d, hd, hid⟩ | hnbrs
            · exact .inr (.inl ⟨c, List.mem_append_right _ List.mem_cons_self, rfl⟩)
            · exact .inl hqueued
            · exact .inr (.inl ⟨d, hkept d hd, hid⟩)
            · exact .inr (.inr hnbrs)
          have hin₃ : Inside (Around h layer seeds)
              { b₂ with deferred := b₂.deferred ++ [c] } := by
            refine ⟨hin₂.1, fun d hd => ?_⟩
            rcases List.mem_append.mp hd with hd | hd
            · exact hin₂.2 d hd
            · rw [List.mem_singleton.mp hd]
              exact hc
          have A₃ : Lavish h query predicate ef { b₂ with deferred := b₂.deferred ++ [c] } :=
            ⟨{ A₂.toAmple with }, A₂.detours⟩
          refine After.mono (ih A₃ hfunded₂ hin₃ hb₂) fun b' e => ?_
          exact { e with visited_sub := fun v hv => e.visited_sub v (s.visited_sub v hv) }

/-- What the rounds leave: the nodes seen are closed under the lists. -/
theorem searchRounds_covers (hp : isFiltered predicate = true) (rounds : Nat) {b : Beam}
    (A : Lavish h query predicate ef b) (hfunded : Funded h.n b)
    (hin : Inside (Around h 0 seeds) b) (hb : Accounted h 0 b) :
    After (fun b' => Lavish h query predicate ef b' ∧ (∀ v ∈ b.visited, v ∈ b'.visited) ∧
        ∀ v ∈ b'.visited, ∀ x ∈ h.nbrs v 0, x ∈ b'.visited)
      (h.searchRounds query 0 predicate rounds b) := by
  induction rounds generalizing b with
  | zero => trivial
  | succ rounds ih =>
    unfold searchRounds
    refine After.bind (walkFrontier_covers H hef hp (h.n + 1) A hfunded hin hb) ?_
    intro b₁ e
    dsimp only
    split_ifs with hstop hnone
    · refine ⟨e.ample, e.visited_sub, fun v hv x hx => ?_⟩
      have hfull : b₁.ef ≤ b₁.results.length := by
        simpa [hp, e.ample.detours_pos] using hstop
      exact e.ample.all_visited hef hfull x (H.links_lt v 0 x hx)
    · refine ⟨⟨{ e.ample.toAmple with }, e.ample.detours⟩, e.visited_sub, fun v hv => ?_⟩
      rcases e.accounted v hv with ⟨c, hc, -⟩ | hnbrs
      · rw [List.isEmpty_iff.mp hnone] at hc
        cases hc
      · exact hnbrs
    · have hmem : ∀ c, c ∈ b₁.deferred.insertionSort (· ≤ ·) ↔ c ∈ b₁.deferred :=
        fun c => List.mem_insertionSort (· ≤ ·)
      have A₁ : Lavish h query predicate ef { b₁ with deferred := [] } :=
        ⟨{ e.ample.toAmple with }, e.ample.detours⟩
      refine After.bind (rescue_covers H hef A₁ fun c hc =>
        e.inside.2 c ((hmem c).mp hc)) ?_
      rintro ⟨progressed, b₂⟩ ⟨hm, hseen, hsame⟩
      obtain ⟨A₂, s⟩ := A₁.moves hef (fun _ hid => hid.1) hm
      have hdone : ∀ v ∈ b₁.visited, ∀ x ∈ h.nbrs v 0, x ∈ b₂.visited := by
        intro v hv x hx
        rcases e.accounted v hv with ⟨c, hc, rfl⟩ | hnbrs
        · exact hseen c ((hmem c).mpr hc) x hx
        · exact s.visited_sub x (hnbrs x hx)
      have hsub : ∀ v ∈ b.visited, v ∈ b₂.visited :=
        fun v hv => s.visited_sub v (e.visited_sub v hv)
      cases progressed with
      | false =>
        -- the rescue bridged to nothing, so its neighbors had all been seen
        have heq : b₂ = { b₁ with deferred := [] } := hsame rfl
        refine ⟨A₂, hsub, fun v hv x hx => hdone v ?_ x hx⟩
        rw [heq] at hv
        exact hv
      | true =>
        have hfunded₂ : Funded h.n b₂ := Moves.keeps Funded.steady.move hm e.funded
        have hin₂ : Inside (Around h 0 seeds) b₂ :=
          Moves.keeps (fun _ _ => Inside.move) hm e.inside.cleared
        have hb₂ : Accounted h 0 b₂ := by
          intro v hv
          by_cases hold : v ∈ b₁.visited
          · exact .inr (.inr (hdone v hold))
          · exact .inl (s.queued v hv hold)
        refine (ih A₂ hfunded₂ hin₂ hb₂).mono ?_
        rintro b' ⟨A', hsub', hclosed⟩
        exact ⟨A', fun v hv => hsub' v (hsub v hv), hclosed⟩

end Coverage

/-- **A layer search with budgets to spare** returns every node that may be returned among those
reachable from its seeds, and no other. -/
theorem searchLayer_complete (H : InRange h) (hp : isFiltered predicate = true)
    (hq : query.length = h.dim) {seeds : List Nat} (hseeds : ∀ x ∈ seeds, x < h.n)
    (hef : h.n ≤ ef) {tr : Traversal} (hdetours : h.n < tr.detours)
    (hexpansions : h.n ≤ tr.expansions) :
    Ensures (h.searchLayer query seeds ef 0 predicate tr) fun r =>
      Ranking h query (fun id => Reach (h.adj 0) seeds id ∧ h.Admits predicate id) r.1 := by
  have hcovers : After (fun r : List Cand × Traversal =>
      ∀ id, Reach (h.adj 0) seeds id → h.Admits predicate id → h.scored query id ∈ r.1)
      (h.searchLayer query seeds ef 0 predicate tr) := by
    have A₀ : Lavish h query predicate ef (Beam.new ef tr) :=
      ⟨⟨rfl, List.nodup_nil, nofun, le_rfl, nofun⟩, hdetours⟩
    have hfunded₀ : Funded h.n (Beam.new ef tr) := hexpansions
    have K : Steady h query predicate (Around h 0 seeds) (Funded h.n) := Funded.steady
    refine After.bind (seedBeam_covers 0 (Beam.new ef tr) hseeds) ?_
    rintro b₁ ⟨hm, hseeded⟩
    obtain ⟨A₁, s⟩ := A₀.moves hef (fun _ hid => hid.1) hm
    have hb₁ : Accounted h 0 b₁ := fun v hv => .inl (s.queued v hv List.not_mem_nil)
    have hin : Inside (Around h 0 seeds) b₁ :=
      Moves.keeps (fun _ _ => Inside.move) hm ⟨nofun, nofun⟩
    refine After.bind (searchRounds_covers H hef hp (h.n + 1) A₁
      (Moves.keeps K.move hm hfunded₀) hin hb₁) ?_
    rintro b₂ ⟨A₂, hsub, hclosed⟩ id hreach hadm
    have hvisited : id ∈ b₂.visited :=
      Reach.of_closed (P := fun y => y ∈ b₂.visited) (fun x hx => hsub x (hseeded x hx))
        (fun a _ ha x hx => hclosed a ha x hx) hreach
    exact A₂.kept id hvisited (admitted_iff.mpr hadm)
  refine (((hcovers.and (searchLayer_ranked h query seeds ef 0 predicate tr)).of_ensures
    (searchLayer_spec H hq hseeds ef 0 tr))).mono ?_
  rintro ⟨w, tr'⟩ ⟨⟨hall, hsorted, hscored⟩, F⟩
  refine ⟨pairwise_lt_of_nodup hsorted F.nodup, hscored, fun id => ⟨fun hid => ?_, fun hid => ?_⟩⟩
  · exact ⟨F.reach _ hid, F.admits _ hid⟩
  · exact hall id hid.1 hid.2

/-! ## What the descent leaves of the allowance -/

omit [Arith] in
/-- How many nodes have lists at layer `l`. -/
def owners (h : Hnsw) (l : Nat) : Nat := ((Finset.range h.n).filter (l < h.levelsOf ·)).card

omit [Arith] in
/-- How many (node, layer) pairs the graph has. -/
def memberships (h : Hnsw) : Nat := ∑ id ∈ Finset.range h.n, h.levelsOf id

omit [Arith] in
theorem sum_owners_le (h : Hnsw) (top : Nat) :
    ∑ l ∈ Finset.range top, h.owners l ≤ h.memberships := by
  have hpairs := Finset.sum_card_bipartiteAbove_eq_sum_card_bipartiteBelow
    (s := Finset.range top) (t := Finset.range h.n) fun l id => l < h.levelsOf id
  calc ∑ l ∈ Finset.range top, h.owners l
      = ∑ id ∈ Finset.range h.n, ((Finset.range top).filter (· < h.levelsOf id)).card := hpairs
    _ ≤ ∑ id ∈ Finset.range h.n, h.levelsOf id := Finset.sum_le_sum fun id _ => ?_
  calc ((Finset.range top).filter (· < h.levelsOf id)).card
      ≤ (Finset.range (h.levelsOf id)).card :=
        Finset.card_le_card fun l hl => Finset.mem_range.mpr (Finset.mem_filter.mp hl).2
    _ = h.levelsOf id := Finset.card_range _

omit [Arith] in
theorem owners_zero (L : Layout h) : h.owners 0 = h.n := by
  have hall : (Finset.range h.n).filter (0 < h.levelsOf ·) = Finset.range h.n :=
    Finset.filter_true_of_mem fun id hid => L.levelsOf_pos (Finset.mem_range.mp hid)
  rw [owners, hall, Finset.card_range]

omit [Arith] in
theorem memberships_eq (L : Layout h) : h.memberships = h.base h.n := by
  have hsum : ∀ j ≤ h.n, ∑ id ∈ Finset.range j, h.levelsOf id = h.base j := by
    intro j hj
    induction j with
    | zero => exact L.base_zero.symm
    | succ j ih =>
      rw [Finset.sum_range_succ, ih (by omega), L.base_succ (by omega)]
  exact hsum h.n le_rfl

/-- A search of `layer` stays among the owners of the layer, and pops each of them once. -/
structure Frugal (h : Hnsw) (layer funds : Nat) (b : Beam) : Prop where
  funded : Funded funds b
  nodup : b.visited.Nodup
  owned : ∀ v ∈ b.visited, h.Owns v layer
  results_visited : ∀ c ∈ b.results, c.id ∈ b.visited

theorem Frugal.steady :
    Steady h query predicate (fun id => h.Owns id layer) (Frugal h layer funds) := by
  have K : Steady h query predicate (fun id => h.Owns id layer) (Funded funds) := Funded.steady
  refine ⟨fun b b' hm hb => ⟨K.move b b' hm hb.funded, ?_, ?_, ?_⟩,
    fun b c rest hf hb => { hb with funded := K.drop b c rest hf hb.funded },
    fun b c rest hf hleft hb => { hb with funded := K.pop b c rest hf hleft hb.funded },
    fun _ _ hb => { hb with funded := hb.funded }⟩
  · cases hm with
    | queue id hin hnew => exact List.nodup_cons.mpr ⟨hnew, hb.nodup⟩
    | route id hin hnew => exact List.nodup_cons.mpr ⟨hnew, hb.nodup⟩
    | skip id hin hnew => exact List.nodup_cons.mpr ⟨hnew, hb.nodup⟩
  · have hcons : ∀ id, h.Owns id layer → ∀ v ∈ id :: b.visited, h.Owns v layer := by
      intro id hin v hv
      rcases List.mem_cons.mp hv with rfl | hv
      · exact hin
      · exact hb.owned v hv
    cases hm with
    | queue id hin => exact hcons id hin
    | route id hin => exact hcons id hin
    | skip id hin => exact hcons id hin
  · have hpush : ∀ id, ∀ c ∈ ((b.see id).push (h.scored query id)
        (h.admitted predicate id)).results, c.id ∈ id :: b.visited := by
      intro id c hc
      rcases Beam.mem_push_results hc with ⟨rfl, -⟩ | hold
      · exact List.mem_cons_self
      · exact List.mem_cons_of_mem _ (hb.results_visited c hold)
    cases hm with
    | queue id => exact hpush id
    | route id => exact hpush id
    | skip id => exact fun c hc => List.mem_cons_of_mem _ (hb.results_visited c hc)

omit [Arith] in
theorem Frugal.spent {b : Beam} (F : Frugal h layer funds b) :
    funds ≤ b.tr.expansions + h.owners layer := by
  have hle : b.visited.length ≤ h.owners layer := by
    rw [← List.toFinset_card_of_nodup F.nodup]
    refine Finset.card_le_card fun v hv => ?_
    obtain ⟨hlt, hlevel⟩ := F.owned v (List.mem_toFinset.mp hv)
    exact Finset.mem_filter.mpr ⟨Finset.mem_range.mpr hlt, hlevel⟩
  have hfunded := F.funded
  unfold Funded at hfunded
  omega

section Descent

variable (W : WellFormed h)
include W

omit [Arith] in
theorem closed_owned (layer : Nat) : Closed h layer fun id => h.Owns id layer := by
  intro id _
  rw [W.neighbors_eq]
  exact fun x hx => W.owned id layer x hx

theorem searchLayer_frugal {seeds : List Nat} (hseeds : ∀ x ∈ seeds, h.Owns x layer) (ef : Nat)
    (tr : Traversal) :
    After (fun r => tr.expansions ≤ r.2.expansions + h.owners layer ∧
        ∀ c ∈ r.1, h.Owns c.id layer)
      (h.searchLayer query seeds ef layer predicate tr) := by
  have hnew : Frugal h layer tr.expansions (Beam.new ef tr) :=
    ⟨le_rfl, List.nodup_nil, nofun, nofun⟩
  refine (searchLayer_keeps (closed_owned W layer) Frugal.steady hseeds hnew).mono ?_
  rintro r ⟨b, F, rfl⟩
  exact ⟨F.spent, fun c hc => F.owned c.id (F.results_visited c hc)⟩

omit [Arith] W in
theorem Owns.pred {id layer : Nat} (ho : h.Owns id (layer + 1)) : h.Owns id layer :=
  ⟨ho.1, Nat.lt_of_succ_lt ho.2⟩

omit [Arith] W in
theorem upperLayers_succ (top : Nat) : upperLayers (top + 1) = (top + 1) :: upperLayers top := by
  unfold upperLayers
  rw [List.range'_concat, List.reverse_append]
  simp [Nat.add_comm]

omit [Arith] W in
theorem descend_cons [Arith] (lc : Nat) (layers epIds seeds : List Nat) (tr : Traversal) :
    h.descend query predicate (lc :: layers) epIds seeds tr =
      h.descend query predicate [lc] epIds seeds tr >>= fun r =>
        h.descend query predicate layers r.1 r.2.1 r.2.2 := by
  unfold descend
  rw [List.foldlM_cons, List.foldlM_cons]
  simp only [List.foldlM_nil, bind_pure]

/-- One layer of the descent takes an expansion for each owner of the layer, at most. -/
theorem descend_layer_frugal (lc : Nat) {epIds seeds : List Nat} (heps : ∀ x ∈ epIds, h.Owns x lc)
    (hseeds : ∀ x ∈ seeds, h.Owns x lc) (tr : Traversal) :
    After (fun r => tr.expansions ≤ r.2.2.expansions + h.owners lc ∧
        (∀ x ∈ r.1, h.Owns x lc) ∧ ∀ x ∈ r.2.1, h.Owns x lc)
      (h.descend query predicate [lc] epIds seeds tr) := by
  unfold descend
  rw [List.foldlM_cons]
  simp only [List.foldlM_nil, bind_pure]
  refine After.bind ((searchLayer_unfiltered h query epIds 1 lc tr).and
    (searchLayer_frugal W heps 1 tr)) ?_
  rintro ⟨w, tr₁⟩ ⟨hexp₁, -, hw⟩
  dsimp only at hexp₁ hw ⊢
  have hown := forall_nearest hw heps
  split_ifs with hp
  · have hprobe := fun x (hx : x ∈ _ ++ seeds) =>
      (List.mem_append.mp hx).elim (hown x) (hseeds x)
    refine After.bind (searchLayer_frugal W hprobe 1 tr₁) ?_
    rintro ⟨found, tr₂⟩ ⟨hexp₂, hfound⟩
    refine ⟨hexp₁ ▸ hexp₂, hown, fun x hx => ?_⟩
    obtain ⟨c, hc, rfl⟩ := List.mem_map.mp hx
    exact hfound c hc
  · refine ⟨?_, hown, hseeds⟩
    show tr.expansions ≤ tr₁.expansions + h.owners lc
    omega

/-- The descent takes one expansion a membership above layer 0, at most. -/
theorem descend_frugal (top : Nat) {epIds seeds : List Nat} (heps : ∀ x ∈ epIds, h.Owns x top)
    (hseeds : ∀ x ∈ seeds, h.Owns x top) (tr : Traversal) :
    After (fun r => tr.expansions ≤
        r.2.2.expansions + ∑ l ∈ Finset.range top, h.owners (l + 1))
      (h.descend query predicate (upperLayers top) epIds seeds tr) := by
  induction top generalizing epIds seeds tr with
  | zero => exact le_rfl
  | succ top ih =>
    rw [upperLayers_succ, descend_cons, Finset.sum_range_succ]
    refine After.bind (descend_layer_frugal W (top + 1) heps hseeds tr) ?_
    rintro ⟨eps', seeds', tr₁⟩ ⟨hexp₁, heps', hseeds'⟩
    refine (ih (fun x hx => (heps' x hx).pred) (fun x hx => (hseeds' x hx).pred) tr₁).mono ?_
    rintro r hexp
    dsimp only at hexp₁ hexp ⊢
    omega

end Descent

/-! ## The search of the whole graph -/

/-- The start set of layer 0: the node navigation ends on and the foothold of the probes. -/
def startSet (h : Hnsw) (query : List F32) (predicate : Option Predicate) (ef : Nat) :
    Outcome HnswError (List Nat) := do
  match h.entryPoint with
  | none => return []
  | some entry =>
    let tr := if isFiltered predicate then Traversal.forEf ef else Traversal.unfiltered
    let (epIds, seeds, _) ← h.descend query predicate (upperLayers h.maxLayer) [entry] [] tr
    return epIds ++ seeds

omit [Arith] in
/-- The bottom layer's allowances cover the graph, whatever the descent took. -/
theorem allowance (W : WellFormed h) (hn : 0 < h.n) {ef : Nat} (hef : h.memberships ≤ ef)
    {tr : Traversal} (htr : (Traversal.forEf ef).expansions ≤
      tr.expansions + ∑ l ∈ Finset.range h.maxLayer, h.owners (l + 1)) :
    h.n ≤ ef ∧ h.n < (tr.refillDetours ef).detours ∧ h.n ≤ (tr.refillDetours ef).expansions := by
  have hsum := sum_owners_le h (h.maxLayer + 1)
  rw [Finset.sum_range_succ', owners_zero W.toLayout] at hsum
  have hfits : h.memberships < 2 ^ 32 := by
    rw [memberships_eq W.toLayout]
    exact W.fits
  have hspare : h.memberships ≤ (Traversal.forEf ef).expansions := by
    refine Nat.le_min.mpr ⟨?_, by omega⟩
    show h.memberships ≤ ef * 16
    omega
  refine ⟨by omega, Nat.lt_min.mpr ⟨?_, by omega⟩, ?_⟩
  · show h.n < ef * 4
    omega
  · show h.n ≤ tr.expansions
    omega

/-- **Completeness at full budget.** A filtered search whose `ef_search` covers the graph returns the
nearest `k` of all nodes that may be returned and that layer 0 leads to from its start set. -/
theorem searchFiltered_complete (h : Hnsw) (W : WellFormed h) (query : List F32)
    (hq : query.length = h.dim) (predicate : Predicate) (hp : predicate ≠ .all) (k efSearch : Nat)
    (hk : 1 ≤ k) (hef : h.memberships ≤ efSearch) :
    Ensures (h.startSet query (some predicate) (max efSearch k)) fun start =>
      ∃ full, Ranking h query
          (fun id => Reach (h.adj 0) start id ∧ h.Admits (some predicate) id) full ∧
        h.searchFiltered query k efSearch predicate =
          .ok ((full.take k).map fun c => (c.dist, c.id)) := by
  have hfiltered : isFiltered (some predicate) = true := isFiltered_of_ne hp
  unfold startSet searchFiltered searchFilteredWithCost searchInner
  cases he : h.entryPoint with
  | none =>
    refine ensures_pure.mpr ⟨[], ⟨List.Pairwise.nil, nofun, fun id => ⟨fun hid => ?_, ?_⟩⟩, ?_⟩
    · cases hid
    · rintro ⟨⟨s, hs, -⟩, -⟩
      cases hs
    · rw [List.take_nil]
      rfl
  | some entry =>
    have hentry : entry < h.n := W.entry_lt entry he
    have hown : h.Owns entry h.maxLayer := W.entry_owns he
    have hk' : k ≠ 0 := by omega
    dsimp only
    rw [if_neg hk', if_neg (not_not.mpr hq), hfiltered]
    have heps : ∀ x ∈ [entry], x < h.n := fun x hx => List.mem_singleton.mp hx ▸ hentry
    have heps' : ∀ x ∈ [entry], h.Owns x h.maxLayer := fun x hx => List.mem_singleton.mp hx ▸ hown
    have hnone : ∀ x ∈ ([] : List Nat), h.Owns x h.maxLayer := nofun
    have hspent : After _ (h.descend query (some predicate) (upperLayers h.maxLayer) [entry] []
        (Traversal.forEf (max efSearch k))) :=
      descend_frugal W h.maxLayer heps' hnone _
    obtain ⟨⟨eps, seeds, tr⟩, hrun, hleft, hlt⟩ :=
      hspent.of_ensures
        (descend_spec W.toInRange hq (upperLayers h.maxLayer) heps)
    have hseeds : ∀ x ∈ eps ++ seeds, x < h.n := fun x hx =>
      (List.mem_append.mp hx).elim (hlt.1 x) (hlt.2 x)
    obtain ⟨hn, hdetours, hexpansions⟩ :=
      allowance W (by omega) (hef.trans (Nat.le_max_left efSearch k)) hleft
    have hcomplete : Ensures (h.searchLayer query (eps ++ seeds) (max efSearch k) 0 (some predicate)
        (tr.refillDetours (max efSearch k))) _ :=
      searchLayer_complete W.toInRange hfiltered hq hseeds hn hdetours hexpansions
    obtain ⟨⟨w, tr'⟩, hlayer, hranking⟩ := hcomplete
    rw [if_pos rfl, hrun]
    refine ensures_pure.mpr ⟨w, hranking, ?_⟩
    simp only [Outcome.ok_bind, if_true, hlayer]
    rfl

omit [Arith] in
/-- The price list with its third row deleted: of the rows priced at most 3, the two that are left are
found, one of them through rows that are dearer. -/
theorem searchFiltered_complete_sold :
    Ensures soldGraph fun h =>
      Ensures (@searchFiltered Arith.ieee h pricedQuery 2 8 (pricedUpTo 3))
          (·.map Prod.snd = [0, 4]) ∧
        Ensures (@startSet Arith.ieee h pricedQuery (some (pricedUpTo 3)) (max 8 2)) fun start =>
          ∃ full, @Ranking Arith.ieee h pricedQuery
              (fun id => Reach (h.adj 0) start id ∧ h.Admits (some (pricedUpTo 3)) id) full ∧
            @searchFiltered Arith.ieee h pricedQuery 2 8 (pricedUpTo 3) =
              .ok ((full.take 2).map fun c => (c.dist, c.id)) := by
  let := Arith.ieee
  obtain ⟨h, hrun, W⟩ := soldGraph_wellFormed
  have hfacts : Ensures soldGraph fun h => pricedQuery.length = h.dim ∧ h.memberships ≤ 8 ∧
      Ensures (h.searchFiltered pricedQuery 2 8 (pricedUpTo 3)) (·.map Prod.snd = [0, 4]) := by
    decide +kernel
  obtain ⟨hdim, hef, hhits⟩ := hfacts.elim hrun
  exact ⟨h, hrun, hhits, searchFiltered_complete h W pricedQuery hdim (pricedUpTo 3) nofun 2 8
    (by decide) hef⟩

end Hnsw

end Brindle
