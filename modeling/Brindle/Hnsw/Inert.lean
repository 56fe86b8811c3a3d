/-
# Brindle.Hnsw.Inert — a predicate that excludes nothing changes nothing.

A filtered search differs from an unfiltered one in its stop rule, in the probes of the upper layers and
the second seed they leave, in bridging, and in the rescue rounds. Over a graph without tombstones whose
rows all satisfy the predicate each of these is inert: the probes end where navigation does, an
expansion finds only matching neighbors, no walk is cut before its heap is full, and what a rescue
bridges out of has had its neighbors seen. What is left is the allowance, which has to last.
-/
import Brindle.Hnsw.Cost
import Brindle.Hnsw.FullBeam
import Brindle.Hnsw.Probe

namespace Brindle

open Outcome (Ensures Alike ensures_pure)
open Run (After after_foldlM)

namespace Hnsw

variable [Arith] {h : Hnsw} {query : List F32} {predicate : Option Predicate} {layer : Nat}

/-! ## The walk -/

/-- Nothing has been turned away while there was room, and what was put off has had its neighbors
seen. -/
structure Even (h : Hnsw) (query : List F32) (layer : Nat) (b : Beam) : Prop where
  orderly : Orderly h query none b
  queued : Queued b
  lt : Roams (· < h.n) b
  kept : b.results.length < b.ef → ∀ v ∈ b.visited, h.scored query v ∈ b.results
  repaid : ∀ c ∈ b.deferred, ∀ x ∈ h.nbrs c.id layer, x ∈ b.visited

theorem Even.new (h : Hnsw) (query : List F32) (layer ef : Nat) (tr : Traversal) :
    Even h query layer (Beam.new ef tr) :=
  ⟨⟨⟨List.Pairwise.nil, nofun⟩, List.Pairwise.nil, nofun, nofun⟩, nofun, nofun, fun _ => nofun, nofun⟩

theorem Even.move (hlive : ∀ id < h.n, h.isDeleted id = false) {b b' : Beam}
    (hm : Move h query none (· < h.n) b b') (E : Even h query layer b) : Even h query layer b' := by
  have hpush : ∀ id < h.n, ((b.see id).push (h.scored query id) (h.admitted none id)).results.length <
      b.ef → ∀ v ∈ id :: b.visited, h.scored query v ∈
        ((b.see id).push (h.scored query id) (h.admitted none id)).results := by
    intro id hid hroom v hv
    rw [(admitted_none id).mpr (hlive id hid)] at hroom ⊢
    by_cases hfull : b.results.length < b.ef
    · rw [Beam.push_room (b := b.see id) hfull]
      rcases List.mem_cons.mp hv with rfl | hv
      · exact (List.mem_orderedInsert (· ≤ ·)).mpr (.inl rfl)
      · exact (List.mem_orderedInsert (· ≤ ·)).mpr (.inr (E.kept hfull v hv))
    · -- a full heap stays full
      have hlen : (b.results.orderedInsert (· ≤ ·) (h.scored query id)).length =
          b.results.length + 1 := List.orderedInsert_length ..
      simp only [Beam.push, Beam.see, if_true, hlen, Bool.and_true, decide_eq_true_eq] at hroom
      split_ifs at hroom with hcut
      · rw [List.length_dropLast, hlen] at hroom
        omega
      · omega
  have hgrows := (Moves.grows (Relation.ReflTransGen.single hm))
  refine ⟨E.orderly.move hm, E.queued.move hm, E.lt.move hm, ?_, fun c hc x hx => ?_⟩
  · cases hm with
    | queue id hid => exact hpush id hid
    | route id hid => exact hpush id hid
    | skip id hid hnew hfull =>
      intro hroom
      exact absurd hfull (Nat.not_le.mpr hroom)
  · rw [hgrows.2] at hc
    exact hgrows.1 x (E.repaid c hc x hx)

section Simulation

variable (H : InRange h) (hlive : ∀ id < h.n, h.isDeleted id = false)
  (hp : isFiltered predicate = true) (hmatch : ∀ id < h.n, h.nodeMatches id predicate = true)
include H hlive hp hmatch

/-- While its allowance lasts, the filtered walk is the unfiltered one. -/
theorem walkFrontier_inert (fuel : Nat) {b b' : Beam} (M : SameWalk b b')
    (E : Even h query layer b') :
    After (fun r' => r'.tr.expansions ≠ 0 → (∃ r, h.walkFrontier query layer none fuel b = .ok r ∧
        SameWalk r r') ∧ ∀ c ∈ r'.deferred, ∀ x ∈ h.nbrs c.id layer, x ∈ r'.visited)
      (h.walkFrontier query layer predicate fuel b') := by
  induction fuel generalizing b b' with
  | zero => trivial
  | succ fuel ih =>
    obtain ⟨deferred, tr, rfl⟩ := M
    obtain ⟨visited, frontier, results, ef, deferred₀, tr₀⟩ := b
    cases frontier with
    | nil =>
      rw [walkFrontier.eq_def, walkFrontier.eq_def]
      exact fun _ => ⟨⟨_, rfl, deferred, tr, rfl⟩, E.repaid⟩
    | cons c rest =>
      rw [walkFrontier_matching hmatch H hp fuel rfl, walkFrontier_plain H fuel rfl]
      dsimp only at E ⊢
      rw [show Beam.farthest ⟨visited, c :: rest, results, ef, deferred₀, tr₀⟩ =
        Beam.farthest ⟨visited, c :: rest, results, ef, deferred, tr⟩ from rfl]
      by_cases hcut : c.dist.gt (Beam.farthest ⟨visited, c :: rest, results, ef, deferred, tr⟩) = true
      · -- a heap that is not full holds `c` itself
        have hfull : ef ≤ results.length := by
          by_contra hroom
          have hheld : c ∈ results := by
            rw [E.orderly.frontier_scored c List.mem_cons_self]
            exact E.kept (Nat.not_le.mp hroom) c.id (E.queued c List.mem_cons_self)
          rw [Beam.not_gt_farthest E.orderly.ranked.1 hheld] at hcut
          cases hcut
        rw [if_pos hcut, if_pos ⟨hcut, hfull⟩]
        exact fun _ => ⟨⟨_, rfl, deferred, tr, rfl⟩, E.repaid⟩
      · rw [if_neg hcut, if_neg fun hboth => hcut hboth.1]
        by_cases hspent : tr.expansions = 0
        · rw [if_pos hspent]
          exact fun hleft => absurd hspent hleft
        rw [if_neg hspent]
        have hids : ∀ x ∈ h.nbrs c.id layer, x < h.n := fun x hx => H.links_lt c.id layer x hx
        have E₁ : Even h query layer ⟨visited, rest, results, ef, deferred, tr.countExpansion true⟩ :=
          { orderly :=
              { ranked := E.orderly.ranked
                frontier_sorted := E.orderly.frontier_sorted.of_cons
                frontier_scored := fun d hd =>
                  E.orderly.frontier_scored d (List.mem_cons_of_mem c hd)
                held := E.orderly.held }
            queued := fun d hd => E.queued d (List.mem_cons_of_mem c hd)
            lt := E.lt
            kept := E.kept
            repaid := E.repaid }
        have hsees : After _ (h.visitAll query none (h.nbrs c.id layer)
            ⟨visited, rest, results, ef, deferred, tr.countExpansion true⟩) := visitAll_sees hids _
        have hsame : Alike SameWalk
            (h.visitAll query none (h.nbrs c.id layer)
              ⟨visited, rest, results, ef, deferred₀, tr₀.countExpansion false⟩)
            (h.visitAll query none (h.nbrs c.id layer)
              ⟨visited, rest, results, ef, deferred, tr.countExpansion true⟩) :=
          visitAll_same ⟨deferred, tr.countExpansion true, rfl⟩ _
        generalize h.visitAll query none (h.nbrs c.id layer) _ = run at hsame ⊢
        generalize h.visitAll query none (h.nbrs c.id layer) _ = run' at hsame hsees ⊢
        cases hsame with
        | error fault => trivial
        | @ok b₂ b₂' M₂ =>
          obtain ⟨hm, hseen⟩ := hsees
          have E₂ : Even h query layer b₂' := Moves.keeps (fun _ _ => Even.move hlive) hm E₁
          have hput : Even h query layer { b₂' with deferred := b₂'.deferred ++ [c] } := by
            refine { E₂ with orderly := { E₂.orderly with }, repaid := fun d hd x hx => ?_ }
            rcases List.mem_append.mp hd with hd | hd
            · exact E₂.repaid d hd x hx
            · rw [List.mem_singleton.mp hd] at hx
              exact hseen x hx
          show After _ (h.walkFrontier query layer predicate fuel _)
          split_ifs
          · -- putting off is not part of the walk
            exact ih (M₂.trans ⟨_, _, rfl⟩) hput
          · exact ih M₂ E₂

omit hlive hp hmatch in
/-- Bridging out of a node whose neighbors have been seen queues nothing. -/
theorem bridgeOut_repaid (b : Beam) {id : Nat} (hseen : ∀ x ∈ h.nbrs id layer, x ∈ b.visited) :
    h.bridgeOut query layer predicate b id = .ok (false, b) := by
  unfold bridgeOut
  rw [H.neighbors_eq, Outcome.ok_bind]
  generalize h.nbrs id layer = ids at hseen
  induction ids with
  | nil => rfl
  | cons x rest ih =>
    have hvisit : h.visit query predicate b x = .ok (false, b) := by
      unfold visit
      rw [if_pos (List.contains_iff_mem.mpr (hseen x List.mem_cons_self))]
      rfl
    rw [List.foldlM_cons]
    dsimp only
    rw [hvisit]
    have hrest := ih fun y hy => hseen y (List.mem_cons_of_mem x hy)
    split_ifs
    · exact hrest
    · exact hrest

omit hlive hp hmatch in
theorem rescue_repaid (b : Beam) {deferred : List Cand}
    (hseen : ∀ c ∈ deferred, ∀ x ∈ h.nbrs c.id layer, x ∈ b.visited) :
    h.rescue query layer predicate deferred b = .ok (false, b) := by
  unfold rescue
  induction deferred with
  | nil => rfl
  | cons c rest ih =>
    have hrest := ih fun d hd => hseen d (List.mem_cons_of_mem c hd)
    rw [List.foldlM_cons]
    dsimp only
    rw [bridgeOut_repaid H b (hseen c List.mem_cons_self)]
    split_ifs
    · exact hrest
    · exact hrest

omit H hlive hp hmatch in
/-- A spent allowance stays spent. -/
theorem spent_steady : Steady h query predicate (fun _ => True) fun b => b.tr.expansions = 0 := by
  refine ⟨fun b b' hm hb => ?_, fun _ _ _ _ hb => hb, fun b c rest _ _ hb => ?_, fun _ _ hb => hb⟩
  · cases hm with
    | queue => exact hb
    | route => exact hb
    | skip => exact hb
  · simp [Traversal.countExpansion, hb]

/-- The rescue rounds add nothing. -/
theorem searchRounds_inert (rounds fuel : Nat) {b b' : Beam} (M : SameWalk b b')
    (E : Even h query layer b') :
    After (fun r' => r'.tr.expansions ≠ 0 →
        ∃ r, h.searchRounds query layer none (rounds + 1) b = .ok r ∧ SameWalk r r')
      (h.searchRounds query layer predicate (fuel + 1) b') := by
  rw [searchRounds_plain, searchRounds.eq_def]
  dsimp only
  refine After.bind (walkFrontier_inert H hlive hp hmatch (h.n + 1) M E) fun r' hr' => ?_
  split_ifs with hstop hnone
  · exact fun hleft => (hr' hleft).1
  · intro hleft
    obtain ⟨⟨r, hrun, M'⟩, -⟩ := hr' hleft
    exact ⟨r, hrun, M'.trans ⟨[], r'.tr, rfl⟩⟩
  · by_cases hleft : r'.tr.expansions = 0
    · -- a walk that ran out has nothing left after the rounds that follow it either
      have hspent : ∀ b'' : Beam, b''.tr.expansions = 0 → b''.tr.expansions ≠ 0 →
          ∃ r, h.walkFrontier query layer none (h.n + 1) b = .ok r ∧ SameWalk r b'' :=
        fun _ hzero hne => absurd hzero hne
      refine After.bind (rescue_moves (closed_univ h layer) (fun _ _ => trivial) _) ?_
      rintro ⟨progressed, b₂⟩ hm
      have hb₂ : b₂.tr.expansions = 0 := Moves.keeps spent_steady.move hm hleft
      cases progressed with
      | false => exact hspent b₂ hb₂
      | true =>
        exact (searchRounds_keeps (closed_univ h layer) spent_steady fuel hb₂
          ⟨fun _ _ => trivial, fun _ _ => trivial⟩).mono hspent
    · obtain ⟨⟨r, hrun, M'⟩, hseen⟩ := hr' hleft
      rw [rescue_repaid H { r' with deferred := [] } fun c hc =>
        hseen c ((List.mem_insertionSort (· ≤ ·)).mp hc)]
      exact fun _ => ⟨r, hrun, M'.trans ⟨[], r'.tr, rfl⟩⟩

/-- **The bottom layer.** While its allowance lasts, a filtered search from the node navigation ends on,
given once or twice, finds what the unfiltered one finds. -/
theorem searchLayer_inert {e : Nat} (he : e < h.n) {seeds : List Nat}
    (hseeds : seeds = [] ∨ seeds = [e]) (ef layer : Nat) (tr tr' : Traversal) :
    After (fun r' => r'.2.expansions ≠ 0 →
        ∃ tr'', h.searchLayer query [e] ef layer none tr = .ok (r'.1, tr''))
      (h.searchLayer query ([e] ++ seeds) ef layer predicate tr') := by
  have hstart : ∀ x ∈ [e], x < h.n := fun x hx => List.mem_singleton.mp hx ▸ he
  -- a second seed that has been seen is not looked at again
  have htwice : h.seedBeam query predicate ([e] ++ seeds) (Beam.new ef tr') =
      h.seedBeam query none [e] (Beam.new ef tr') := by
    rw [← seedBeam_matching hmatch _ hstart]
    rcases hseeds with rfl | rfl
    · rfl
    · have hone : After _ (h.seedBeam query predicate [e] (Beam.new ef tr')) :=
        seedBeam_one predicate e ef tr'
      show [e, e].foldlM _ _ = _
      rw [show [e, e] = [e] ++ [e] from rfl, List.foldlM_append]
      refine Eq.trans ?_ (bind_pure _)
      show h.seedBeam query predicate [e] (Beam.new ef tr') >>= _ = _
      cases hrun : h.seedBeam query predicate [e] (Beam.new ef tr') with
      | error fault => rfl
      | ok b =>
        have hb := hone.elim hrun
        rw [Outcome.ok_bind, List.foldlM_cons, if_pos (by simp [hb, Beam.push, Beam.see])]
        rfl
  have hsame : Alike SameWalk (h.seedBeam query none [e] (Beam.new ef tr))
      (h.seedBeam query none [e] (Beam.new ef tr')) := seedBeam_same ⟨[], tr', rfl⟩ [e]
  have hmoves : After (Moves h query none (· < h.n) (Beam.new ef tr'))
      (h.seedBeam query none [e] (Beam.new ef tr')) := seedBeam_moves hstart _
  unfold searchLayer
  rw [htwice]
  generalize h.seedBeam query none [e] (Beam.new ef tr) = run at hsame ⊢
  generalize h.seedBeam query none [e] (Beam.new ef tr') = run' at hsame hmoves ⊢
  cases hsame with
  | error fault => trivial
  | @ok b b' M =>
    have E : Even h query layer b' :=
      Moves.keeps (fun _ _ => Even.move hlive) hmoves (Even.new h query layer ef tr')
    rw [Outcome.ok_bind, Outcome.ok_bind]
    refine After.bind (searchRounds_inert H hlive hp hmatch h.n h.n M E) ?_
    intro r' hr' hleft
    obtain ⟨r, hrun, deferred, tr'', rfl⟩ := hr' hleft
    refine ⟨r.tr, ?_⟩
    rw [hrun]
    rfl

end Simulation

/-! ## The allowance -/

/-- A predicate-aware layer search takes from the allowance what it counts. -/
theorem searchLayer_counted (hp : isFiltered predicate = true) (seeds : List Nat) (ef layer : Nat)
    (tr : Traversal) :
    After (fun r => r.2.expansions + r.2.cost.expansions = tr.expansions + tr.cost.expansions ∧
        tr.cost.expansions ≤ r.2.cost.expansions)
      (h.searchLayer query seeds ef layer predicate tr) := by
  have K : Steady h query predicate (fun _ => True) fun b =>
      b.tr.expansions + b.tr.cost.expansions = tr.expansions + tr.cost.expansions ∧
        tr.cost.expansions ≤ b.tr.cost.expansions := by
    refine ⟨fun b b' hm hb => ?_, fun _ _ _ _ hb => hb, fun b c rest _ hleft hb => ?_,
      fun _ _ hb => hb⟩
    · cases hm with
      | queue => exact hb
      | route => exact hb
      | skip => exact hb
    · have hpos := hleft hp
      simp only [Traversal.countExpansion, hp, if_true]
      omega
  refine (searchLayer_keeps (closed_univ h layer) K (fun _ _ => trivial) ⟨rfl, le_rfl⟩).mono ?_
  rintro r ⟨b, hb, rfl⟩
  exact hb

/-- So do the probes of the descent. -/
theorem descendBilled_counted (hp : isFiltered predicate = true) (layers epIds seeds : List Nat)
    (tr : Traversal) :
    After (fun r => r.1.2.2.expansions + r.2.expansions = tr.expansions)
      (h.descendBilled query predicate layers epIds seeds tr) := by
  refine Run.after_foldlM_const
    (fun r : (List Nat × List Nat × Traversal) × SearchCost =>
      r.1.2.2.expansions + r.2.expansions = tr.expansions) layers ?_ rfl
  rintro lc ⟨⟨eps, seeds, tr₀⟩, bill⟩ - hbill
  refine After.bind (searchLayer_unfiltered h query eps 1 lc tr₀) ?_
  rintro ⟨w, tr₁⟩ hsame
  dsimp only at hsame hbill ⊢
  rw [if_pos hp]
  refine After.bind (searchLayer_counted hp _ 1 lc tr₁) ?_
  rintro ⟨found, tr₂⟩ ⟨hsum, hgrows⟩
  show tr₂.expansions + (bill.expansions + (tr₂.cost.expansions - tr₁.cost.expansions)) = _
  dsimp only at hsum hgrows
  omega

/-! ## The descent -/

section Descent

variable (H : InRange h) (hq : query.length = h.dim) (hlive : ∀ id < h.n, h.isDeleted id = false)
  (hp : isFiltered predicate = true) (hmatch : ∀ id < h.n, h.nodeMatches id predicate = true)
include H hq hlive hp hmatch

/-- The probes end where navigation does. -/
theorem descend_inert (layers : List Nat) (hlayers : ∀ l ∈ layers, l ≠ 0) {start : Nat}
    (hstart : start < h.n) {seeds : List Nat} (hseeds : seeds = [] ∨ seeds = [start])
    (tr tr' : Traversal) :
    Ensures (h.descend query none layers [start] [] tr) fun r => ∃ e < h.n, r.1 = [e] ∧ r.2.1 = [] ∧
      Ensures (h.descend query predicate layers [start] seeds tr') fun r' =>
        r'.1 = [e] ∧ (r'.2.1 = [] ∨ r'.2.1 = [e]) := by
  induction layers generalizing start seeds tr tr' with
  | nil => exact ensures_pure.mpr ⟨start, hstart, rfl, rfl, ensures_pure.mpr ⟨rfl, hseeds⟩⟩
  | cons lc layers ih =>
    have hlc : lc ≠ 0 := hlayers lc List.mem_cons_self
    obtain ⟨⟨w, tr₁⟩, hnav, r, hr, hw, hmin, hcloser⟩ :=
      searchLayer_descends H hq hlive hstart lc tr
    dsimp only at hw
    subst hw
    -- the same step, with whatever the filtered search has left
    obtain ⟨⟨w', tr₁'⟩, hnav', heq⟩ := (searchLayer_same H [start] 1 lc tr tr').of_left hnav
    dsimp only at heq
    subst heq
    obtain ⟨⟨found, tr₂'⟩, hprobe, hfound⟩ := searchLayer_stays H hq hlive hp hmatch hr hstart hlc hmin
      hcloser hseeds tr₁'
    dsimp only at hfound
    subst hfound
    have hplain : h.descend query none [lc] [start] [] tr = .ok ([r], [], tr₁) := by
      unfold descend
      rw [List.foldlM_cons]
      dsimp only
      rw [hnav]
      rfl
    have hfiltered : h.descend query predicate [lc] [start] seeds tr' = .ok ([r], [r], tr₂') := by
      unfold descend
      rw [List.foldlM_cons]
      dsimp only
      rw [hnav', Outcome.ok_bind]
      dsimp only [List.head?_cons]
      rw [if_pos hp]
      show (h.searchLayer query ([r] ++ seeds) 1 lc predicate tr₁' >>= _) >>= _ = _
      rw [hprobe]
      rfl
    rw [descend_cons, hplain, descend_cons, hfiltered]
    exact ih (fun l hl => hlayers l (List.mem_cons_of_mem lc hl)) hr (.inr rfl) tr₁ tr₂'

end Descent

/-! ## The whole search -/

omit [Arith] in
/-- A search that has counted fewer than `16 * ef` expansions has some of its allowance left: where the
product saturates, the graph is too small to spend it. -/
theorem allowance_left (W : WellFormed h) {ef spent left : Nat}
    (hcount : left + spent = (Traversal.forEf ef).expansions) (hspare : spent < 16 * ef)
    (hfrugal : (Traversal.forEf ef).expansions ≤ left + h.memberships) : left ≠ 0 := by
  have hfits : h.memberships < 2 ^ 32 := by
    rw [memberships_eq W.toLayout]
    exact W.fits
  have hallow : (Traversal.forEf ef).expansions = min (ef * 16) (2 ^ 64 - 1) := rfl
  intro hzero
  rcases Nat.le_total (ef * 16) (2 ^ 64 - 1) with hle | hle
  · rw [hallow, Nat.min_eq_left hle] at hcount
    omega
  · rw [hallow, Nat.min_eq_right hle] at hfrugal
    omega

/-- A descent that returns has a bill. -/
theorem descendBilled_ok {layers epIds seeds : List Nat} {tr : Traversal}
    {r : List Nat × List Nat × Traversal}
    (hrun : h.descend query predicate layers epIds seeds tr = .ok r) :
    ∃ bill, h.descendBilled query predicate layers epIds seeds tr = .ok (r, bill) := by
  rw [← descendBilled_erase] at hrun
  cases hbilled : h.descendBilled query predicate layers epIds seeds tr with
  | error fault =>
    rw [hbilled] at hrun
    cases hrun
  | ok r' =>
    rw [hbilled] at hrun
    exact ⟨r'.2, congrArg Except.ok (Prod.ext (Except.ok.inj hrun) rfl)⟩

/-- What a whole filtered search leaves of its allowance. -/
theorem bottom_left (W : WellFormed h) (hp : isFiltered predicate = true) {entry ef : Nat}
    (hentry : h.entryPoint = some entry) {eps seeds : List Nat} {tr tr' : Traversal}
    {descent : SearchCost} {w : List Cand}
    (hdescent : h.descendBilled query predicate (upperLayers h.maxLayer) [entry] []
      (Traversal.forEf ef) = .ok ((eps, seeds, tr), descent))
    (hseeds : ∀ x ∈ eps ++ seeds, x < h.n)
    (hbottom : h.searchLayer query (eps ++ seeds) ef 0 predicate (tr.refillDetours ef) = .ok (w, tr'))
    (hspare : descent.expansions + (tr'.cost.since tr.cost).expansions < 16 * ef) :
    tr'.expansions ≠ 0 := by
  have hown : ∀ x ∈ [entry], h.Owns x h.maxLayer := by
    intro x hx
    rw [List.mem_singleton.mp hx]
    exact W.entry_owns hentry
  have hnone : ∀ x ∈ ([] : List Nat), h.Owns x h.maxLayer := nofun
  have hrun : h.descend query predicate (upperLayers h.maxLayer) [entry] [] (Traversal.forEf ef) =
      .ok (eps, seeds, tr) := by
    rw [← descendBilled_erase, hdescent]
    rfl
  have hcount : tr.expansions + descent.expansions = (Traversal.forEf ef).expansions :=
    (descendBilled_counted hp ..).elim hdescent
  have hfrugal : (Traversal.forEf ef).expansions ≤
      tr.expansions + ∑ l ∈ Finset.range h.maxLayer, h.owners (l + 1) :=
    (descend_frugal W h.maxLayer hown hnone _).elim hrun
  obtain ⟨hcount', hgrows⟩ : tr'.expansions + tr'.cost.expansions = tr.expansions + tr.cost.expansions ∧
      tr.cost.expansions ≤ tr'.cost.expansions :=
    (searchLayer_counted hp ..).elim hbottom
  have hfrugal' : tr.expansions ≤ tr'.expansions + h.owners 0 :=
    ((searchLayer_frugal W (fun x hx => ⟨hseeds x hx, W.levelsOf_pos (hseeds x hx)⟩) ef _).elim
      hbottom).1
  have hsum := sum_owners_le h (h.maxLayer + 1)
  rw [Finset.sum_range_succ'] at hsum
  have hbill : (tr'.cost.since tr.cost).expansions = tr'.cost.expansions - tr.cost.expansions := rfl
  have hsum' : tr'.expansions + (descent.expansions + (tr'.cost.since tr.cost).expansions) =
      (Traversal.forEf ef).expansions := by
    omega
  have hfrugal'' : (Traversal.forEf ef).expansions ≤ tr'.expansions + h.memberships := by
    omega
  exact allowance_left W hsum' hspare hfrugal''

/-- **A filter that excludes nothing.** Over a well-formed graph without tombstones, every row of which
satisfies the predicate, a filtered search that counts fewer predicate-aware expansions than its
allowance is the unfiltered search. -/
theorem searchFiltered_inert (h : Hnsw) (W : WellFormed h)
    (hlive : ∀ id < h.n, h.isDeleted id = false) (predicate : Predicate) (hp : predicate ≠ .all)
    (hmatch : ∀ id < h.n, predicate.satisfiedBy (h.attrsOf id) = true) (query : List F32)
    (k efSearch : Nat) (hk : 1 ≤ k)
    (hspare : After (fun r => r.2.descent.expansions + r.2.bottom.expansions < 16 * max efSearch k)
      (h.searchInnerBilled query k efSearch (some predicate))) :
    h.searchFiltered query k efSearch predicate = h.search query k efSearch := by
  have hfiltered : isFiltered (some predicate) = true := isFiltered_of_ne hp
  have hplain : isFiltered none = false := rfl
  unfold searchFiltered searchFilteredWithCost search searchInner
  unfold searchInnerBilled at hspare
  have hk' : k ≠ 0 := Nat.one_le_iff_ne_zero.mp hk
  cases he : h.entryPoint with
  | none => rfl
  | some entry =>
    rw [he] at hspare
    by_cases hq : query.length = h.dim
    · simp only [if_neg hk', if_neg (not_not.mpr hq), hfiltered, hplain, if_true, Bool.false_eq_true,
        if_false] at hspare ⊢
      generalize max efSearch k = ef at hspare ⊢
      -- navigation ends on one node, and so do the probes
      obtain ⟨⟨eps, seeds, tr⟩, hrun, e, hlt, heps, hnone, ⟨eps', seeds', tr'⟩, hrun', heps', hseeds⟩ :=
        descend_inert W.toInRange hq hlive hfiltered hmatch (upperLayers h.maxLayer)
          (fun l hl => (mem_upperLayers.mp hl).1.ne') (W.entry_lt entry he) (.inl rfl)
          Traversal.unfiltered (Traversal.forEf ef)
      dsimp only at heps hnone heps' hseeds
      subst heps hnone heps'
      have hlt' : ∀ x ∈ [e] ++ seeds', x < h.n := by
        intro x hx
        have hxe : x = e := by
          rcases hseeds with rfl | rfl
          · simpa using hx
          · simpa using hx
        exact hxe ▸ hlt
      -- the bottom layer
      have hreturns : Ensures (h.searchLayer query ([e] ++ seeds') ef 0 (some predicate)
          (tr'.refillDetours ef)) _ := searchLayer_spec W.toInRange hq hlt' ef 0 _
      obtain ⟨⟨w, tr₂'⟩, hbottom', -⟩ := hreturns
      obtain ⟨descent, hbilled⟩ := descendBilled_ok hrun'
      rw [hbilled, Outcome.ok_bind, hbottom'] at hspare
      obtain ⟨tr₂, hbottom⟩ := (searchLayer_inert W.toInRange hlive hfiltered hmatch hlt hseeds ef 0 tr
        (tr'.refillDetours ef)).elim hbottom' (bottom_left W hfiltered he hbilled hlt' hbottom' hspare)
      dsimp only at hbottom
      simp only [hrun, hrun', Outcome.ok_bind, List.append_nil, hbottom, hbottom']
      rfl
    · simp only [if_neg hk', if_pos hq]

omit [Arith] in
/-- The whole price list, under a limit that no row exceeds. -/
theorem searchFiltered_inert_priced :
    Ensures pricedGraph fun h =>
      Ensures (@search Arith.ieee h pricedQuery 3 4) (·.map Prod.snd = [3, 2, 0]) ∧
        @searchFiltered Arith.ieee h pricedQuery 3 4 (pricedUpTo 9) =
          @search Arith.ieee h pricedQuery 3 4 := by
  let := Arith.ieee
  obtain ⟨h, hrun, W⟩ := pricedGraph_wellFormed
  have hfacts : Ensures pricedGraph fun h => (∀ id < h.n, h.isDeleted id = false) ∧
      (∀ id < h.n, (pricedUpTo 9).satisfiedBy (h.attrsOf id) = true) ∧
      After (fun r => r.2.descent.expansions + r.2.bottom.expansions < 16 * max 4 3)
        (h.searchInnerBilled pricedQuery 3 4 (some (pricedUpTo 9))) ∧
      Ensures (h.search pricedQuery 3 4) (·.map Prod.snd = [3, 2, 0]) := by
    decide +kernel
  obtain ⟨hlive, hmatch, hspare, hhits⟩ := hfacts.elim hrun
  exact ⟨h, hrun, hhits, searchFiltered_inert h W hlive (pricedUpTo 9) nofun hmatch pricedQuery 3 4
    (by decide) hspare⟩

end Hnsw

end Brindle
