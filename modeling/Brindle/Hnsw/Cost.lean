/-
# Brindle.Hnsw.Cost — what a filtered search may spend.

Work is charged in three places: a distance for every node first seen, a detour for every node queued
to route through, and an expansion for every node popped. Between two pops `Charge` bounds the first
and balances the second against the allowance; `Outlay` is the balance over a whole walk, in which the
expansions taken from the allowance pay for everything else. A rescue bridges out of an expansion that
has been paid for already, so each expansion is charged once more for the neighbors it may still owe:
that debt is the length of the deferred list.

`searchInner` reports one total. `searchInnerBilled` is the same search that also reports what its
predicate-aware layer searches spent, and `searchInnerBilled_erase` that it is the same search.
-/
import Brindle.Hnsw.Answers
import Brindle.Hnsw.Configured

namespace Brindle

open Outcome (Ensures)
open Run (After after_iff after_foldlM after_foldlM_const after_true)

/-- What was spent between two readings. -/
def SearchCost.since (now before : SearchCost) : SearchCost where
  distances := now.distances - before.distances
  expansions := now.expansions - before.expansions
  detours := now.detours - before.detours

def SearchCost.add (a b : SearchCost) : SearchCost where
  distances := a.distances + b.distances
  expansions := a.expansions + b.expansions
  detours := a.detours + b.detours

/-- What the predicate-aware layer searches of one query spent, above layer 0 and at it. -/
structure Bill where
  descent : SearchCost
  bottom : SearchCost

namespace Hnsw

variable [Arith]

/-! ## The search, with its bill -/

/-- `descend`, with what its probes spent. -/
def descendBilled (h : Hnsw) (query : List F32) (predicate : Option Predicate) (layers : List Nat)
    (epIds seeds : List Nat) (tr : Traversal) :
    Outcome HnswError ((List Nat × List Nat × Traversal) × SearchCost) :=
  layers.foldlM (fun ((epIds, seeds, tr), bill) lc => do
    let (w, tr) ← h.searchLayer query epIds 1 lc none tr
    let epIds := match w.head? with
      | some nearest => [nearest.id]
      | none => epIds
    if isFiltered predicate then
      let before := tr.cost
      let (found, tr) ← h.searchLayer query (epIds ++ seeds) 1 lc predicate tr
      return ((epIds, found.map Cand.id, tr), bill.add (tr.cost.since before))
    return ((epIds, seeds, tr), bill)) ((epIds, seeds, tr), {})

/-- `searchInner`, with what its predicate-aware layer searches spent. -/
def searchInnerBilled (h : Hnsw) (query : List F32) (k efSearch : Nat)
    (predicate : Option Predicate) :
    Outcome HnswError ((List (F32 × Nat) × SearchCost) × Bill) := do
  match h.entryPoint with
  | none => return (([], {}), ⟨{}, {}⟩)
  | some entry =>
    if k = 0 then return (([], {}), ⟨{}, {}⟩)
    if query.length ≠ h.dim then Outcome.fail (.dimensionMismatch h.dim query.length)
    else
      let filtered := isFiltered predicate
      let ef := max efSearch k
      let tr := if filtered then Traversal.forEf ef else Traversal.unfiltered
      let ((epIds, seeds, tr), descent) ←
        h.descendBilled query predicate (upperLayers h.maxLayer) [entry] [] tr
      let tr := if filtered then tr.refillDetours ef else tr
      let before := tr.cost
      let (w, tr) ← h.searchLayer query (epIds ++ seeds) ef 0 predicate tr
      let bottom := if filtered then tr.cost.since before else {}
      return (((w.take k).map (fun c => (c.dist, c.id)), tr.cost), ⟨descent, bottom⟩)

theorem descendBilled_erase (h : Hnsw) (query : List F32) (predicate : Option Predicate)
    (layers epIds seeds : List Nat) (tr : Traversal) :
    Prod.fst <$> h.descendBilled query predicate layers epIds seeds tr =
      h.descend query predicate layers epIds seeds tr := by
  refine Outcome.map_foldlM Prod.fst ?_ layers ((epIds, seeds, tr), ({} : SearchCost))
  rintro ⟨⟨eps, seeds, tr⟩, bill⟩ lc
  rw [map_bind]
  congr 1
  funext r
  dsimp only
  split_ifs with hp
  · rw [map_bind]
    rfl
  · rfl

/-- The bill is a report: the search is the same. -/
theorem searchInnerBilled_erase (h : Hnsw) (query : List F32) (k efSearch : Nat)
    (predicate : Option Predicate) :
    Prod.fst <$> h.searchInnerBilled query k efSearch predicate =
      h.searchInner query k efSearch predicate := by
  unfold searchInnerBilled searchInner
  cases h.entryPoint with
  | none => rfl
  | some entry =>
    dsimp only
    by_cases hk : k = 0
    · rw [if_pos hk, if_pos hk]
      rfl
    rw [if_neg hk, if_neg hk]
    by_cases hdim : query.length ≠ h.dim
    · rw [if_pos hdim, if_pos hdim]
      rfl
    rw [if_neg hdim, if_neg hdim, ← descendBilled_erase, map_bind, bind_map_left]
    congr 1
    funext r
    rw [map_bind]
    rfl

/-! ## Between two pops -/

/-- A stretch without a pop: at most `d` distances are computed, and expansions are neither taken from
the allowance nor put off. -/
structure Charge (b b' : Beam) (d : Nat) : Prop where
  distances : b'.tr.cost.distances ≤ b.tr.cost.distances + d
  expansions : b'.tr.expansions = b.tr.expansions
  counted : b'.tr.cost.expansions = b.tr.cost.expansions
  deferred : b'.deferred = b.deferred

namespace Charge

variable {b b' b'' : Beam} {d d' : Nat}

omit [Arith] in
theorem refl (b : Beam) : Charge b b 0 := ⟨le_rfl, rfl, rfl, rfl⟩

omit [Arith] in
theorem trans (c : Charge b b' d) (c' : Charge b' b'' d') : Charge b b'' (d + d') where
  distances := by
    have h1 := c.distances
    have h2 := c'.distances
    omega
  expansions := c'.expansions.trans c.expansions
  counted := c'.counted.trans c.counted
  deferred := c'.deferred.trans c.deferred

omit [Arith] in
theorem mono (c : Charge b b' d) (h : d ≤ d') : Charge b b' d' :=
  { c with distances := c.distances.trans (Nat.add_le_add_left h _) }

end Charge

variable {h : Hnsw} {query : List F32} {predicate : Option Predicate} {layer : Nat}

/-- A visit computes one distance at most. -/
theorem visit_charge (b : Beam) (id : Nat) :
    After (fun r => Charge b r.2 1) (h.visit query predicate b id) := by
  refine (visit_cases b id).mono ?_
  rintro r (⟨-, rfl⟩ | ⟨-, rfl⟩ | ⟨-, -, rfl⟩)
  · exact (Charge.refl b).mono (Nat.zero_le 1)
  · exact ⟨le_rfl, rfl, rfl, rfl⟩
  · exact ⟨le_rfl, rfl, rfl, rfl⟩

omit [Arith] in
/-- A loop that computes at most one distance a turn. -/
theorem foldlM_charge {α β : Type} {f : β → α → Outcome HnswError β} (beamOf : β → Beam)
    (xs : List α) (hstep : ∀ x s, After (fun s' => Charge (beamOf s) (beamOf s') 1) (f s x)) (s : β) :
    After (fun s' => Charge (beamOf s) (beamOf s') xs.length) (xs.foldlM f s) := by
  refine after_foldlM (fun done s' => Charge (beamOf s) (beamOf s') done.length) xs ?_
    (Charge.refl _)
  intro done x s' _ hdone
  rw [List.length_append]
  exact (hstep x s').mono fun s'' hs => hdone.trans hs

section Bounded

variable {deg : Nat} (L : Layout h) (hdeg : ∀ id, (h.nbrs id layer).length ≤ deg)
include L hdeg

theorem bridgeOut_charge (b : Beam) (id : Nat) :
    After (fun r => Charge b r.2 deg) (h.bridgeOut query layer predicate b id) := by
  unfold bridgeOut
  rw [L.neighbors_eq, Outcome.ok_bind]
  refine (foldlM_charge Prod.snd (h.nbrs id layer) ?_ (false, b)).mono fun r hr =>
    hr.mono (hdeg id)
  rintro x ⟨queued, b'⟩
  dsimp only
  split_ifs with hspent
  · exact (Charge.refl b').mono (Nat.zero_le 1)
  · refine After.bind (visit_charge b' x) ?_
    rintro ⟨joined, b''⟩ hv
    cases joined with
    | false => exact hv
    | true => exact ⟨hv.distances, hv.expansions, hv.counted, hv.deferred⟩

omit L hdeg in
/-- A distance for each matching neighbor. -/
theorem classifyNeighbors_charge (ids : List Nat) (b : Beam) :
    After (fun r => Charge b r.2.2 r.1 ∧ r.1 ≤ ids.length)
      (h.classifyNeighbors query predicate ids b) := by
  refine after_foldlM (fun done (r : Nat × List Nat × Beam) => Charge b r.2.2 r.1 ∧
    r.1 ≤ done.length) ids ?_ ⟨Charge.refl b, le_rfl⟩
  rintro done x ⟨matching, bridges, b'⟩ - ⟨hc, hle⟩
  rw [List.length_append]
  dsimp only at hc hle ⊢
  split_ifs with hmatch hroom
  · refine After.bind (visit_charge b' x) ?_
    rintro ⟨joined, b''⟩ hv
    exact ⟨hc.trans hv, Nat.add_le_add_right hle 1⟩
  · exact ⟨hc, hle.trans (Nat.le_add_right _ _)⟩
  · exact ⟨hc, hle.trans (Nat.le_add_right _ _)⟩

omit hdeg in
/-- A distance for each match across the bridges, of which there are at most `m`. -/
theorem crossBridges_charge (bridges : List Nat) (matching : Nat) (b : Beam) :
    After (fun r => ∃ d ≤ h.m, r.1 = matching + d ∧ Charge b r.2 d)
      (h.crossBridges query layer predicate bridges matching b) := by
  -- once `m` matches have been produced, no later turn produces another
  let I : Nat × Beam → Prop := fun r =>
    ∃ d, r.1 = matching + d ∧ (0 < d → r.1 ≤ h.m) ∧ Charge b r.2 d
  have hloop : After I (h.crossBridges query layer predicate bridges matching b) := by
    refine after_foldlM_const I bridges ?_ ⟨0, rfl, nofun, Charge.refl b⟩
    rintro bridge ⟨matching', b'⟩ - hI
    dsimp only
    split_ifs with hdone
    · exact hI
    · rw [L.neighbors_eq, Outcome.ok_bind]
      refine after_foldlM_const I _ ?_ hI
      rintro x ⟨matching'', b''⟩ - hI'
      dsimp only
      split_ifs with hdone' hmatch
      · exact hI'
      · obtain ⟨d, hd, -, hc⟩ := hI'
        dsimp only at hd hc
        refine After.bind (visit_charge b'' x) ?_
        rintro ⟨joined, b₃⟩ hv
        refine ⟨d + 1, ?_, fun _ => ?_, hc.trans hv⟩
        · rw [hd]
          omega
        · dsimp only
          omega
      · exact hI'
  refine hloop.mono ?_
  rintro ⟨matching', b'⟩ ⟨d, hd, hle, hc⟩
  refine ⟨d, ?_, hd, hc⟩
  rcases Nat.eq_zero_or_pos d with hzero | hpos
  · omega
  · have hm := hle hpos
    dsimp only at hd hm
    omega

/-- A filtered expansion scores its matching neighbors and those across a bridge, or bridges out. -/
theorem expand_charge (hp : isFiltered predicate = true) (b : Beam) (id : Nat) :
    After (fun r => Charge b r.2 (if r.1 then deg else deg + h.m))
      (h.expand query layer predicate b id) := by
  unfold expand
  rw [L.neighbors_eq, Outcome.ok_bind, hp]
  simp only [Bool.not_true, Bool.false_eq_true, if_false]
  refine After.bind (classifyNeighbors_charge (h.nbrs id layer) b) ?_
  rintro ⟨matching, bridges, b₁⟩ ⟨hc₁, hle⟩
  refine After.bind (crossBridges_charge L bridges matching b₁) ?_
  rintro ⟨matching', b₂⟩ ⟨d, hd, hsum, hc₂⟩
  have hids := hdeg id
  dsimp only at hc₁ hle hsum hc₂ ⊢
  split_ifs with hnone
  · refine After.bind (bridgeOut_charge L hdeg b₂ id) ?_
    rintro ⟨queued, b₃⟩ hc₃
    have hzero : matching + d = 0 := by omega
    have hall := (hc₁.trans hc₂).trans hc₃
    rw [hzero, Nat.zero_add] at hall
    exact hall
  · exact (hc₁.trans hc₂).mono (Nat.add_le_add (hle.trans hids) hd)

theorem rescue_charge (deferred : List Cand) (b : Beam) :
    After (fun r => Charge b r.2 (deg * deferred.length))
      (h.rescue query layer predicate deferred b) := by
  refine after_foldlM (fun done (r : Bool × Beam) => Charge b r.2 (deg * done.length)) deferred ?_
    (Charge.refl b)
  rintro done c ⟨progressed, b'⟩ - hc
  have hlen : deg * (done ++ [c]).length = deg * done.length + deg := by
    rw [List.length_append]
    exact Nat.mul_add_one _ _
  dsimp only at hc ⊢
  rw [hlen]
  split_ifs with hspent
  · exact hc.mono (Nat.le_add_right _ _)
  · refine After.bind (bridgeOut_charge L hdeg b' c.id) ?_
    rintro ⟨queued, b''⟩ hv
    exact hc.trans hv

omit L hdeg in
theorem seedBeam_charge (seeds : List Nat) (b : Beam) :
    After (fun b' => Charge b b' seeds.length) (h.seedBeam query predicate seeds b) := by
  apply after_seedBeam fun done b' => Charge b b' done.length
  · intro done x b' _ _ hc
    rw [List.length_append]
    exact hc.mono (Nat.le_add_right _ _)
  · intro done x b' _ _ hc
    rw [List.length_append]
    exact hc.trans ⟨le_rfl, rfl, rfl, rfl⟩
  · exact Charge.refl b

/-! ## Over a whole walk -/

omit L hdeg in
/-- A stretch with pops: the expansions taken pay for the distances computed and for the neighbors the
deferred expansions may still be bridged to. -/
def Outlay (deg m : Nat) (b b' : Beam) : Prop :=
  ∃ x, b'.tr.expansions + x = b.tr.expansions ∧
    b'.tr.cost.expansions = b.tr.cost.expansions + x ∧
    b'.tr.cost.distances + deg * b'.deferred.length ≤
      b.tr.cost.distances + deg * b.deferred.length + x * (2 * deg + m)

omit [Arith] L hdeg in
theorem Outlay.refl (m : Nat) (b : Beam) : Outlay deg m b b := ⟨0, rfl, rfl, by omega⟩

omit [Arith] L hdeg in
theorem Outlay.trans {m : Nat} {b b' b'' : Beam} (o : Outlay deg m b b') (o' : Outlay deg m b' b'') :
    Outlay deg m b b'' := by
  obtain ⟨x, hleft, hcount, hdist⟩ := o
  obtain ⟨y, hleft', hcount', hdist'⟩ := o'
  refine ⟨x + y, by omega, by omega, ?_⟩
  rw [Nat.add_mul]
  omega

variable (hp : isFiltered predicate = true)
include hp

/-- One expansion taken from the allowance. -/
theorem expansion_outlay {b : Beam} {c : Cand} {rest : List Cand} (hleft : b.tr.expansions ≠ 0) :
    After (fun r => Outlay deg h.m b
        (if r.1 then r.2 else { r.2 with deferred := r.2.deferred ++ [c] }))
      (h.expand query layer predicate
        { b with frontier := rest, tr := b.tr.countExpansion true } c.id) := by
  refine (expand_charge L hdeg hp _ c.id).mono ?_
  rintro ⟨bridged, b'⟩ hc
  have hdist := hc.distances
  have hexp : b'.tr.expansions = b.tr.expansions - 1 := hc.expansions
  have hcount : b'.tr.cost.expansions = b.tr.cost.expansions + 1 := hc.counted
  have hdef : b'.deferred = b.deferred := hc.deferred
  cases bridged with
  | true =>
    have hdist : b'.tr.cost.distances ≤ b.tr.cost.distances + deg := hdist
    refine ⟨1, ?_, hcount, ?_⟩
    · show b'.tr.expansions + 1 = b.tr.expansions
      omega
    · show b'.tr.cost.distances + deg * b'.deferred.length ≤ _
      rw [hdef]
      omega
  | false =>
    have hdist : b'.tr.cost.distances ≤ b.tr.cost.distances + (deg + h.m) := hdist
    refine ⟨1, ?_, hcount, ?_⟩
    · show b'.tr.expansions + 1 = b.tr.expansions
      omega
    · show b'.tr.cost.distances + deg * (b'.deferred ++ [c]).length ≤ _
      rw [hdef, List.length_append, List.length_singleton, Nat.mul_add_one]
      omega

theorem walkFrontier_outlay (fuel : Nat) (b : Beam) :
    After (Outlay deg h.m b) (h.walkFrontier query layer predicate fuel b) := by
  induction fuel generalizing b with
  | zero => trivial
  | succ fuel ih =>
    rw [walkFrontier.eq_def]
    dsimp only
    split
    · exact Outlay.refl h.m b
    · next c rest hf =>
      rw [hp]
      split_ifs with hcut hspent
      · exact Outlay.refl h.m b
      · exact Outlay.refl h.m b
      · have hleft : b.tr.expansions ≠ 0 := by
          intro hzero
          exact hspent (by simp [hzero])
        refine After.bind (expansion_outlay L hdeg hp hleft) ?_
        rintro ⟨bridged, b₂⟩ ho
        refine (ih _).mono fun b' ho' => Outlay.trans ?_ ho'
        cases bridged with
        | true => exact ho
        | false => exact ho

theorem searchRounds_outlay (rounds : Nat) (b : Beam) :
    After (Outlay deg h.m b) (h.searchRounds query layer predicate rounds b) := by
  induction rounds generalizing b with
  | zero => trivial
  | succ rounds ih =>
    unfold searchRounds
    refine After.bind (walkFrontier_outlay L hdeg hp (h.n + 1) b) fun b₁ ho => ?_
    -- the debt is what the rescue is paid from
    have hcleared : ∀ b₂, Charge { b₁ with deferred := [] } b₂ (deg * b₁.deferred.length) →
        Outlay deg h.m b b₂ := by
      intro b₂ hc
      refine ho.trans ⟨0, hc.expansions, hc.counted, ?_⟩
      have hdist : b₂.tr.cost.distances ≤ b₁.tr.cost.distances + deg * b₁.deferred.length :=
        hc.distances
      have hdef : b₂.deferred = [] := hc.deferred
      rw [hdef, List.length_nil]
      omega
    dsimp only
    split_ifs with hstop hnone
    · exact ho
    · exact hcleared _ ((Charge.refl _).mono (Nat.zero_le _))
    · refine After.bind (rescue_charge L hdeg _ _) ?_
      rintro ⟨progressed, b₂⟩ hc
      rw [List.length_insertionSort] at hc
      have ho₂ := hcleared b₂ hc
      cases progressed with
      | false => exact ho₂
      | true => exact (ih b₂).mono fun b' ho' => ho₂.trans ho'

/-- What a predicate-aware layer search spends, for the expansions it takes. -/
theorem searchLayer_outlay (seeds : List Nat) (ef : Nat) (tr : Traversal) :
    After (fun r => ∃ x, r.2.expansions + x = tr.expansions ∧
        r.2.cost.expansions = tr.cost.expansions + x ∧
        r.2.cost.distances ≤ tr.cost.distances + seeds.length + x * (2 * deg + h.m))
      (h.searchLayer query seeds ef layer predicate tr) := by
  refine After.bind (seedBeam_charge seeds (Beam.new ef tr)) fun b₁ hc => ?_
  refine After.bind (searchRounds_outlay L hdeg hp (h.n + 1) b₁) ?_
  rintro b₂ ⟨x, hleft, hcount, hdist⟩
  have hdist₁ : b₁.tr.cost.distances ≤ tr.cost.distances + seeds.length := hc.distances
  have hdef : b₁.deferred = [] := hc.deferred
  rw [hdef, List.length_nil] at hdist
  refine ⟨x, hleft.trans hc.expansions, ?_, ?_⟩
  · rw [hcount, hc.counted]
    rfl
  · dsimp only
    omega

end Bounded

/-! ## Detours -/

/-- Every detour counted is one taken from the allowance. -/
structure Paid (before after : Traversal) : Prop where
  balance : after.cost.detours + after.detours = before.cost.detours + before.detours
  grows : before.cost.detours ≤ after.cost.detours

omit [Arith] in
theorem Paid.trans {tr tr' tr'' : Traversal} (p : Paid tr tr') (p' : Paid tr' tr'') :
    Paid tr tr'' :=
  ⟨p'.balance.trans p.balance, p.grows.trans p'.grows⟩

theorem Paid.move {within : Nat → Prop} {tr : Traversal} {b b' : Beam}
    (hm : Move h query predicate within b b') (hb : Paid tr b.tr) : Paid tr b'.tr := by
  cases hm with
  | queue => exact ⟨hb.balance, hb.grows⟩
  | skip => exact ⟨hb.balance, hb.grows⟩
  | route id hin hnew hleft =>
    have hbalance := hb.balance
    have hgrows := hb.grows
    refine ⟨?_, ?_⟩
    · show b.tr.cost.detours + 1 + (b.tr.detours - 1) = _
      omega
    · show _ ≤ b.tr.cost.detours + 1
      omega

theorem searchLayer_paid (h : Hnsw) (query : List F32) (seeds : List Nat) (ef layer : Nat)
    (predicate : Option Predicate) (tr : Traversal) :
    After (fun r => Paid tr r.2) (h.searchLayer query seeds ef layer predicate tr) := by
  have K : Steady h query predicate (fun _ => True) fun b => Paid tr b.tr :=
    ⟨fun _ _ => Paid.move, fun _ _ _ _ hb => hb, fun _ _ _ _ _ hb => ⟨hb.balance, hb.grows⟩,
      fun _ _ hb => hb⟩
  refine (searchLayer_keeps (closed_univ h layer) K (fun _ _ => trivial) ⟨rfl, le_rfl⟩).mono ?_
  rintro r ⟨b, hb, rfl⟩
  exact hb

theorem searchLayer_length (h : Hnsw) (query : List F32) (seeds : List Nat) (ef layer : Nat)
    (predicate : Option Predicate) (tr : Traversal) :
    After (fun r => r.1.length ≤ ef) (h.searchLayer query seeds ef layer predicate tr) := by
  have K : Steady h query predicate (fun _ => True) fun b => b.ef = ef ∧ b.results.length ≤ ef := by
    refine ⟨fun b b' hm hb => ?_, fun _ _ _ _ hb => hb, fun _ _ _ _ _ hb => hb, fun _ _ hb => hb⟩
    have hpush : ∀ id, ((b.see id).push (h.scored query id)
        (h.admitted predicate id)).results.length ≤ ef := by
      intro id
      have hle : (b.see id).results.length ≤ (b.see id).ef := hb.2.trans hb.1.ge
      exact (Beam.push_results_length (b.see id) _ _ hle).trans hb.1.le
    cases hm with
    | queue id => exact ⟨hb.1, hpush id⟩
    | route id => exact ⟨hb.1, hpush id⟩
    | skip => exact hb
  refine (searchLayer_keeps (closed_univ h layer) K (fun _ _ => trivial)
    ⟨rfl, Nat.zero_le _⟩).mono ?_
  rintro r ⟨b, ⟨-, hb⟩, rfl⟩
  exact hb

/-! ## The whole search -/

/-- The bounds on one filtered search. -/
structure WithinBudget (h : Hnsw) (ef : Nat) (cost : SearchCost) (bill : Bill) : Prop where
  detours : cost.detours ≤ 8 * ef
  descent_detours : bill.descent.detours ≤ 4 * ef
  bottom_detours : bill.bottom.detours ≤ 4 * ef
  expansions : bill.descent.expansions + bill.bottom.expansions ≤ 16 * ef
  distances : bill.descent.distances + bill.bottom.distances ≤
    2 * (h.maxLayer + 1) + 16 * ef * (2 * h.m0Cap + h.m)

omit [Arith] in
theorem saturatingMul_le (a b : Nat) : Traversal.saturatingMul a b ≤ a * b := Nat.min_le_left _ _

/-- How the books stand after `layers` layers of the descent. -/
structure Descending (h : Hnsw) (tr₀ : Traversal) (layers : Nat)
    (r : (List Nat × List Nat × Traversal) × SearchCost) : Prop where
  entry_length : r.1.1.length ≤ 1
  seeds_length : r.1.2.1.length ≤ 1
  paid : Paid tr₀ r.1.2.2
  expansions : r.1.2.2.expansions + r.2.expansions = tr₀.expansions
  detours : r.2.detours ≤ r.1.2.2.cost.detours
  distances : r.2.distances ≤ 2 * layers + r.2.expansions * (2 * h.m0Cap + h.m)

section Search

variable (W : WellFormed h) (hcaps : h.mCap ≤ h.m0Cap)
include W hcaps

omit [Arith] in
theorem degree_le (layer id : Nat) : (h.nbrs id layer).length ≤ h.m0Cap := by
  refine (W.capped id layer).trans ?_
  unfold maxDegree
  split_ifs
  · exact le_rfl
  · exact hcaps

theorem descendBilled_books (hp : isFiltered predicate = true) (layers : List Nat) {entry : Nat}
    (tr₀ : Traversal) :
    After (Descending h tr₀ layers.length)
      (h.descendBilled query predicate layers [entry] [] tr₀) := by
  refine after_foldlM (fun done => Descending h tr₀ done.length) layers ?_
    ⟨le_rfl, Nat.zero_le 1, ⟨rfl, le_rfl⟩, rfl, Nat.zero_le _, Nat.zero_le _⟩
  rintro done lc ⟨⟨eps, seeds, tr⟩, bill⟩ - B
  rw [List.length_append, List.length_singleton]
  obtain ⟨heps, hseeds, hpaid, hexp, hdet, hdist⟩ := B
  dsimp only at heps hseeds hpaid hexp hdet hdist ⊢
  refine After.bind ((searchLayer_unfiltered h query eps 1 lc tr).and
    (searchLayer_paid h query eps 1 lc none tr)) ?_
  rintro ⟨w, tr₁⟩ ⟨hexp₁, hpaid₁⟩
  dsimp only at hexp₁ hpaid₁ ⊢
  generalize heps' : (match w.head? with
    | some nearest => [nearest.id]
    | none => eps) = eps'
  have hlen : eps'.length ≤ 1 := by
    rw [← heps']
    cases w.head? with
    | none => exact heps
    | some nearest => exact le_rfl
  rw [if_pos hp]
  have hdeg := degree_le W hcaps lc
  refine After.bind (((searchLayer_outlay W.toLayout hdeg hp (eps' ++ seeds) 1 tr₁).and
    (searchLayer_paid h query (eps' ++ seeds) 1 lc predicate tr₁)).and
    (searchLayer_length h query (eps' ++ seeds) 1 lc predicate tr₁)) ?_
  rintro ⟨found, tr₂⟩ ⟨⟨⟨x, hleft, hcount, hspent⟩, hpaid₂⟩, hfound⟩
  rw [List.length_append] at hspent
  dsimp only at hleft hcount hspent hpaid₂ hfound
  have hx : tr₂.cost.expansions - tr₁.cost.expansions = x := by omega
  refine ⟨hlen, ?_, ?_, ?_, ?_, ?_⟩
  · show (found.map Cand.id).length ≤ 1
    rw [List.length_map]
    exact hfound
  · exact (hpaid.trans hpaid₁).trans hpaid₂
  · show tr₂.expansions + (bill.expansions + (tr₂.cost.expansions - tr₁.cost.expansions)) = _
    omega
  · show bill.detours + (tr₂.cost.detours - tr₁.cost.detours) ≤ tr₂.cost.detours
    have hgrows₁ : tr.cost.detours ≤ tr₁.cost.detours := hpaid₁.grows
    have hgrows₂ : tr₁.cost.detours ≤ tr₂.cost.detours := hpaid₂.grows
    omega
  · show bill.distances + (tr₂.cost.distances - tr₁.cost.distances) ≤
      2 * (done.length + 1) +
        (bill.expansions + (tr₂.cost.expansions - tr₁.cost.expansions)) * (2 * h.m0Cap + h.m)
    rw [hx, Nat.add_mul]
    omega

theorem searchInnerBilled_books (hp : isFiltered predicate = true) (k efSearch : Nat) :
    After (fun r => WithinBudget h (max efSearch k) r.1.2 r.2)
      (h.searchInnerBilled query k efSearch predicate) := by
  have hnone : WithinBudget h (max efSearch k) {} ⟨{}, {}⟩ :=
    ⟨Nat.zero_le _, Nat.zero_le _, Nat.zero_le _, Nat.zero_le _, Nat.zero_le _⟩
  unfold searchInnerBilled
  cases h.entryPoint with
  | none => exact hnone
  | some entry =>
    dsimp only
    split_ifs with hk hdim
    · exact hnone
    · trivial
    generalize hef : max efSearch k = ef
    have hallow : Traversal.saturatingMul ef Traversal.expansionsPerEf ≤ ef * 16 :=
      saturatingMul_le ef 16
    have hdetours : Traversal.saturatingMul ef Traversal.detoursPerEf ≤ ef * 4 :=
      saturatingMul_le ef 4
    refine After.bind (descendBilled_books W hcaps hp (upperLayers h.maxLayer)
      (Traversal.forEf ef)) ?_
    rintro ⟨⟨eps, seeds, tr⟩, descent⟩ ⟨heps, hseeds, hpaid, hexp, hdet, hdist⟩
    dsimp only at heps hseeds hpaid hexp hdet hdist ⊢
    have hlayers : (upperLayers h.maxLayer).length = h.maxLayer := by simp [upperLayers]
    rw [hlayers] at hdist
    refine After.bind ((searchLayer_outlay W.toLayout (degree_le W hcaps 0) hp (eps ++ seeds) ef
      (tr.refillDetours ef)).and
      (searchLayer_paid h query (eps ++ seeds) ef 0 predicate (tr.refillDetours ef))) ?_
    rintro ⟨w, tr'⟩ ⟨⟨x, hleft, hcount, hspent⟩, hpaid'⟩
    rw [List.length_append] at hspent
    have hbalance : tr.cost.detours + tr.detours =
        0 + Traversal.saturatingMul ef Traversal.detoursPerEf := hpaid.balance
    have hbalance' : tr'.cost.detours + tr'.detours =
        tr.cost.detours + Traversal.saturatingMul ef Traversal.detoursPerEf := hpaid'.balance
    have hexp : tr.expansions + descent.expansions =
        Traversal.saturatingMul ef Traversal.expansionsPerEf := hexp
    have hleft : tr'.expansions + x = tr.expansions := hleft
    have hcount : tr'.cost.expansions = tr.cost.expansions + x := hcount
    have hspent : tr'.cost.distances ≤
        tr.cost.distances + (eps.length + seeds.length) + x * (2 * h.m0Cap + h.m) := hspent
    have hx : tr'.cost.expansions - tr.cost.expansions = x := by omega
    -- descent and bottom layer share one allowance of expansions; the detours are refilled
    have hsum : descent.expansions + x ≤ 16 * ef := by omega
    refine ⟨?_, ?_, ?_, ?_, ?_⟩
    · show tr'.cost.detours ≤ 8 * ef
      omega
    · show descent.detours ≤ 4 * ef
      omega
    · show tr'.cost.detours - tr.cost.detours ≤ 4 * ef
      omega
    · show descent.expansions + (tr'.cost.expansions - tr.cost.expansions) ≤ 16 * ef
      rw [hx]
      exact hsum
    · show descent.distances + (tr'.cost.distances - tr.cost.distances) ≤ _
      have hpays := Nat.mul_le_mul_right (2 * h.m0Cap + h.m) hsum
      rw [Nat.add_mul] at hpays
      omega

end Search

theorem searchInnerBilled_safe (W : WellFormed h) (query : List F32) (k efSearch : Nat)
    (predicate : Option Predicate) :
    Outcome.Safe (h.searchInnerBilled query k efSearch predicate) := by
  have hsafe := searchInner_safe W.toInRange W.entry_lt query k efSearch predicate
  rw [← searchInnerBilled_erase] at hsafe
  intro fault hfault
  exact hsafe fault (by rw [hfault]; rfl)

/-- **Bounded cost of a filtered search.** A filtered search of a well-formed graph returns or
reports an error, and what its predicate-aware layer searches spend depends on `ef`, the caps and the
top layer only. -/
theorem searchFiltered_cost [Arith.Rounds] (h : Hnsw) (W : WellFormed h) (C : Configured h)
    (query : List F32) (predicate : Predicate) (hp : predicate ≠ .all)
    (k efSearch : Nat) :
    Prod.fst <$> h.searchInnerBilled query k efSearch (some predicate) =
        h.searchFilteredWithCost query k efSearch predicate ∧
      Outcome.Safe (h.searchInnerBilled query k efSearch (some predicate)) ∧
      After (fun r => WithinBudget h (max efSearch k) r.1.2 r.2)
        (h.searchInnerBilled query k efSearch (some predicate)) := by
  have hfiltered : isFiltered (some predicate) = true := isFiltered_of_ne hp
  refine ⟨searchInnerBilled_erase h query k efSearch (some predicate), ?_, ?_⟩
  · exact searchInnerBilled_safe W query k efSearch (some predicate)
  · exact searchInnerBilled_books W C.mCap_le_m0Cap hfiltered k efSearch

omit [Arith] in
/-- The price list with its third row deleted. The search for a row priced at most 3 spends detours on
both layers, and stays within its budget. -/
theorem searchFiltered_cost_sold :
    Ensures soldGraph fun h =>
      Prod.fst <$> @searchInnerBilled Arith.ieee h pricedQuery 1 2 (some (pricedUpTo 3)) =
          @searchFilteredWithCost Arith.ieee h pricedQuery 1 2 (pricedUpTo 3) ∧
        Outcome.Safe (@searchInnerBilled Arith.ieee h pricedQuery 1 2 (some (pricedUpTo 3))) ∧
        Ensures (@searchInnerBilled Arith.ieee h pricedQuery 1 2 (some (pricedUpTo 3))) fun r =>
          (r.1.1.map Prod.snd = [0] ∧ 0 < r.2.descent.detours ∧ 0 < r.2.bottom.detours) ∧
            WithinBudget h (max 2 1) r.1.2 r.2 := by
  let := Arith.ieee
  obtain ⟨h, hrun, W, C⟩ := soldGraph_configured
  have hfacts : Ensures soldGraph fun h =>
      Ensures (h.searchInnerBilled pricedQuery 1 2 (some (pricedUpTo 3))) fun r =>
        r.1.1.map Prod.snd = [0] ∧ 0 < r.2.descent.detours ∧ 0 < r.2.bottom.detours := by
    decide +kernel
  obtain ⟨herase, hsafe, hbudget⟩ :=
    searchFiltered_cost h W C pricedQuery (pricedUpTo 3) nofun 1 2
  exact ⟨h, hrun, herase, hsafe, (hbudget.of_ensures (hfacts.elim hrun)).mono fun _ hr => hr.symm⟩

end Hnsw

end Brindle
