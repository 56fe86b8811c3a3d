/-
# Brindle.Hnsw.Answers — every answer a search gives is a right one.

Tombstoned and non-matching nodes are queued on purpose, as seeds, bridges, detours and rescues; what
keeps them out of the answer is that the frontier and the result heap are filled by different rules.
`Found` says what may come back and `searchLayer_ranked` in which order and with which distances; the
answer of a whole search is the head of the list the bottom layer returns.
-/
import Brindle.Hnsw.Moves
import Brindle.Hnsw.Runs

namespace Brindle

open Outcome (Ensures ensures_pure)
open Run (After)

namespace Hnsw

variable [Arith]

/-- A hit as the candidate it was. -/
def candOf (p : F32 × Nat) : Cand := ⟨p.1, p.2⟩

/-- What a search may return for `k` hits under `predicate`. -/
structure SoundHits (h : Hnsw) (query : List F32) (predicate : Option Predicate) (k : Nat)
    (hits : List (F32 × Nat)) : Prop where
  length_le : hits.length ≤ k
  live : ∀ p ∈ hits, p.2 < h.n ∧ h.deleted[p.2]? = some false
  satisfies : ∀ p ∈ hits, ∀ q, predicate = some q → q.satisfiedBy (h.attrsOf p.2) = true
  distance_eq : ∀ p ∈ hits, ∃ v, h.vector p.2 = .ok v ∧ h.metric.distance query v = .ok p.1
  nodup : (hits.map Prod.snd).Nodup
  /-- In order of distance by `total_cmp`, then id. -/
  increasing : hits.Pairwise fun p q => candOf p < candOf q

variable {h : Hnsw} {query : List F32} {predicate : Option Predicate}

omit [Arith] in
/-- Distinct ids in order are strictly in order. -/
theorem pairwise_lt_of_nodup {w : List Cand} (hsorted : w.Pairwise (· ≤ ·))
    (hnodup : (w.map Cand.id).Nodup) : w.Pairwise (· < ·) := by
  have hne : w.Pairwise fun a b => a.id ≠ b.id := List.pairwise_map.mp hnodup
  refine (hsorted.and hne).imp ?_
  intro a b hab
  exact lt_of_le_of_ne hab.1 fun heq => hab.2 (congrArg Cand.id heq)

theorem soundHits_nil (k : Nat) : SoundHits h query predicate k [] :=
  ⟨Nat.zero_le k, nofun, nofun, nofun, List.nodup_nil, List.Pairwise.nil⟩

/-- The head of what a search of the bottom layer returns. -/
theorem soundHits_take (L : Layout h) (hq : query.length = h.dim) {seeds : List Nat} {ef : Nat}
    {w : List Cand} (F : Found h 0 predicate seeds ef w) (hsorted : w.Pairwise (· ≤ ·))
    (hscored : ∀ c ∈ w, c = h.scored query c.id) (k : Nat) :
    SoundHits h query predicate k ((w.take k).map fun c => (c.dist, c.id)) := by
  have hmem : ∀ p ∈ (w.take k).map fun c => (c.dist, c.id),
      ∃ c ∈ w, p = (c.dist, c.id) := by
    intro p hp
    obtain ⟨c, hc, rfl⟩ := List.mem_map.mp hp
    exact ⟨c, List.mem_of_mem_take hc, rfl⟩
  have hids : ((w.take k).map fun c => (c.dist, c.id)).map Prod.snd = (w.take k).map Cand.id :=
    List.map_map ..
  refine
    { length_le := ?_
      live := fun p hp => ?_
      satisfies := fun p hp q hpred => ?_
      distance_eq := fun p hp => ?_
      nodup := ?_
      increasing := ?_ }
  · rw [List.length_map]
    exact List.length_take_le k w
  · obtain ⟨c, hc, rfl⟩ := hmem p hp
    have hlt := F.lt c hc
    have hdeleted : h.deleted.getD c.id false = false := (F.admits c hc).1
    refine ⟨hlt, ?_⟩
    rw [List.getD_eq_getElem?_getD] at hdeleted
    have hin : c.id < h.deleted.length := by
      rw [L.deleted_len]
      exact hlt
    simpa [List.getElem?_eq_getElem hin] using hdeleted
  · obtain ⟨c, hc, rfl⟩ := hmem p hp
    have hmatches := (F.admits c hc).2
    rw [hpred] at hmatches
    exact hmatches
  · obtain ⟨c, hc, rfl⟩ := hmem p hp
    have hlt := F.lt c hc
    have hdist : c.dist = h.metric.value query (h.vec c.id) := congrArg Cand.dist (hscored c hc)
    refine ⟨h.vec c.id, L.vector_eq hlt, ?_⟩
    rw [hdist]
    exact Metric.distance_eq h.metric (hq.trans (L.vec_length hlt).symm)
  · rw [hids]
    exact ((List.take_sublist k w).map Cand.id).nodup F.nodup
  · have hlt := pairwise_lt_of_nodup hsorted F.nodup
    exact List.pairwise_map.mpr (hlt.sublist (List.take_sublist k w))

theorem searchInner_sound (W : WellFormed h) (hq : query.length = h.dim) (k efSearch : Nat) :
    Ensures (h.searchInner query k efSearch predicate) fun r =>
      SoundHits h query predicate k r.1 := by
  unfold searchInner
  cases he : h.entryPoint with
  | none => exact ensures_pure.mpr (soundHits_nil k)
  | some entry =>
    dsimp only
    by_cases hk : k = 0
    · rw [if_pos hk]
      exact ensures_pure.mpr (soundHits_nil k)
    · rw [if_neg hk, if_neg (not_not.mpr hq)]
      have hentry : ∀ x ∈ [entry], x < h.n := by
        intro x hx
        rw [List.mem_singleton.mp hx]
        exact W.entry_lt entry he
      refine (descend_spec W.toInRange hq (upperLayers h.maxLayer) hentry).bind ?_
      rintro ⟨eps, seeds, tr⟩ ⟨heps, hseeds⟩
      have hall : ∀ x ∈ eps ++ seeds, x < h.n := fun x hx =>
        (List.mem_append.mp hx).elim (heps x) (hseeds x)
      dsimp only
      generalize (if isFiltered predicate = true then tr.refillDetours (max efSearch k) else tr) =
        tr'
      have hfound : Ensures (h.searchLayer query (eps ++ seeds) (max efSearch k) 0 predicate tr')
          fun r => Found h 0 predicate (eps ++ seeds) (max efSearch k) r.1 :=
        searchLayer_spec W.toInRange hq hall (max efSearch k) 0 tr'
      refine ((searchLayer_ranked h query (eps ++ seeds) (max efSearch k) 0 predicate
        tr').of_ensures hfound).bind ?_
      rintro ⟨w, tr''⟩ ⟨⟨hsorted, hscored⟩, F⟩
      exact ensures_pure.mpr (soundHits_take W.toLayout hq F hsorted hscored k)

/-- **Search soundness.** Whatever the predicate and the budgets, a search of a well-formed graph
returns, and returns sound hits. -/
theorem search_sound (h : Hnsw) (W : WellFormed h) (query : List F32) (hq : query.length = h.dim)
    (k efSearch : Nat) :
    Ensures (h.search query k efSearch) (SoundHits h query none k) ∧
      ∀ predicate, Ensures (h.searchFiltered query k efSearch predicate)
        (SoundHits h query (some predicate) k) := by
  constructor
  · refine (searchInner_sound W hq k efSearch).bind fun r hr => ?_
    exact ensures_pure.mpr hr
  · intro predicate
    unfold searchFiltered searchFilteredWithCost
    refine (searchInner_sound W hq k efSearch).bind fun r hr => ?_
    exact ensures_pure.mpr hr

omit [Arith] in
/-- The price list with its third row deleted, searched for three rows. -/
theorem search_sound_sold :
    Ensures soldGraph fun h =>
      Ensures (@search Arith.ieee h pricedQuery 3 4)
          (fun hits => hits.map Prod.snd = [3, 0, 5] ∧
            @SoundHits Arith.ieee h pricedQuery none 3 hits) ∧
        Ensures (@searchFiltered Arith.ieee h pricedQuery 3 4 (pricedUpTo 3))
          (fun hits => hits.map Prod.snd = [0, 4] ∧
            @SoundHits Arith.ieee h pricedQuery (some (pricedUpTo 3)) 3 hits) := by
  let := Arith.ieee
  obtain ⟨h, hrun, W⟩ := soldGraph_wellFormed
  have hfacts : Ensures soldGraph fun h => pricedQuery.length = h.dim ∧
      Ensures (h.search pricedQuery 3 4) (·.map Prod.snd = [3, 0, 5]) ∧
      Ensures (h.searchFiltered pricedQuery 3 4 (pricedUpTo 3)) (·.map Prod.snd = [0, 4]) := by
    decide +kernel
  obtain ⟨hdim, hplain, hcheap⟩ := hfacts.elim hrun
  obtain ⟨hsound, hsound'⟩ := search_sound h W pricedQuery hdim 3 4
  exact ⟨h, hrun, hplain.and hsound, hcheap.and (hsound' (pricedUpTo 3))⟩

end Hnsw

end Brindle
