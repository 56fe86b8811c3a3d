/-
# Brindle.Hnsw.Discards — which nodes a layer search turns away.

The heap of results is ordered by `total_cmp`, which puts the NaN of a zero vector's cosine distance
last, but a node is admitted by the IEEE comparison, which no NaN passes. While a full heap holds a NaN
the two disagree, and a node with a numeric distance is turned away for it. `Event.Fair` says of one
computed distance that this does not happen there. A search whose distances are all fair discards no node
nearer than a hit; one unfair distance, and the search returns a NaN in the place of a number, whatever
comes after.
-/
import Brindle.Hnsw.Once
import Brindle.Hnsw.Runs
import Brindle.Hnsw.Tombstones
import Mathlib.Data.Int.ConditionallyCompleteOrder
import Mathlib.Order.ConditionallyCompleteLattice.Basic

namespace Brindle

open Outcome (Ensures)
open Run (After run)

/-! ## How far -/

namespace F32

/-- The place of a distance on the line, a NaN beyond every number. -/
def farness (d : F32) : WithTop Int := if d.isNan then ⊤ else (d.signed : Int)

theorem farness_nan {d : F32} (h : d.isNan = true) : d.farness = ⊤ := if_pos h

theorem farness_number {d : F32} (h : d.isNan = false) : d.farness = (d.signed : Int) :=
  if_neg (by simp [h])

theorem farness_le {a b : F32} (ha : a.isNan = false ∨ b.isNan = true)
    (h : a.totalKey ≤ b.totalKey) : a.farness ≤ b.farness := by
  cases hb : b.isNan with
  | true =>
    rw [farness_nan hb]
    exact le_top
  | false =>
    have hnumber : a.isNan = false := ha.resolve_right (by simp [hb])
    rw [farness_number hnumber, farness_number hb]
    exact WithTop.coe_le_coe.mpr (signed_le_of_totalKey_le h)

theorem farness_le_of_not_lt {a b : F32} (ha : a.isNan = false) (h : b.lt a = false) :
    a.farness ≤ b.farness := by
  cases hb : b.isNan with
  | true =>
    rw [farness_nan hb]
    exact le_top
  | false =>
    rw [farness_number ha, farness_number hb]
    refine WithTop.coe_le_coe.mpr ?_
    simpa [lt, ha, hb] using h

/-- The numbers are one stretch of the total order: below a NaN that is below a number, all is NaN. -/
theorem isNan_of_le {x r m : F32} (hr : r.isNan = true) (hm : m.isNan = false)
    (hrm : r.totalKey ≤ m.totalKey) (hxr : x.totalKey ≤ r.totalKey) : x.isNan = true := by
  simp only [isNan, decide_eq_true_eq, decide_eq_false_iff_not] at hr hm ⊢
  unfold totalKey at hrm hxr
  split_ifs at hrm hxr <;> omega

end F32

/-! ## A push into the heap -/

namespace Beam

variable {b : Beam} {c : Cand}

/-- A full heap evicts the last of what it holds and is offered. -/
theorem push_full (hsorted : b.results.Pairwise (· ≤ ·)) (hnodup : (c :: b.results).Nodup)
    (hfull : b.results.length = b.ef) :
    ∃ m ∈ c :: b.results, (∀ x ∈ c :: b.results, x ≤ m) ∧ m ∉ (b.push c true).results ∧
      (∀ x ∈ c :: b.results, x = m ∨ x ∈ (b.push c true).results) ∧
      (∀ x ∈ (b.push c true).results, x ∈ c :: b.results) := by
  have hperm : (b.results.orderedInsert (· ≤ ·) c).Perm (c :: b.results) :=
    List.perm_orderedInsert ..
  have hinserted : (b.results.orderedInsert (· ≤ ·) c).Pairwise (· ≤ ·) :=
    List.Pairwise.orderedInsert _ _ hsorted
  have hpush : (b.push c true).results = (b.results.orderedInsert (· ≤ ·) c).dropLast := by
    have hlen : (b.results.orderedInsert (· ≤ ·) c).length = b.results.length + 1 :=
      List.orderedInsert_length ..
    simp [push, hlen, hfull]
  rw [hpush]
  generalize b.results.orderedInsert (· ≤ ·) c = rs at hperm hinserted
  have hne : rs ≠ [] := by
    intro hnil
    rw [hnil] at hperm
    exact List.cons_ne_nil c b.results hperm.symm.eq_nil
  have hsplit : rs.dropLast ++ [rs.getLast hne] = rs := List.dropLast_append_getLast hne
  generalize rs.getLast hne = m, rs.dropLast = kept at hsplit
  subst hsplit
  have hkept := List.nodup_append.mp (hperm.nodup_iff.mpr hnodup)
  refine ⟨m, hperm.mem_iff.mp (by simp), fun x hx => ?_, fun hm => ?_, fun x hx => ?_, fun x hx => ?_⟩
  · rcases List.mem_append.mp (hperm.mem_iff.mpr hx) with hx | hx
    · exact (List.pairwise_append.mp hinserted).2.2 x hx m (by simp)
    · exact (List.mem_singleton.mp hx).le
  · exact hkept.2.2 m hm m (by simp) rfl
  · rcases List.mem_append.mp (hperm.mem_iff.mpr hx) with hx | hx
    · exact .inr hx
    · exact .inl (List.mem_singleton.mp hx)
  · exact hperm.mem_iff.mp (List.mem_append_left _ hx)

end Beam

namespace Hnsw

/-- The distance is fair to `cand`: while the heap is full and `cand` may be returned, no NaN stands in
the way of a number. For a neighbor, no NaN is held unless its own distance is one; for an entry point,
which is pushed unconditionally, a NaN among it and the heap is the one that `total_cmp` evicts. -/
def EventFair (h : Hnsw) (predicate : Option Predicate) (ef : Nat) : Event → Prop
  | .scored false held cand => ef ≤ held.length → h.Admits predicate cand.id →
      (∃ r ∈ held, r.dist.isNan = true) → cand.dist.isNan = true
  | .scored true held cand => ef ≤ held.length → h.Admits predicate cand.id →
      (∃ r ∈ cand :: held, r.dist.isNan = true) →
        ∀ m ∈ cand :: held, (∀ r ∈ cand :: held, r ≤ m) → m.dist.isNan = true
  | .expanded _ => True
  | .rescued _ => True

variable [Arith] {h : Hnsw} {query : List F32} {layer : Nat} {predicate : Option Predicate} {ef : Nat}

/-- The heap holds nodes seen, each once, in order. -/
structure Heap (h : Hnsw) (query : List F32) (predicate : Option Predicate) (ef : Nat) (b : Beam) :
    Prop where
  ef_eq : b.ef = ef
  ranked : Ranked h query b
  nodup : b.results.Nodup
  length_le : b.results.length ≤ ef
  visited : ∀ c ∈ b.results, c.id ∈ b.visited
  admitted : ∀ c ∈ b.results, h.admitted predicate c.id = true

/-- A node that may be returned was seen and is not held. -/
def Lost (h : Hnsw) (query : List F32) (predicate : Option Predicate) (b : Beam) (v : Nat) : Prop :=
  v ∈ b.visited ∧ h.admitted predicate v = true ∧ h.scored query v ∉ b.results

/-- What is lost is no nearer than what is held. -/
def Nearest (h : Hnsw) (query : List F32) (predicate : Option Predicate) (ef : Nat) (b : Beam) :
    Prop :=
  ∀ v, Lost h query predicate b v → b.results.length = ef ∧
    ∀ r ∈ b.results, r.dist.farness ≤ (h.scored query v).dist.farness

/-- A full heap holds a NaN, and a number was lost; with `low`, one that the NaN is ordered before. -/
def Spoilt (h : Hnsw) (query : List F32) (predicate : Option Predicate) (ef : Nat) (low : Bool)
    (b : Beam) : Prop :=
  b.results.length = ef ∧ ∃ v, Lost h query predicate b v ∧
    (h.scored query v).dist.isNan = false ∧ ∃ r ∈ b.results, r.dist.isNan = true ∧
      (low = true → r.dist.totalKey ≤ (h.scored query v).dist.totalKey)

namespace Heap

variable {b : Beam}

/-- A node offered to the heap. -/
theorem push (B : Heap h query predicate ef b) {id : Nat} (hnew : id ∉ b.visited) (tr : Traversal) :
    Heap h query predicate ef
      { (b.see id).push (h.scored query id) (h.admitted predicate id) with tr } := by
  have hsub := Beam.push_results_subperm (b.see id) (h.scored query id) (h.admitted predicate id)
  have hmem : ∀ c ∈ ((b.see id).push (h.scored query id) (h.admitted predicate id)).results,
      (c = h.scored query id ∧ h.admitted predicate id = true) ∨ c ∈ b.results :=
    fun _ hc => Beam.mem_push_results hc
  have hfresh : h.scored query id ∉ b.results := fun hmem => hnew (B.visited _ hmem)
  have hmove : Move h query predicate (fun _ => True) b
      ((b.see id).push (h.scored query id) (h.admitted predicate id)) := Move.queue id trivial hnew
  have hranked := Ranked.move hmove B.ranked
  refine ⟨B.ef_eq, hranked, ?_, ?_, ?_, ?_⟩
  · obtain ⟨kept, hperm, hkept⟩ := hsub
    refine hperm.nodup_iff.mp (hkept.nodup ?_)
    split_ifs
    · exact List.nodup_cons.mpr ⟨hfresh, B.nodup⟩
    · exact B.nodup
  · show ((b.see id).push _ _).results.length ≤ ef
    rw [← B.ef_eq]
    exact Beam.push_results_length _ _ _ (B.length_le.trans_eq B.ef_eq.symm)
  · intro c hc
    rcases hmem c hc with ⟨rfl, -⟩ | hc
    · exact List.mem_cons_self
    · exact List.mem_cons_of_mem _ (B.visited c hc)
  · intro c hc
    rcases hmem c hc with ⟨rfl, hadm⟩ | hc
    · exact hadm
    · exact B.admitted c hc

/-- A node only seen. -/
theorem see (B : Heap h query predicate ef b) (id : Nat) : Heap h query predicate ef (b.see id) :=
  ⟨B.ef_eq, B.ranked, B.nodup, B.length_le, fun c hc => List.mem_cons_of_mem _ (B.visited c hc),
    B.admitted⟩

theorem fresh (B : Heap h query predicate ef b) {id : Nat} (hnew : id ∉ b.visited) :
    h.scored query id ∉ b.results :=
  fun hmem => hnew (B.visited _ hmem)

end Heap

/-! ## One offer -/

section Offer

variable {b b' : Beam} {id : Nat}

/-- Seeing a node that may not be returned loses nothing. -/
theorem lost_of_refused (hadm : h.admitted predicate id = false) (hresults : b'.results = b.results)
    (hvisited : b'.visited = id :: b.visited) (v : Nat) :
    Lost h query predicate b' v ↔ Lost h query predicate b v := by
  unfold Lost
  rw [hresults, hvisited, List.mem_cons]
  constructor
  · rintro ⟨rfl | hv, hvadm, hlost⟩
    · simp [hadm] at hvadm
    · exact ⟨hv, hvadm, hlost⟩
  · rintro ⟨hv, hvadm, hlost⟩
    exact ⟨.inr hv, hvadm, hlost⟩

theorem Nearest.refused (hb : Nearest h query predicate ef b)
    (hadm : h.admitted predicate id = false) (hresults : b'.results = b.results)
    (hvisited : b'.visited = id :: b.visited) : Nearest h query predicate ef b' := by
  intro v hv
  rw [hresults]
  exact hb v ((lost_of_refused hadm hresults hvisited v).mp hv)

theorem Spoilt.refused {low : Bool} (hb : Spoilt h query predicate ef low b)
    (hadm : h.admitted predicate id = false) (hresults : b'.results = b.results)
    (hvisited : b'.visited = id :: b.visited) : Spoilt h query predicate ef low b' := by
  obtain ⟨hlen, v, hv, hrest⟩ := hb
  unfold Spoilt
  rw [hresults]
  exact ⟨hlen, v, (lost_of_refused hadm hresults hvisited v).mpr hv, hrest⟩

/-- With room left, nothing has been lost and nothing is. -/
theorem not_lost_of_room (hlost : Nearest h query predicate ef b) (hroom : b.results.length < ef)
    (hresults : ∀ x, x ∈ b'.results ↔ x = h.scored query id ∨ x ∈ b.results)
    (hvisited : b'.visited = id :: b.visited) (v : Nat) : ¬ Lost h query predicate b' v := by
  rintro ⟨hv, hvadm, hnot⟩
  rw [hvisited] at hv
  rcases List.mem_cons.mp hv with rfl | hv
  · exact hnot ((hresults _).mpr (.inl rfl))
  · have hold := (hlost v ⟨hv, hvadm, fun hmem => hnot ((hresults _).mpr (.inr hmem))⟩).1
    omega

/-- What a full heap makes of an offer: `m` falls out, the last of what it holds and is offered. -/
structure Evicts (h : Hnsw) (query : List F32) (predicate : Option Predicate) (b b' : Beam)
    (id : Nat) (m : Cand) : Prop where
  mem : m ∈ h.scored query id :: b.results
  le : ∀ x ∈ h.scored query id :: b.results, x ≤ m
  scored : m = h.scored query m.id
  admitted : h.admitted predicate m.id = true
  visited : m.id ∈ b'.visited
  gone : m ∉ b'.results
  rest : ∀ x ∈ h.scored query id :: b.results, x = m ∨ x ∈ b'.results
  sub : ∀ x ∈ b'.results, x ∈ h.scored query id :: b.results
  length_eq : b'.results.length = b.results.length
  visited_eq : b'.visited = id :: b.visited

theorem Heap.evicts (B : Heap h query predicate ef b) (hnew : id ∉ b.visited)
    (hadm : h.admitted predicate id = true) (hfull : b.results.length = ef) (tr : Traversal) :
    ∃ m, Evicts h query predicate b
      { (b.see id).push (h.scored query id) (h.admitted predicate id) with tr } id m := by
  have hnodup : (h.scored query id :: b.results).Nodup :=
    List.nodup_cons.mpr ⟨B.fresh hnew, B.nodup⟩
  obtain ⟨m, hm, hle, hgone, hrest, hsub⟩ := Beam.push_full (b := b.see id) B.ranked.1 hnodup
    (hfull.trans B.ef_eq.symm)
  have hcases : m = h.scored query id ∨ m ∈ b.results := List.mem_cons.mp hm
  rw [hadm]
  refine ⟨m, hm, hle, ?_, ?_, ?_, hgone, hrest, hsub, ?_, rfl⟩
  · rcases hcases with rfl | hm
    · rfl
    · exact B.ranked.2 m hm
  · rcases hcases with rfl | hm
    · exact hadm
    · exact B.admitted m hm
  · rcases hcases with rfl | hm
    · exact List.mem_cons_self
    · exact List.mem_cons_of_mem _ (B.visited m hm)
  · have hlen : (b.results.orderedInsert (· ≤ ·) (h.scored query id)).length =
        b.results.length + 1 := List.orderedInsert_length ..
    simp [Beam.push, Beam.see, hlen, hfull, B.ef_eq]

namespace Evicts

variable {m : Cand}

/-- What was lost before stays lost, and what falls out is lost. -/
theorem lost (E : Evicts h query predicate b b' id m) (hnew : id ∉ b.visited) {v : Nat}
    (hv : Lost h query predicate b v) : Lost h query predicate b' v := by
  obtain ⟨hvisited, hadm, hnot⟩ := hv
  refine ⟨E.visited_eq ▸ List.mem_cons_of_mem _ hvisited, hadm, fun hmem => ?_⟩
  rcases List.mem_cons.mp (E.sub _ hmem) with heq | hmem
  · have hid : v = id := congrArg Cand.id heq
    exact hnew (hid ▸ hvisited)
  · exact hnot hmem

theorem lost_evicted (E : Evicts h query predicate b b' id m) :
    Lost h query predicate b' m.id :=
  ⟨E.visited, E.admitted, E.scored ▸ E.gone⟩

/-- Where the evicted is a NaN if any is, nothing nearer than what is held has been lost. -/
theorem nearest (E : Evicts h query predicate b b' id m) (hfull : b.results.length = ef)
    (hfair : (∃ r ∈ h.scored query id :: b.results, r.dist.isNan = true) → m.dist.isNan = true)
    (hb : Nearest h query predicate ef b) : Nearest h query predicate ef b' := by
  have hbelow : ∀ r ∈ b'.results, r.dist.farness ≤ m.dist.farness := by
    intro r hr
    refine F32.farness_le ?_ (Cand.totalKey_le (E.le r (E.sub r hr)))
    cases hnan : r.dist.isNan with
    | false => exact .inl rfl
    | true => exact .inr (hfair ⟨r, E.sub r hr, hnan⟩)
  rintro v ⟨hvisited, hadm, hnot⟩
  refine ⟨E.length_eq.trans hfull, fun r hr => ?_⟩
  by_cases hv : h.scored query v ∈ h.scored query id :: b.results
  · rcases E.rest _ hv with heq | hmem
    · rw [heq]
      exact hbelow r hr
    · exact absurd hmem hnot
  · -- lost before, when whatever falls out now was still held
    have hne : v ≠ id := by
      rintro rfl
      exact hv List.mem_cons_self
    have hold := (hb v ⟨(List.mem_cons.mp (E.visited_eq ▸ hvisited)).resolve_left hne, hadm,
      fun hmem => hv (List.mem_cons_of_mem _ hmem)⟩).2
    rcases List.mem_cons.mp (E.sub r hr) with rfl | hr'
    · rcases List.mem_cons.mp E.mem with heq | hm
      · exact absurd (heq ▸ hr) E.gone
      · exact (hbelow _ hr).trans (hold m hm)
    · exact hold r hr'

/-- Where it is a number although a NaN is among them, a number has been lost to a NaN. -/
theorem spoilt (E : Evicts h query predicate b b' id m) (hfull : b.results.length = ef)
    (hnan : ∃ r ∈ h.scored query id :: b.results, r.dist.isNan = true) (hm : m.dist.isNan = false)
    (low : Bool) : Spoilt h query predicate ef low b' := by
  obtain ⟨r, hr, hrnan⟩ := hnan
  refine ⟨E.length_eq.trans hfull, m.id, E.lost_evicted, E.scored ▸ hm, r, ?_, hrnan, fun _ => ?_⟩
  · rcases E.rest r hr with rfl | hkept
    · simp [hm] at hrnan
    · exact hkept
  · rw [← E.scored]
    exact Cand.totalKey_le (E.le r hr)

end Evicts

end Offer

/-! ## Over the whole search -/

/-- While every distance has been fair, no number is lost to a NaN; once one was not, one is. -/
structure Settled (h : Hnsw) (query : List F32) (predicate : Option Predicate) (ef : Nat)
    (low : Bool) (t : Traced) : Prop where
  heap : Heap h query predicate ef t.beam
  nearest : (∀ e ∈ t.log, EventFair h predicate ef e) → Nearest h query predicate ef t.beam
  spoilt : (∃ e ∈ t.log, ¬ EventFair h predicate ef e) →
    Spoilt h query predicate ef low t.beam

namespace Settled

variable {low : Bool} {t : Traced}

/-- One more distance, as far as the heap is concerned. -/
theorem advance (S : Settled h query predicate ef low t) {b' : Beam} {event : Event}
    (B' : Heap h query predicate ef b')
    (hfair : EventFair h predicate ef event → Nearest h query predicate ef t.beam →
      Nearest h query predicate ef b')
    (hkept : Spoilt h query predicate ef low t.beam → Spoilt h query predicate ef low b')
    (hunfair : ¬ EventFair h predicate ef event → Spoilt h query predicate ef low b') :
    Settled h query predicate ef low ⟨b', event :: t.log⟩ where
  heap := B'
  nearest hall := hfair (hall event List.mem_cons_self)
    (S.nearest fun e he => hall e (List.mem_cons_of_mem _ he))
  spoilt := by
    rintro ⟨e, he, hbad⟩
    rcases List.mem_cons.mp he with rfl | he
    · exact hunfair hbad
    · exact hkept (S.spoilt ⟨e, he, hbad⟩)

/-- A change that the heap has no part in. -/
theorem quiet (S : Settled h query predicate ef low t) {t' : Traced}
    (hef : t'.beam.ef = t.beam.ef) (hresults : t'.beam.results = t.beam.results)
    (hvisited : t'.beam.visited = t.beam.visited)
    (hlog : ∀ e, ¬ EventFair h predicate ef e → (e ∈ t'.log ↔ e ∈ t.log)) :
    Settled h query predicate ef low t' where
  heap := by
    obtain ⟨hef', hranked, hnodup, hlen, hvisited', hadm⟩ := S.heap
    unfold Ranked at hranked
    rw [← hresults] at hranked hnodup hlen hvisited' hadm
    rw [← hvisited] at hvisited'
    exact ⟨hef.trans hef', hranked, hnodup, hlen, hvisited', hadm⟩
  nearest hall := by
    have hb := S.nearest fun e he => by
      by_contra hbad
      exact hbad (hall e ((hlog e hbad).mpr he))
    unfold Nearest Lost at hb ⊢
    rw [hresults, hvisited]
    exact hb
  spoilt := by
    rintro ⟨e, he, hbad⟩
    have hb := S.spoilt ⟨e, (hlog e hbad).mp he, hbad⟩
    unfold Spoilt Lost at hb ⊢
    rw [hresults, hvisited]
    exact hb

theorem new (h : Hnsw) (query : List F32) (predicate : Option Predicate) (ef : Nat) (low : Bool)
    (tr : Traversal) : Settled h query predicate ef low { beam := Beam.new ef tr } where
  heap := ⟨rfl, ⟨List.Pairwise.nil, nofun⟩, List.nodup_nil, Nat.zero_le _, nofun, nofun⟩
  nearest _ := by
    rintro v ⟨hv, -⟩
    cases hv
  spoilt := by
    rintro ⟨e, he, -⟩
    cases he

/-- An offer that is refused, or that finds room, or that is not one at all: nothing is lost. -/
theorem offered (S : Settled h query predicate ef low t) {id : Nat} (hnew : id ∉ t.beam.visited)
    (tr : Traversal) {event : Event}
    (hfair : ef ≤ t.beam.results.length → h.admitted predicate id = true →
      ∀ m b', Evicts h query predicate t.beam b' id m →
        (EventFair h predicate ef event ↔
          ((∃ r ∈ h.scored query id :: t.beam.results, r.dist.isNan = true) → m.dist.isNan = true)) ∧
        (Spoilt h query predicate ef low t.beam → Spoilt h query predicate ef low b'))
    (hidle : ¬ (ef ≤ t.beam.results.length ∧ h.admitted predicate id = true) →
      EventFair h predicate ef event) :
    Settled h query predicate ef low
      ⟨{ (t.beam.see id).push (h.scored query id) (h.admitted predicate id) with tr },
        event :: t.log⟩ := by
  have B := S.heap
  have B' := B.push hnew tr
  cases hadm : h.admitted predicate id with
  | false =>
    rw [hadm] at B'
    have hresults := Beam.push_refused (t.beam.see id) (h.scored query id)
    exact S.advance B' (fun _ hb => hb.refused hadm hresults rfl)
      (fun hb => hb.refused hadm hresults rfl) (fun hbad => absurd (hidle (by simp [hadm])) hbad)
  | true =>
    rw [← hadm]
    by_cases hroom : t.beam.results.length < ef
    · -- with room nothing is lost
      have hresults : ∀ x, x ∈ ((t.beam.see id).push (h.scored query id) true).results ↔
          x = h.scored query id ∨ x ∈ t.beam.results := by
        intro x
        rw [Beam.push_room (b := t.beam.see id) (hroom.trans_eq B.ef_eq.symm)]
        exact List.mem_orderedInsert (· ≤ ·)
      refine S.advance B' (fun _ hb v hv => ?_) (fun hspoilt => absurd hspoilt.1 hroom.ne) ?_
      · rw [hadm] at hv
        exact absurd hv (not_lost_of_room hb hroom hresults rfl v)
      · exact fun hbad => absurd (hidle fun hfull => absurd hfull.1 (Nat.not_le.mpr hroom)) hbad
    · -- a full heap lets one candidate go, and which one decides
      have hfull : t.beam.results.length = ef := Nat.le_antisymm B.length_le (Nat.not_lt.mp hroom)
      obtain ⟨m, E⟩ := B.evicts hnew hadm hfull tr
      obtain ⟨hiff, hkept⟩ := hfair hfull.ge hadm m _ E
      refine S.advance B' (fun hev hb => E.nearest hfull (hiff.mp hev) hb) hkept fun hbad => ?_
      obtain ⟨hnan, hm⟩ := Classical.not_imp.mp fun himp => hbad (hiff.mpr himp)
      exact E.spoilt hfull hnan (Bool.eq_false_of_not_eq_true hm) low

/-- An entry point: it is pushed whatever its distance is. -/
theorem seed (hef : 0 < ef) (S : Settled h query predicate ef true t) {id : Nat}
    (hnew : id ∉ t.beam.visited) :
    Settled h query predicate ef true { t.see true (h.scored query id) with
      beam := (t.beam.see id).push (h.scored query id) (h.admitted predicate id) } := by
  refine S.offered hnew t.beam.tr.countDistance (fun hfull hadm m b' E => ⟨?_, ?_⟩) fun hidle hlen ha =>
    absurd ⟨hlen, admitted_iff.mpr ha⟩ hidle
  · constructor
    · exact fun hev hnan => hev hfull (admitted_iff.mp hadm) hnan m E.mem E.le
    · intro himp _ _ hnan last hlast hle
      have heq : last = m := le_antisymm (E.le last hlast) (hle m E.mem)
      rw [heq]
      exact himp hnan
  · rintro ⟨hlen, v, hv, hnumber, r, hr, hrnan, hrv⟩
    have hlen' : b'.results.length = ef := E.length_eq.trans hlen
    refine ⟨hlen', v, E.lost hnew hv, hnumber, ?_⟩
    rcases E.rest r (List.mem_cons_of_mem _ hr) with rfl | hkept
    · -- the NaN itself falls out: all that is left is below it, hence NaN too
      obtain ⟨x, hx⟩ := List.exists_mem_of_length_pos (hlen'.symm ▸ hef)
      have hxr := Cand.totalKey_le (E.le x (E.sub x hx))
      exact ⟨x, hx, F32.isNan_of_le hrnan hnumber (hrv rfl) hxr, fun _ => hxr.trans (hrv rfl)⟩
    · exact ⟨r, hkept, hrnan, hrv⟩

/-- A neighbor that fits a full heap is a number, and so is what falls out for it. -/
theorem number_of_fits (hef : 0 < ef) (B : Heap h query predicate ef t.beam) {c : Cand}
    (hfits : Fits t.beam c.dist) (hfull : ef ≤ t.beam.results.length) {m : Cand}
    (hm : m ∈ c :: t.beam.results) (hle : ∀ x ∈ c :: t.beam.results, x ≤ m) :
    c.dist.isNan = false ∧ m.dist.isNan = false := by
  have hne : t.beam.results ≠ [] := by
    intro hnil
    rw [hnil, List.length_nil] at hfull
    omega
  obtain ⟨last, hlast, hfar, hle'⟩ := Beam.farthest_last B.ranked.1 hne
  have hlt : c.dist.lt last.dist = true := by
    rw [← hfar]
    exact hfits.resolve_left (by rw [B.ef_eq]; omega)
  simp only [F32.lt, Bool.and_eq_true, Bool.not_eq_true'] at hlt
  refine ⟨hlt.1.1, ?_⟩
  rcases List.mem_cons.mp hm with rfl | hm
  · exact hlt.1.1
  · have heq : m = last := le_antisymm (hle' m hm) (hle last (List.mem_cons_of_mem _ hlast))
    rw [heq]
    exact hlt.1.2

theorem step (hef : 0 < ef) (S : Settled h query predicate ef false t) {t' : Traced}
    (hs : Step h query predicate t t') : Settled h query predicate ef false t' := by
  have B := S.heap
  cases hs with
  | queue id tr hnew hfits =>
    refine S.offered hnew tr (fun hfull hadm m b' E => ?_) fun hidle hlen ha _ =>
      absurd ⟨hlen, admitted_iff.mpr ha⟩ hidle
    obtain ⟨hc, hm⟩ := number_of_fits hef B hfits hfull E.mem E.le
    refine ⟨⟨?_, ?_⟩, ?_⟩
    · rintro hev ⟨r, hr, hrnan⟩
      rcases List.mem_cons.mp hr with rfl | hr
      · simp [hc] at hrnan
      · have := hev hfull (admitted_iff.mp hadm) ⟨r, hr, hrnan⟩
        simp [hc] at this
    · rintro himp _ _ ⟨r, hr, hrnan⟩
      have := himp ⟨r, List.mem_cons_of_mem _ hr, hrnan⟩
      simp [hm] at this
    · rintro ⟨hlen, v, hv, hnumber, r, hr, hrnan, -⟩
      refine ⟨E.length_eq.trans hlen, v, E.lost hnew hv, hnumber, r, ?_, hrnan, nofun⟩
      rcases E.rest r (List.mem_cons_of_mem _ hr) with rfl | hkept
      · simp [hm] at hrnan
      · exact hkept
  | skip id hnew hfar =>
    have hfull : t.beam.results.length = ef := by
      refine Nat.le_antisymm B.length_le (Nat.not_lt.mp fun hroom => hfar (.inl ?_))
      exact hroom.trans_eq B.ef_eq.symm
    have hlost : ∀ v, Lost h query predicate t.beam v → Lost h query predicate (t.beam.see id) v :=
      fun v hv => ⟨List.mem_cons_of_mem _ hv.1, hv.2⟩
    refine S.advance (B.see id) ?_ ?_ ?_
    · intro hev hb v hv
      obtain ⟨hvisited, hvadm, hnot⟩ := hv
      refine ⟨hfull, fun r hr => ?_⟩
      rcases List.mem_cons.mp hvisited with rfl | hvisited
      · cases hnan : (h.scored query v).dist.isNan with
        | true =>
          rw [F32.farness_nan hnan]
          exact le_top
        | false =>
          -- no NaN is held, so the comparison that turned `v` away is the one of the numbers
          have hnumbers : ∀ r ∈ t.beam.results, r.dist.isNan = false := by
            intro r hr
            by_contra hrnan
            have := hev hfull.ge (admitted_iff.mp hvadm) ⟨r, hr, by simpa using hrnan⟩
            simp [hnan] at this
          obtain ⟨last, hlast, hfarthest, hle⟩ :=
            Beam.farthest_last B.ranked.1 (List.ne_nil_of_mem hr)
          have hbeyond : (h.scored query v).dist.lt last.dist = false := by
            rw [← hfarthest]
            exact Bool.eq_false_of_not_eq_true fun hlt => hfar (.inr hlt)
          calc r.dist.farness ≤ last.dist.farness :=
                F32.farness_le (.inl (hnumbers r hr)) (Cand.totalKey_le (hle r hr))
            _ ≤ (h.scored query v).dist.farness :=
                F32.farness_le_of_not_lt (hnumbers last hlast) hbeyond
      · exact (hb v ⟨hvisited, hvadm, hnot⟩).2 r hr
    · rintro ⟨hlen, v, hv, hrest⟩
      exact ⟨hlen, v, hlost v hv, hrest⟩
    · intro hbad
      simp only [EventFair, Classical.not_imp] at hbad
      obtain ⟨-, hadm, ⟨r, hr, hrnan⟩, hc⟩ := hbad
      exact ⟨hfull, id, ⟨List.mem_cons_self, admitted_iff.mpr hadm, B.fresh hnew⟩,
        Bool.eq_false_of_not_eq_true hc, r, hr, hrnan, nofun⟩

omit [Arith] in
theorem unfair_mem_cons {log : List Event} (event : Event)
    (hfair : EventFair h predicate ef event) (e : Event) (hbad : ¬ EventFair h predicate ef e) :
    e ∈ event :: log ↔ e ∈ log := by
  rw [List.mem_cons, or_iff_right]
  rintro rfl
  exact hbad hfair

theorem lawful (hef : 0 < ef) :
    Lawful h query predicate fun _ => Settled h query predicate ef false where
  step _ _ _ hs S := S.step hef hs
  drop _ _ _ _ S := S.quiet rfl rfl rfl fun _ _ => Iff.rfl
  pop _ c _ _ _ S := S.quiet rfl rfl rfl (unfair_mem_cons (.expanded c.id) trivial)
  defer _ _ S := S.quiet rfl rfl rfl fun _ _ => Iff.rfl
  release _ _ _ S := S
  resume _ S := S.quiet rfl rfl rfl fun _ _ => Iff.rfl
  rescue _ c _ S := S.quiet rfl rfl rfl (unfair_mem_cons (.rescued c.id) trivial)

/-- Once the entry points are in, the order of the lost number no longer matters. -/
theorem seeded (S : Settled h query predicate ef true t) : Settled h query predicate ef false t where
  heap := S.heap
  nearest := S.nearest
  spoilt hbad := by
    obtain ⟨hlen, v, hv, hnumber, r, hr, hrnan, -⟩ := S.spoilt hbad
    exact ⟨hlen, v, hv, hnumber, r, hr, hrnan, nofun⟩

end Settled

/-- No node whose distance was computed, and that may be returned, is nearer than a hit without being
one. -/
def KeepsNearest (h : Hnsw) (query : List F32) (predicate : Option Predicate) (hits : List Cand)
    (log : List Event) : Prop :=
  ∀ id ∈ log.filterMap Event.scoredId, h.Admits predicate id → id ∉ hits.map Cand.id →
    ∀ c ∈ hits, c.dist.farness ≤ (h.scored query id).dist.farness

instance (h : Hnsw) (query : List F32) (predicate : Option Predicate) (hits : List Cand)
    (log : List Event) : Decidable (h.KeepsNearest query predicate hits log) :=
  have : ∀ id, Decidable (h.Admits predicate id) := fun _ => inferInstanceAs (Decidable (_ ∧ _))
  inferInstanceAs (Decidable (∀ id ∈ log.filterMap Event.scoredId, h.Admits predicate id →
    id ∉ hits.map Cand.id → ∀ c ∈ hits, c.dist.farness ≤ (h.scored query id).dist.farness))

theorem Settled.keepsNearest_iff {t : Traced} (S : Settled h query predicate ef false t)
    (O : Once [] t) : h.KeepsNearest query predicate t.beam.results t.log ↔
      ∀ e ∈ t.log, h.EventFair predicate ef e := by
  have hlost : ∀ v, Lost h query predicate t.beam v ↔ v ∈ t.log.filterMap Event.scoredId ∧
      h.Admits predicate v ∧ v ∉ t.beam.results.map Cand.id := by
    intro v
    rw [O.scored_eq, ← admitted_iff]
    refine and_congr_right fun _ => and_congr_right fun _ => not_congr ?_
    constructor
    · exact fun hmem => List.mem_map_of_mem hmem
    · intro hmem
      obtain ⟨c, hc, rfl⟩ := List.mem_map.mp hmem
      exact S.heap.ranked.2 c hc ▸ hc
  constructor
  · intro hkeeps
    by_contra hunfair
    push Not at hunfair
    obtain ⟨-, v, hv, hnumber, r, hr, hrnan, -⟩ := S.spoilt hunfair
    obtain ⟨hscored, hadm, hnot⟩ := (hlost v).mp hv
    have hle := hkeeps v hscored hadm hnot r hr
    rw [F32.farness_nan hrnan, F32.farness_number hnumber] at hle
    exact WithTop.not_top_le_coe _ hle
  · intro hfair v hscored hadm hnot
    exact (S.nearest hfair v ((hlost v).mpr ⟨hscored, hadm, hnot⟩)).2

/-- **What a layer search discards.** Over any graph whose links name stored nodes, from any entry
points and with any heap that holds something, a layer search keeps the nearest of what it has seen if
and only if each distance it computes finds a fair heap. -/
theorem searchLayer_keepsNearest_iff (h : Hnsw) (H : InRange h) (query : List F32)
    (hq : query.length = h.dim) (seeds : List Nat) (hseeds : ∀ x ∈ seeds, x < h.n) (ef : Nat)
    (hef : 0 < ef) (layer : Nat) (predicate : Option Predicate) (tr : Traversal) :
    Ensures (h.searchLayerTraced query seeds ef layer predicate tr) fun r =>
      h.searchLayer query seeds ef layer predicate tr = .ok (r.1, r.2.1) ∧
        (h.KeepsNearest query predicate r.1 r.2.2 ↔ ∀ e ∈ r.2.2, h.EventFair predicate ef e) := by
  have hseeded : After (fun t => Once [] t ∧ Settled h query predicate ef true t)
      (h.seedBeamTraced query predicate seeds { beam := Beam.new ef tr }) :=
    seedBeamTraced_keeps
      (fun t id hnew ⟨O, S⟩ => ⟨O.queue (c := h.scored query id) hnew true _ _, S.seed hef hnew⟩)
      seeds ⟨Once.new ef tr, Settled.new h query predicate ef true tr⟩
  have hiff : After (fun r => h.KeepsNearest query predicate r.1 r.2.2 ↔
      ∀ e ∈ r.2.2, h.EventFair predicate ef e)
      (h.searchLayerTraced query seeds ef layer predicate tr) := by
    refine hseeded.bind fun t ⟨O, S⟩ => ?_
    refine After.bind ((searchRoundsTraced_keeps Once.lawful (h.n + 1) O).and
      (searchRoundsTraced_keeps (Settled.lawful hef) (h.n + 1) S.seeded)) fun t' ⟨O', S'⟩ => ?_
    exact S'.keepsNearest_iff O'
  -- the traced search returns, since the search does
  have hspec : Ensures (h.searchLayer query seeds ef layer predicate tr) _ :=
    searchLayer_spec H hq hseeds ef layer tr
  obtain ⟨hits, hreturns, -⟩ := hspec
  rw [← searchLayerTraced_erase] at hreturns ⊢
  cases hrun : h.searchLayerTraced query seeds ef layer predicate tr with
  | error fault =>
    rw [hrun] at hreturns
    cases hreturns
  | ok r => exact ⟨r, rfl, rfl, hiff.elim hrun⟩

omit [Arith] in
/-- The zero vector, then a unit vector. -/
def zeroFirst : Outcome HnswError Hnsw :=
  @run _ _ _ (@opStep Arith.ieee) (@Hnsw.new Arith.ieee { HnswParams.default with metric := .cosine })
    [.edit (.insert [F32.zero] [] 0), .edit (.insert [F32.one] [] 0)]

omit [Arith] in
theorem zeroFirst_wellFormed : Ensures zeroFirst WellFormed :=
  Run.ensures_run (fun _ op W hfit => @WellFormed.opStep Arith.ieee _ W op hfit)
    (@WellFormed.new Arith.ieee _) (by decide +kernel)

omit [Arith] in
/-- With a beam of two both are held, and every distance is fair. -/
theorem searchLayer_keepsNearest_iff_zeroFirst :
    Ensures zeroFirst fun h =>
      Ensures (@searchLayerTraced Arith.ieee h [F32.one] [0] 2 0 none .unfiltered) fun r =>
        r.1.map Cand.id = [1, 0] ∧ ∀ e ∈ r.2.2, h.EventFair none 2 e := by
  obtain ⟨h, hrun, W⟩ := zeroFirst_wellFormed
  have hfacts : Ensures zeroFirst fun h => [F32.one].length = h.dim ∧ (∀ x ∈ [0], x < h.n) ∧
      Ensures (@searchLayerTraced Arith.ieee h [F32.one] [0] 2 0 none .unfiltered) fun r =>
        r.1.map Cand.id = [1, 0] ∧ @KeepsNearest Arith.ieee h [F32.one] none r.1 r.2.2 := by
    decide +kernel
  obtain ⟨hdim, hseeds, r, hr, hhits, hkeeps⟩ := hfacts.elim hrun
  have hiff := @searchLayer_keepsNearest_iff Arith.ieee h W.toInRange [F32.one] hdim [0] hseeds 2
    (by decide) 0 none .unfiltered
  exact ⟨h, hrun, r, hr, hhits, (hiff.elim hr).2.mp hkeeps⟩

omit [Arith] in
/-- Searched for the unit vector with a beam of one, the graph answers with the zero vector, at NaN; the
unit vector, whose distance is a number, was scored and turned away. -/
theorem not_keepsNearest :
    Ensures zeroFirst fun h => WellFormed h ∧
      Ensures (@searchLayerTraced Arith.ieee h [F32.one] [0] 1 0 none .unfiltered) (fun r =>
        ¬ @KeepsNearest Arith.ieee h [F32.one] none r.1 r.2.2) ∧
      @search Arith.ieee h [F32.one] 1 1 = .ok [(F32.nan, 0)] ∧
      @bruteForce Arith.ieee h [F32.one] 1 = .ok [(F32.zero, 1)] := by
  obtain ⟨h, hrun, W⟩ := zeroFirst_wellFormed
  have hfacts : Ensures zeroFirst fun h =>
      Ensures (@searchLayerTraced Arith.ieee h [F32.one] [0] 1 0 none .unfiltered) (fun r =>
        ¬ @KeepsNearest Arith.ieee h [F32.one] none r.1 r.2.2) ∧
      @search Arith.ieee h [F32.one] 1 1 = .ok [(F32.nan, 0)] ∧
      @bruteForce Arith.ieee h [F32.one] 1 = .ok [(F32.zero, 1)] := by
    decide +kernel
  exact ⟨h, hrun, W, hfacts.elim hrun⟩

end Hnsw

end Brindle
