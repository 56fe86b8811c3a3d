/-
# Brindle.Hnsw.Trace — a layer search that records what it does.

The loops of `search_layer` again, beside a log of every distance they compute, every node they expand
and every node they go back to. Without the log they are the loops themselves (the `_erase` equations).
`Step` is one recorded distance; `Lawful` is the rule that carries a property of beam and log through a
whole search, with the candidates the search has in hand beside them.
-/
import Brindle.Hnsw.Moves

namespace Brindle

open Run (After after_foldlM_const after_true)
open Relation (ReflTransGen)

/-- One thing a layer search does. -/
inductive Event where
  /-- A distance is computed, of an entry point or of a neighbor; `held` is the heap before it. -/
  | scored (entry : Bool) (held : List Cand) (cand : Cand)
  | expanded (id : Nat)
  /-- A node expanded before is bridged out of after all. -/
  | rescued (id : Nat)
  deriving DecidableEq, Repr

/-- A beam, and what has been done to it, latest first. -/
structure Traced where
  beam : Beam
  log : List Event := []
  deriving DecidableEq, Repr

namespace Traced

def record (t : Traced) (event : Event) : Traced := { t with log := event :: t.log }

/-- The node is considered and its distance computed. -/
def see (t : Traced) (entry : Bool) (cand : Cand) : Traced :=
  ⟨t.beam.see cand.id, .scored entry t.beam.results cand :: t.log⟩

end Traced

namespace Hnsw

variable [Arith]

/-! ## The loops -/

def visitTraced (h : Hnsw) (query : List F32) (predicate : Option Predicate) (t : Traced)
    (id : Nat) : Outcome HnswError (Bool × Traced) := do
  if t.beam.visited.contains id then return (false, t)
  let d ← h.distance query (← h.vector id)
  let t := t.see false ⟨d, id⟩
  if t.beam.results.length < t.beam.ef || d.lt t.beam.farthest then
    return (true, { t with beam := t.beam.push ⟨d, id⟩ (← h.admissible id predicate) })
  return (false, t)

def bridgeOutTraced (h : Hnsw) (query : List F32) (layer : Nat) (predicate : Option Predicate)
    (t : Traced) (id : Nat) : Outcome HnswError (Bool × Traced) := do
  (← h.neighbors id layer).foldlM (fun (queued, t) n => do
    if t.beam.tr.detours = 0 then return (queued, t)
    let (joined, t) ← h.visitTraced query predicate t n
    if joined then return (true, { t with beam.tr := t.beam.tr.countDetour })
    return (queued, t)) (false, t)

def classifyNeighborsTraced (h : Hnsw) (query : List F32) (predicate : Option Predicate)
    (neighbors : List Nat) (t : Traced) : Outcome HnswError (Nat × List Nat × Traced) :=
  neighbors.foldlM (fun (matching, bridges, t) n => do
    if h.nodeMatches n predicate then
      let (_, t) ← h.visitTraced query predicate t n
      return (matching + 1, bridges, t)
    else if bridges.length < h.m then return (matching, bridges ++ [n], t)
    else return (matching, bridges, t)) (0, [], t)

def crossBridgesTraced (h : Hnsw) (query : List F32) (layer : Nat) (predicate : Option Predicate)
    (bridges : List Nat) (matching : Nat) (t : Traced) : Outcome HnswError (Nat × Traced) :=
  bridges.foldlM (fun (matching, t) bridge => do
    if matching ≥ h.m then return (matching, t)
    (← h.neighbors bridge layer).foldlM (fun (matching, t) nn => do
      if matching ≥ h.m then return (matching, t)
      if h.nodeMatches nn predicate then
        let (_, t) ← h.visitTraced query predicate t nn
        return (matching + 1, t)
      return (matching, t)) (matching, t)) (matching, t)

def expandTraced (h : Hnsw) (query : List F32) (layer : Nat) (predicate : Option Predicate)
    (t : Traced) (id : Nat) : Outcome HnswError (Bool × Traced) := do
  let neighbors ← h.neighbors id layer
  if !isFiltered predicate then
    let t ← neighbors.foldlM (fun t n => do
      let (_, t) ← h.visitTraced query predicate t n
      return t) t
    return (false, t)
  let (matching, bridges, t) ← h.classifyNeighborsTraced query predicate neighbors t
  let (matching, t) ← h.crossBridgesTraced query layer predicate bridges matching t
  if matching = 0 then
    let (_, t) ← h.bridgeOutTraced query layer predicate t id
    return (true, t)
  return (false, t)

def seedBeamTraced (h : Hnsw) (query : List F32) (predicate : Option Predicate)
    (entryPoints : List Nat) (t : Traced) : Outcome HnswError Traced :=
  entryPoints.foldlM (fun t ep => do
    if t.beam.visited.contains ep then return t
    let d ← h.distance query (← h.vector ep)
    let t := t.see true ⟨d, ep⟩
    return { t with beam := t.beam.push ⟨d, ep⟩ (← h.admissible ep predicate) }) t

def walkFrontierTraced (h : Hnsw) (query : List F32) (layer : Nat) (predicate : Option Predicate) :
    Nat → Traced → Outcome HnswError Traced
  | 0, _ => Outcome.starved
  | fuel + 1, t =>
    match t.beam.frontier with
    | [] => return t
    | c :: rest => do
      let t := { t with beam.frontier := rest }
      let filtered := isFiltered predicate
      if c.dist.gt t.beam.farthest && (!filtered || t.beam.results.length ≥ t.beam.ef) then
        return t
      if filtered && t.beam.tr.expansions = 0 then return t
      let t := { t with beam.tr := t.beam.tr.countExpansion filtered }
      let (bridged, t) ← h.expandTraced query layer predicate (t.record (.expanded c.id)) c.id
      let t :=
        if filtered && !bridged then { t with beam.deferred := t.beam.deferred ++ [c] } else t
      walkFrontierTraced h query layer predicate fuel t

def rescueTraced (h : Hnsw) (query : List F32) (layer : Nat) (predicate : Option Predicate)
    (deferred : List Cand) (t : Traced) : Outcome HnswError (Bool × Traced) :=
  deferred.foldlM (fun (progressed, t) cand => do
    if t.beam.tr.detours = 0 then return (progressed, t)
    let (queued, t) ← h.bridgeOutTraced query layer predicate (t.record (.rescued cand.id)) cand.id
    return (progressed || queued, t)) (false, t)

def searchRoundsTraced (h : Hnsw) (query : List F32) (layer : Nat) (predicate : Option Predicate) :
    Nat → Traced → Outcome HnswError Traced
  | 0, _ => Outcome.starved
  | rounds + 1, t => do
    let t ← h.walkFrontierTraced query layer predicate (h.n + 1) t
    if layer ≠ 0 || !isFiltered predicate || t.beam.results.length ≥ t.beam.ef
        || t.beam.tr.detours = 0 then return t
    let deferred := t.beam.deferred
    let t := { t with beam.deferred := [] }
    if deferred.isEmpty then return t
    let (progressed, t) ←
      h.rescueTraced query layer predicate (deferred.insertionSort (· ≤ ·)) t
    if !progressed then return t
    searchRoundsTraced h query layer predicate rounds t

/-- `search_layer`, with the log of what it did. -/
def searchLayerTraced (h : Hnsw) (query : List F32) (entryPoints : List Nat) (ef layer : Nat)
    (predicate : Option Predicate) (tr : Traversal) :
    Outcome HnswError (List Cand × Traversal × List Event) := do
  let t ← h.seedBeamTraced query predicate entryPoints { beam := Beam.new ef tr }
  let t ← h.searchRoundsTraced query layer predicate (h.n + 1) t
  return (t.beam.results, t.beam.tr, t.log)

/-! ## Without the log -/

section Erase

variable (h : Hnsw) (query : List F32) (layer : Nat) (predicate : Option Predicate)

theorem visitTraced_erase (t : Traced) (id : Nat) :
    (fun r => (r.1, r.2.beam)) <$> h.visitTraced query predicate t id =
      h.visit query predicate t.beam id := by
  unfold visitTraced visit
  split_ifs with hseen
  · rfl
  · simp only [map_bind]
    refine bind_congr fun v => bind_congr fun d => ?_
    refine (apply_ite _ _ _ _).trans (ite_congr rfl (fun _ => ?_) fun _ => rfl)
    simp only [map_bind, map_pure]
    rfl

theorem bridgeOutTraced_erase (t : Traced) (id : Nat) :
    (fun r => (r.1, r.2.beam)) <$> h.bridgeOutTraced query layer predicate t id =
      h.bridgeOut query layer predicate t.beam id := by
  unfold bridgeOutTraced bridgeOut
  rw [map_bind]
  refine bind_congr fun ids => ?_
  refine Outcome.map_foldlM (fun r : Bool × Traced => (r.1, r.2.beam)) (fun r n => ?_) ids (false, t)
  obtain ⟨queued, t⟩ := r
  dsimp only
  split_ifs
  · rfl
  · rw [map_bind, ← visitTraced_erase, bind_map_left]
    refine bind_congr fun r => ?_
    split_ifs <;> rfl

theorem classifyNeighborsTraced_erase (ids : List Nat) (t : Traced) :
    (fun r => (r.1, r.2.1, r.2.2.beam)) <$> h.classifyNeighborsTraced query predicate ids t =
      h.classifyNeighbors query predicate ids t.beam := by
  refine Outcome.map_foldlM (fun r : Nat × List Nat × Traced => (r.1, r.2.1, r.2.2.beam))
    (fun r n => ?_) ids (0, [], t)
  obtain ⟨matching, bridges, t⟩ := r
  dsimp only
  split_ifs
  · rw [map_bind, ← visitTraced_erase, bind_map_left]
    rfl
  · rfl
  · rfl

theorem crossBridgesTraced_erase (bridges : List Nat) (matching : Nat) (t : Traced) :
    (fun r => (r.1, r.2.beam)) <$> h.crossBridgesTraced query layer predicate bridges matching t =
      h.crossBridges query layer predicate bridges matching t.beam := by
  refine Outcome.map_foldlM (fun r : Nat × Traced => (r.1, r.2.beam)) (fun r bridge => ?_) bridges
    (matching, t)
  obtain ⟨matching, t⟩ := r
  dsimp only
  split_ifs
  · rfl
  · rw [map_bind]
    refine bind_congr fun ids => ?_
    refine Outcome.map_foldlM (fun r : Nat × Traced => (r.1, r.2.beam)) (fun r n => ?_) ids
      (matching, t)
    obtain ⟨matching, t⟩ := r
    dsimp only
    split_ifs
    · rfl
    · rw [map_bind, ← visitTraced_erase, bind_map_left]
      rfl
    · rfl

theorem visitLoopTraced_erase (ids : List Nat) (t : Traced) :
    Traced.beam <$> ids.foldlM (fun t n => do
      let (_, t) ← h.visitTraced query predicate t n
      return t) t =
    ids.foldlM (fun b n => do
      let (_, b) ← h.visit query predicate b n
      return b) t.beam := by
  refine Outcome.map_foldlM Traced.beam (fun t n => ?_) ids t
  rw [map_bind, ← visitTraced_erase, bind_map_left]
  rfl

theorem expandTraced_erase (t : Traced) (id : Nat) :
    (fun r => (r.1, r.2.beam)) <$> h.expandTraced query layer predicate t id =
      h.expand query layer predicate t.beam id := by
  unfold expandTraced expand
  rw [map_bind]
  refine bind_congr fun ids => ?_
  split_ifs
  · rw [map_bind, ← visitLoopTraced_erase, bind_map_left]
    rfl
  · rw [map_bind, ← classifyNeighborsTraced_erase, bind_map_left]
    refine bind_congr fun r => ?_
    obtain ⟨matching, bridges, t⟩ := r
    dsimp only
    rw [map_bind, ← crossBridgesTraced_erase, bind_map_left]
    refine bind_congr fun r => ?_
    obtain ⟨matching, t⟩ := r
    dsimp only
    split_ifs
    · rw [map_bind, ← bridgeOutTraced_erase, bind_map_left]
      rfl
    · rfl

theorem seedBeamTraced_erase (seeds : List Nat) (t : Traced) :
    Traced.beam <$> h.seedBeamTraced query predicate seeds t =
      h.seedBeam query predicate seeds t.beam := by
  refine Outcome.map_foldlM Traced.beam (fun t ep => ?_) seeds t
  split_ifs
  · rfl
  · simp only [map_bind, map_pure]
    rfl

theorem walkFrontierTraced_erase (fuel : Nat) (t : Traced) :
    Traced.beam <$> h.walkFrontierTraced query layer predicate fuel t =
      h.walkFrontier query layer predicate fuel t.beam := by
  induction fuel generalizing t with
  | zero => rfl
  | succ fuel ih =>
    rw [walkFrontierTraced.eq_def, walkFrontier.eq_def]
    obtain ⟨⟨visited, frontier, results, ef, deferred, tr⟩, log⟩ := t
    cases frontier with
    | nil => rfl
    | cons c rest =>
      dsimp only
      split_ifs
      · rfl
      · rfl
      · rw [map_bind]
        refine Eq.trans ?_ (congrArg (· >>= _) (expandTraced_erase h query layer predicate
          (Traced.record ⟨⟨visited, rest, results, ef, deferred, _⟩, log⟩ (.expanded c.id)) c.id))
        rw [bind_map_left]
        refine bind_congr fun r => ?_
        obtain ⟨bridged, t⟩ := r
        dsimp only
        rw [ih]
        split_ifs <;> rfl

theorem rescueTraced_erase (deferred : List Cand) (t : Traced) :
    (fun r => (r.1, r.2.beam)) <$> h.rescueTraced query layer predicate deferred t =
      h.rescue query layer predicate deferred t.beam := by
  refine Outcome.map_foldlM (fun r : Bool × Traced => (r.1, r.2.beam)) (fun r cand => ?_) deferred
    (false, t)
  obtain ⟨progressed, t⟩ := r
  dsimp only
  split_ifs
  · rfl
  · have hbridge := bridgeOutTraced_erase h query layer predicate (t.record (.rescued cand.id)) cand.id
    rw [map_bind, show t.beam = (t.record (.rescued cand.id)).beam from rfl, ← hbridge,
      bind_map_left]
    rfl

theorem searchRoundsTraced_erase (rounds : Nat) (t : Traced) :
    Traced.beam <$> h.searchRoundsTraced query layer predicate rounds t =
      h.searchRounds query layer predicate rounds t.beam := by
  induction rounds generalizing t with
  | zero => rfl
  | succ rounds ih =>
    unfold searchRoundsTraced searchRounds
    rw [map_bind, ← walkFrontierTraced_erase, bind_map_left]
    refine bind_congr fun t => ?_
    dsimp only
    split_ifs
    · rfl
    · rfl
    · rw [map_bind]
      refine Eq.trans ?_ (congrArg (· >>= _) (rescueTraced_erase h query layer predicate
        (t.beam.deferred.insertionSort (· ≤ ·)) { t with beam.deferred := [] }))
      rw [bind_map_left]
      refine bind_congr fun r => ?_
      obtain ⟨progressed, t⟩ := r
      dsimp only
      split_ifs
      · rfl
      · exact ih t

/-- **The traced search** is the search. -/
theorem searchLayerTraced_erase (seeds : List Nat) (ef : Nat) (tr : Traversal) :
    (fun r => (r.1, r.2.1)) <$> h.searchLayerTraced query seeds ef layer predicate tr =
      h.searchLayer query seeds ef layer predicate tr := by
  have hseed := seedBeamTraced_erase h query predicate seeds { beam := Beam.new ef tr }
  unfold searchLayerTraced searchLayer
  rw [map_bind, ← hseed, bind_map_left]
  refine bind_congr fun t => ?_
  rw [map_bind, ← searchRoundsTraced_erase, bind_map_left]
  rfl

end Erase

/-! ## The steps -/

/-- One distance computed for a neighbor: the node is queued, at whatever charge, or only seen. -/
inductive Step (h : Hnsw) (query : List F32) (predicate : Option Predicate) (t : Traced) :
    Traced → Prop where
  | queue (id : Nat) (tr : Traversal) (hnew : id ∉ t.beam.visited)
      (hfits : Fits t.beam (h.scored query id).dist) : Step h query predicate t
        { t.see false (h.scored query id) with
          beam := { (t.beam.see id).push (h.scored query id) (h.admitted predicate id) with tr } }
  | skip (id : Nat) (hnew : id ∉ t.beam.visited) (hfar : ¬ Fits t.beam (h.scored query id).dist) :
      Step h query predicate t (t.see false (h.scored query id))

def Steps (h : Hnsw) (query : List F32) (predicate : Option Predicate) : Traced → Traced → Prop :=
  ReflTransGen (Step h query predicate)

section Steps

variable {h : Hnsw} {query : List F32} {layer : Nat} {predicate : Option Predicate}

theorem visitTraced_cases (t : Traced) (id : Nat) :
    After (fun r => r = (false, t) ∨
        (id ∉ t.beam.visited ∧ Fits t.beam (h.scored query id).dist ∧
          r = (true, { t.see false (h.scored query id) with
            beam := (t.beam.see id).push (h.scored query id) (h.admitted predicate id) })) ∨
        (id ∉ t.beam.visited ∧ ¬ Fits t.beam (h.scored query id).dist ∧
          r = (false, t.see false (h.scored query id))))
      (h.visitTraced query predicate t id) := by
  unfold visitTraced
  by_cases hseen : id ∈ t.beam.visited
  · rw [if_pos (List.contains_iff_mem.mpr hseen)]
    exact .inl rfl
  · rw [if_neg (fun hc => hseen (List.contains_iff_mem.mp hc))]
    refine After.bind (after_vector h id) ?_
    rintro v rfl
    refine After.bind (after_distance h query (h.vec id)) ?_
    rintro d rfl
    dsimp only
    split_ifs with hroom
    · refine After.bind (after_admissible h id predicate) ?_
      rintro a rfl
      rw [Bool.or_eq_true, decide_eq_true_eq] at hroom
      exact .inr (.inl ⟨hseen, hroom, rfl⟩)
    · rw [Bool.or_eq_true, decide_eq_true_eq] at hroom
      exact .inr (.inr ⟨hseen, hroom, rfl⟩)

theorem visitTraced_steps (t : Traced) (id : Nat) :
    After (fun r => Steps h query predicate t r.2) (h.visitTraced query predicate t id) := by
  refine (visitTraced_cases t id).mono ?_
  rintro r (rfl | ⟨hnew, hfits, rfl⟩ | ⟨hnew, hfar, rfl⟩)
  · exact .refl
  · exact .single (.queue id _ hnew hfits)
  · exact .single (.skip id hnew hfar)

/-- A loop whose body takes steps takes steps. -/
theorem foldlM_steps {α β : Type} {f : β → α → Outcome HnswError β} (traced : β → Traced)
    (xs : List α) {t : Traced} (hstep : ∀ x s,
      After (fun s' => Steps h query predicate (traced s) (traced s')) (f s x))
    {s : β} (hs : Steps h query predicate t (traced s)) :
    After (fun s' => Steps h query predicate t (traced s')) (xs.foldlM f s) :=
  after_foldlM_const (fun s' => Steps h query predicate t (traced s')) xs
    (fun x s _ hI => (hstep x s).mono fun _ hnext => ReflTransGen.trans hI hnext) hs

theorem bridgeOutTraced_steps (t : Traced) (id : Nat) :
    After (fun r => Steps h query predicate t r.2)
      (h.bridgeOutTraced query layer predicate t id) := by
  refine After.bind (after_true _) fun ids _ => ?_
  refine foldlM_steps Prod.snd ids (fun x s => ?_) .refl
  obtain ⟨queued, t'⟩ := s
  dsimp only
  split_ifs
  · exact .refl
  · refine After.bind (visitTraced_cases t' x) ?_
    rintro r (rfl | ⟨hnew, hfits, rfl⟩ | ⟨hnew, hfar, rfl⟩)
    · exact .refl
    · exact .single (.queue x _ hnew hfits)
    · exact .single (.skip x hnew hfar)

theorem classifyNeighborsTraced_steps (ids : List Nat) (t : Traced) :
    After (fun r => Steps h query predicate t r.2.2)
      (h.classifyNeighborsTraced query predicate ids t) := by
  refine foldlM_steps (fun r : Nat × List Nat × Traced => r.2.2) ids (fun x s => ?_) .refl
  obtain ⟨matching, bridges, t'⟩ := s
  dsimp only
  split_ifs
  · exact After.bind (visitTraced_steps t' x) fun r hv => hv
  · exact .refl
  · exact .refl

theorem crossBridgesTraced_steps (bridges : List Nat) (matching : Nat) (t : Traced) :
    After (fun r => Steps h query predicate t r.2)
      (h.crossBridgesTraced query layer predicate bridges matching t) := by
  refine foldlM_steps Prod.snd bridges (fun x s => ?_) .refl
  obtain ⟨matching', t'⟩ := s
  dsimp only
  split_ifs
  · exact .refl
  · refine After.bind (after_true _) fun ids _ => ?_
    refine foldlM_steps Prod.snd ids (fun y s => ?_) .refl
    obtain ⟨matching'', t''⟩ := s
    dsimp only
    split_ifs
    · exact .refl
    · exact After.bind (visitTraced_steps t'' y) fun r hv => hv
    · exact .refl

theorem expandTraced_steps (t : Traced) (id : Nat) :
    After (fun r => Steps h query predicate t r.2) (h.expandTraced query layer predicate t id) := by
  refine After.bind (after_true _) fun ids _ => ?_
  split_ifs
  · refine After.bind (P := fun t' => Steps h query predicate t t') ?_ fun t' hv => hv
    refine foldlM_steps (fun t' => t') ids (fun x t' => ?_) .refl
    exact After.bind (visitTraced_steps t' x) fun r hv => hv
  · refine After.bind (classifyNeighborsTraced_steps ids t) ?_
    rintro ⟨matching, bridges, t₁⟩ hv₁
    refine After.bind (crossBridgesTraced_steps bridges matching t₁) ?_
    rintro ⟨matching', t₂⟩ hv₂
    dsimp only at hv₁ hv₂ ⊢
    split_ifs
    · exact After.bind (bridgeOutTraced_steps t₂ id) fun r hv₃ => (hv₁.trans hv₂).trans hv₃
    · exact hv₁.trans hv₂

/-! ## The rule -/

/-- `P` survives whatever a layer search does once it is seeded. It speaks of the candidates the search
has in hand, popped or put off, as well as of beam and log. -/
structure Lawful (h : Hnsw) (query : List F32) (predicate : Option Predicate)
    (P : List Cand → Traced → Prop) : Prop where
  step : ∀ hand t t', Step h query predicate t t' → P hand t → P hand t'
  /-- The walk ends at a candidate it does not expand. -/
  drop : ∀ t c rest, t.beam.frontier = c :: rest → P [] t →
    P [] { t with beam.frontier := rest }
  pop : ∀ t c rest tr, t.beam.frontier = c :: rest → P [] t →
    P [c] (Traced.record { t with beam := { t.beam with frontier := rest, tr } } (.expanded c.id))
  /-- The candidate in hand is put off. -/
  defer : ∀ t c, P [c] t → P [] { t with beam.deferred := t.beam.deferred ++ [c] }
  release : ∀ t c hand, P (c :: hand) t → P hand t
  /-- What was put off is taken up. -/
  resume : ∀ t, P [] t →
    P (t.beam.deferred.insertionSort (· ≤ ·)) { t with beam.deferred := [] }
  rescue : ∀ t c hand, P (c :: hand) t → P hand (t.record (.rescued c.id))

section Rule

variable {P : List Cand → Traced → Prop} (L : Lawful h query predicate P)
include L

theorem Lawful.steps {hand : List Cand} {t t' : Traced} (hs : Steps h query predicate t t')
    (ht : P hand t) : P hand t' := by
  induction hs with
  | refl => exact ht
  | tail _ hlast ih => exact L.step hand _ _ hlast ih

theorem Lawful.releaseAll {hand : List Cand} {t : Traced} (ht : P hand t) : P [] t := by
  induction hand with
  | nil => exact ht
  | cons c hand ih => exact ih (L.release t c hand ht)

theorem walkFrontierTraced_keeps (fuel : Nat) {t : Traced} (ht : P [] t) :
    After (P []) (h.walkFrontierTraced query layer predicate fuel t) := by
  induction fuel generalizing t with
  | zero => trivial
  | succ fuel ih =>
    rw [walkFrontierTraced.eq_def]
    dsimp only
    split
    · exact ht
    · next c rest hf =>
      split_ifs
      · exact L.drop t c rest hf ht
      · exact L.drop t c rest hf ht
      · refine After.bind (expandTraced_steps _ c.id) ?_
        rintro ⟨bridged, t₂⟩ hs
        have hP : P [c] t₂ := L.steps hs (L.pop t c rest _ hf ht)
        dsimp only
        split_ifs
        · exact ih (L.defer t₂ c hP)
        · exact ih (L.release t₂ c [] hP)

theorem rescueTraced_keeps (deferred : List Cand) (progressed : Bool) {t : Traced}
    (ht : P deferred t) :
    After (fun r => P [] r.2) (deferred.foldlM (fun (progressed, t) cand => do
      if t.beam.tr.detours = 0 then return (progressed, t)
      let (queued, t) ←
        h.bridgeOutTraced query layer predicate (t.record (.rescued cand.id)) cand.id
      return (progressed || queued, t)) (progressed, t)) := by
  induction deferred generalizing progressed t with
  | nil => exact ht
  | cons c rest ih =>
    rw [List.foldlM_cons]
    dsimp only
    split_ifs
    · exact ih progressed (L.release t c rest ht)
    · rw [bind_assoc]
      refine After.bind (bridgeOutTraced_steps _ c.id) ?_
      rintro ⟨queued, t'⟩ hs
      exact ih (progressed || queued) (L.steps hs (L.rescue t c rest ht))

theorem searchRoundsTraced_keeps (rounds : Nat) {t : Traced} (ht : P [] t) :
    After (P []) (h.searchRoundsTraced query layer predicate rounds t) := by
  induction rounds generalizing t with
  | zero => trivial
  | succ rounds ih =>
    unfold searchRoundsTraced
    refine After.bind (walkFrontierTraced_keeps L (h.n + 1) ht) fun t₁ ht₁ => ?_
    have hresumed := L.resume t₁ ht₁
    dsimp only
    split_ifs
    · exact ht₁
    · exact L.releaseAll hresumed
    · refine After.bind (rescueTraced_keeps L _ false hresumed) ?_
      rintro ⟨progressed, t₂⟩ ht₂
      cases progressed with
      | false => exact ht₂
      | true => exact ih ht₂

end Rule

/-- Seeding: `P` survives an entry point first seen. -/
theorem seedBeamTraced_keeps {P : Traced → Prop}
    (hseed : ∀ t id, id ∉ t.beam.visited → P t → P { t.see true (h.scored query id) with
      beam := (t.beam.see id).push (h.scored query id) (h.admitted predicate id) })
    (seeds : List Nat) {t : Traced} (ht : P t) :
    After P (h.seedBeamTraced query predicate seeds t) := by
  refine after_foldlM_const P seeds (fun x t _ ht => ?_) ht
  by_cases hseen : x ∈ t.beam.visited
  · rw [if_pos (List.contains_iff_mem.mpr hseen)]
    exact ht
  · rw [if_neg (fun hc => hseen (List.contains_iff_mem.mp hc))]
    refine After.bind (after_vector h x) ?_
    rintro v rfl
    refine After.bind (after_distance h query (h.vec x)) ?_
    rintro d rfl
    refine After.bind (after_admissible h x predicate) ?_
    rintro a rfl
    exact hseed t x hseen ht

end Steps

end Hnsw

end Brindle
