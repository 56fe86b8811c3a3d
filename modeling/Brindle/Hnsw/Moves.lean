/-
# Brindle.Hnsw.Moves — the steps a layer search is made of.

Between two pops a layer search changes its beam in three ways only: it queues a node seen for the
first time, as a candidate or as a detour, or it sees one without queueing it because the heap is full.
`Move` is one such step, and every loop of the search is a sequence of them; the nodes seen stay within
any set that holds the seeds and is closed under the lists. A property that each step keeps, and that
a pop keeps too, therefore holds of the beam a layer search ends with. That the hits are sorted and
carry the metric's own distance is read off this way.
-/
import Brindle.Hnsw.SearchSpec
import Brindle.Lib.Run

namespace Brindle

open Outcome (index slice)
open Run (After after_iff after_foldlM after_foldlM_const after_true)
open Relation (ReflTransGen)

namespace Beam

/-- A node is considered, and its distance computed. -/
def see (b : Beam) (id : Nat) : Beam :=
  { b with visited := id :: b.visited, tr := b.tr.countDistance }

/-- The farthest distance is that of the last hit. -/
theorem farthest_last {b : Beam} (hsorted : b.results.Pairwise (· ≤ ·)) (hne : b.results ≠ []) :
    ∃ last ∈ b.results, b.farthest = last.dist ∧ ∀ r ∈ b.results, r ≤ last := by
  have hsplit := List.dropLast_append_getLast hne
  refine ⟨b.results.getLast hne, List.getLast_mem hne, ?_, fun r hr => ?_⟩
  · rw [farthest, List.getLast?_eq_some_getLast hne]
  · rw [← hsplit] at hr hsorted
    rcases List.mem_append.mp hr with hr | hr
    · exact (List.pairwise_append.mp hsorted).2.2 r hr _ List.mem_cons_self
    · exact (List.mem_singleton.mp hr).le

end Beam

namespace Hnsw

variable [Arith]

/-- Node `id` with its distance to the query. -/
def scored (h : Hnsw) (query : List F32) (id : Nat) : Cand :=
  ⟨h.metric.value query (h.vec id), id⟩

omit [Arith] in
/-- Whether `id` may be returned, as the code computes it. -/
def admitted (h : Hnsw) (predicate : Option Predicate) (id : Nat) : Bool :=
  !h.isDeleted id && h.nodeMatches id predicate

omit [Arith] in
theorem admitted_iff {h : Hnsw} {predicate : Option Predicate} {id : Nat} :
    h.admitted predicate id = true ↔ h.Admits predicate id := by
  simp [admitted, Admits]

/-- One step of a layer search, at a node of `within`. -/
inductive Move (h : Hnsw) (query : List F32) (predicate : Option Predicate) (within : Nat → Prop)
    (b : Beam) : Beam → Prop where
  | queue (id : Nat) (hin : within id) (hnew : id ∉ b.visited) : Move h query predicate within b
      ((b.see id).push (h.scored query id) (h.admitted predicate id))
  | route (id : Nat) (hin : within id) (hnew : id ∉ b.visited) (hleft : b.tr.detours ≠ 0) :
      Move h query predicate within b
        { (b.see id).push (h.scored query id) (h.admitted predicate id) with
          tr := b.tr.countDistance.countDetour }
  | skip (id : Nat) (hin : within id) (hnew : id ∉ b.visited) (hfull : b.ef ≤ b.results.length) :
      Move h query predicate within b (b.see id)

/-- A sequence of steps. -/
def Moves (h : Hnsw) (query : List F32) (predicate : Option Predicate) (within : Nat → Prop) :
    Beam → Beam → Prop :=
  ReflTransGen (Move h query predicate within)

/-! ## What the reads return -/

variable {h : Hnsw} {query : List F32} {predicate : Option Predicate} {layer : Nat}

omit [Arith] in
theorem after_vector (h : Hnsw) (id : Nat) : After (fun v => v = h.vec id) (h.vector id) := by
  unfold vector slice
  split_ifs with hfits
  · rfl
  · trivial

theorem after_distance (h : Hnsw) (a b : List F32) :
    After (fun d => d = h.metric.value a b) (h.distance a b) := by
  unfold distance Metric.value
  cases h.metric.distance a b with
  | ok d => rfl
  | error e => trivial

omit [Arith] in
theorem after_admissible (h : Hnsw) (id : Nat) (predicate : Option Predicate) :
    After (fun a => a = h.admitted predicate id) (h.admissible id predicate) := by
  have hdeleted : ∀ d, (index h.deleted id : Outcome HnswError Bool) = .ok d →
      d = h.isDeleted id := by
    intro d hd
    unfold index at hd
    unfold isDeleted
    rw [List.getD_eq_getElem?_getD]
    cases hget : h.deleted[id]? with
    | none => simp [hget, Outcome.panicked] at hd
    | some x =>
      simp only [hget] at hd
      cases hd
      rfl
  refine After.bind (after_iff.mpr hdeleted) ?_
  rintro d rfl
  exact rfl

/-! ## The loops -/

/-- Room is left in the heap, or the node is nearer than the farthest hit. -/
def Fits (b : Beam) (d : F32) : Prop := b.results.length < b.ef ∨ d.lt b.farthest = true

/-- **What a visit does**: nothing to a node seen before; otherwise the node is queued where it fits,
and only seen where it does not. -/
theorem visit_offers (b : Beam) (id : Nat) :
    After (fun r => (id ∈ b.visited ∧ r = (false, b)) ∨
        (id ∉ b.visited ∧ Fits b (h.scored query id).dist ∧
          r = (true, (b.see id).push (h.scored query id) (h.admitted predicate id))) ∨
        (id ∉ b.visited ∧ ¬ Fits b (h.scored query id).dist ∧ r = (false, b.see id)))
      (h.visit query predicate b id) := by
  unfold visit
  by_cases hseen : id ∈ b.visited
  · rw [if_pos (List.contains_iff_mem.mpr hseen)]
    exact .inl ⟨hseen, rfl⟩
  · rw [if_neg (fun hc => hseen (List.contains_iff_mem.mp hc))]
    refine After.bind (after_vector h id) ?_
    rintro v rfl
    refine After.bind (after_distance h query (h.vec id)) ?_
    rintro d rfl
    dsimp only
    split_ifs with hroom
    · refine After.bind (after_admissible h id predicate) ?_
      rintro a rfl
      rw [Bool.or_eq_true, decide_eq_true_eq] at hroom
      exact .inr (.inl ⟨hseen, hroom, rfl⟩)
    · rw [Bool.or_eq_true, decide_eq_true_eq] at hroom
      exact .inr (.inr ⟨hseen, hroom, rfl⟩)

/-- A node is only seen when the heap is full. -/
theorem visit_cases (b : Beam) (id : Nat) :
    After (fun r => (id ∈ b.visited ∧ r = (false, b)) ∨
        (id ∉ b.visited ∧
          r = (true, (b.see id).push (h.scored query id) (h.admitted predicate id))) ∨
        (id ∉ b.visited ∧ b.ef ≤ b.results.length ∧ r = (false, b.see id)))
      (h.visit query predicate b id) := by
  refine (visit_offers b id).mono ?_
  rintro r (hseen | ⟨hnew, -, hr⟩ | ⟨hnew, hfar, hr⟩)
  · exact .inl hseen
  · exact .inr (.inl ⟨hnew, hr⟩)
  · exact .inr (.inr ⟨hnew, Nat.not_lt.mp fun hroom => hfar (.inl hroom), hr⟩)

variable {within : Nat → Prop}

theorem visit_moves (b : Beam) {id : Nat} (hin : within id) :
    After (fun r => Moves h query predicate within b r.2) (h.visit query predicate b id) := by
  refine (visit_cases b id).mono ?_
  rintro r (⟨-, rfl⟩ | ⟨hnew, rfl⟩ | ⟨hnew, hfull, rfl⟩)
  · exact ReflTransGen.refl
  · exact ReflTransGen.single (Move.queue id hin hnew)
  · exact ReflTransGen.single (Move.skip id hin hnew hfull)

/-- Visit one node after another. -/
def visitAll (h : Hnsw) (query : List F32) (predicate : Option Predicate) (ids : List Nat)
    (b : Beam) : Outcome HnswError Beam :=
  ids.foldlM (fun b n => do
    let (_, b) ← h.visit query predicate b n
    return b) b

/-- Every node visited has then been seen. -/
theorem visitAll_sees {ids : List Nat} (hids : ∀ x ∈ ids, within x) (b : Beam) :
    After (fun b' => Moves h query predicate within b b' ∧ ∀ x ∈ ids, x ∈ b'.visited)
      (h.visitAll query predicate ids b) := by
  refine after_foldlM (fun done b' => Moves h query predicate within b b' ∧
    ∀ x ∈ done, x ∈ b'.visited) ids ?_ ⟨.refl, nofun⟩
  rintro done x b' hx ⟨hm, hdone⟩
  refine After.bind (visit_cases b' x) ?_
  rintro r (⟨hseen, rfl⟩ | ⟨hnew, rfl⟩ | ⟨hnew, hfull, rfl⟩)
  · exact ⟨hm, Beam.sees_snoc hdone (fun _ hv => hv) hseen⟩
  · refine ⟨hm.tail (Move.queue x (hids x hx) hnew), ?_⟩
    exact Beam.sees_snoc hdone (fun _ hv => List.mem_cons_of_mem _ hv) List.mem_cons_self
  · refine ⟨hm.tail (Move.skip x (hids x hx) hnew hfull), ?_⟩
    exact Beam.sees_snoc hdone (fun _ hv => List.mem_cons_of_mem _ hv) List.mem_cons_self

/-- A loop whose body makes moves makes moves. -/
theorem foldlM_moves {α β : Type} {f : β → α → Outcome HnswError β} (beamOf : β → Beam)
    (xs : List α) {b : Beam} (hstep : ∀ x ∈ xs, ∀ s,
      After (fun s' => Moves h query predicate within (beamOf s) (beamOf s')) (f s x))
    {s : β} (hs : Moves h query predicate within b (beamOf s)) :
    After (fun s' => Moves h query predicate within b (beamOf s')) (xs.foldlM f s) :=
  after_foldlM_const (fun s' => Moves h query predicate within b (beamOf s')) xs
    (fun x s hx hI => (hstep x hx s).mono fun _ hnext => ReflTransGen.trans hI hnext) hs

/-- The lists read at `layer` lead from nodes of `within` to nodes of `within`. -/
def Closed (h : Hnsw) (layer : Nat) (within : Nat → Prop) : Prop :=
  ∀ id, within id → After (fun ids => ∀ x ∈ ids, within x) (h.neighbors id layer)

section Loops

variable (hclosed : Closed h layer within)
include hclosed

theorem bridgeOut_moves (b : Beam) {id : Nat} (hin : within id) :
    After (fun r => Moves h query predicate within b r.2)
      (h.bridgeOut query layer predicate b id) := by
  refine After.bind (hclosed id hin) fun ids hids => ?_
  refine foldlM_moves Prod.snd ids (fun x hx s => ?_) ReflTransGen.refl
  obtain ⟨queued, b'⟩ := s
  dsimp only
  split_ifs with hspent
  · exact ReflTransGen.refl
  · refine After.bind (visit_cases b' x) ?_
    rintro r (⟨-, rfl⟩ | ⟨hnew, rfl⟩ | ⟨hnew, hfull, rfl⟩)
    · exact ReflTransGen.refl
    · exact ReflTransGen.single (Move.route x (hids x hx) hnew hspent)
    · exact ReflTransGen.single (Move.skip x (hids x hx) hnew hfull)

omit hclosed in
theorem classifyNeighbors_moves {ids : List Nat} (hids : ∀ x ∈ ids, within x) (b : Beam) :
    After (fun r => Moves h query predicate within b r.2.2 ∧ ∀ x ∈ r.2.1, within x)
      (h.classifyNeighbors query predicate ids b) := by
  refine after_foldlM_const (fun r : Nat × List Nat × Beam =>
    Moves h query predicate within b r.2.2 ∧ ∀ x ∈ r.2.1, within x) ids ?_
    ⟨ReflTransGen.refl, nofun⟩
  rintro x ⟨matching, bridges, b'⟩ hx ⟨hm, hbridges⟩
  dsimp only
  split_ifs with hmatch hroom
  · exact After.bind (visit_moves b' (hids x hx)) fun r hv => ⟨hm.trans hv, hbridges⟩
  · refine ⟨hm, fun y hy => ?_⟩
    rcases List.mem_append.mp hy with hy | hy
    · exact hbridges y hy
    · rw [List.mem_singleton.mp hy]
      exact hids x hx
  · exact ⟨hm, hbridges⟩

theorem crossBridges_moves {bridges : List Nat} (hbridges : ∀ x ∈ bridges, within x)
    (matching : Nat) (b : Beam) :
    After (fun r => Moves h query predicate within b r.2)
      (h.crossBridges query layer predicate bridges matching b) := by
  refine foldlM_moves Prod.snd bridges (fun x hx s => ?_) ReflTransGen.refl
  obtain ⟨matching', b'⟩ := s
  dsimp only
  split_ifs with hdone
  · exact ReflTransGen.refl
  · refine After.bind (hclosed x (hbridges x hx)) fun ids hids => ?_
    refine foldlM_moves Prod.snd ids (fun y hy s => ?_) ReflTransGen.refl
    obtain ⟨matching'', b''⟩ := s
    dsimp only
    split_ifs with hdone' hmatch
    · exact ReflTransGen.refl
    · exact After.bind (visit_moves b'' (hids y hy)) fun r hv => hv
    · exact ReflTransGen.refl

theorem expand_moves (b : Beam) {id : Nat} (hin : within id) :
    After (fun r => Moves h query predicate within b r.2)
      (h.expand query layer predicate b id) := by
  refine After.bind (hclosed id hin) fun ids hids => ?_
  split_ifs with hplain
  · refine After.bind (P := fun b' => Moves h query predicate within b b') ?_ fun b' hv => hv
    refine foldlM_moves (fun b' => b') ids (fun x hx b' => ?_) ReflTransGen.refl
    exact After.bind (visit_moves b' (hids x hx)) fun r hv => hv
  · refine After.bind (classifyNeighbors_moves hids b) ?_
    rintro ⟨matching, bridges, b₁⟩ ⟨hv₁, hbridges⟩
    refine After.bind (crossBridges_moves hclosed hbridges matching b₁) ?_
    rintro ⟨matching', b₂⟩ hv₂
    dsimp only
    split_ifs with hnone
    · exact After.bind (bridgeOut_moves hclosed b₂ hin) fun r hv₃ =>
        ReflTransGen.trans (ReflTransGen.trans hv₁ hv₂) hv₃
    · exact ReflTransGen.trans hv₁ hv₂

theorem rescue_moves {deferred : List Cand} (hdeferred : ∀ c ∈ deferred, within c.id) (b : Beam) :
    After (fun r => Moves h query predicate within b r.2)
      (h.rescue query layer predicate deferred b) := by
  refine foldlM_moves Prod.snd deferred (fun c hc s => ?_) ReflTransGen.refl
  obtain ⟨progressed, b'⟩ := s
  dsimp only
  split_ifs with hspent
  · exact ReflTransGen.refl
  · exact After.bind (bridgeOut_moves hclosed b' (hdeferred c hc)) fun r hv => hv

end Loops

/-- One entry point: seen before it changes nothing, otherwise it is queued. -/
theorem after_seed {b : Beam} {id : Nat} {Q : Beam → Prop} (hold : id ∈ b.visited → Q b)
    (hnew : id ∉ b.visited → Q ((b.see id).push (h.scored query id) (h.admitted predicate id))) :
    After Q (h.seedBeam query predicate [id] b) := by
  unfold seedBeam
  rw [List.foldlM_cons]
  simp only [List.foldlM_nil, bind_pure]
  by_cases hseen : id ∈ b.visited
  · rw [if_pos (List.contains_iff_mem.mpr hseen)]
    exact hold hseen
  · rw [if_neg (fun hc => hseen (List.contains_iff_mem.mp hc))]
    refine After.bind (after_vector h id) ?_
    rintro v rfl
    refine After.bind (after_distance h query (h.vec id)) ?_
    rintro d rfl
    refine After.bind (after_admissible h id predicate) ?_
    rintro a rfl
    exact hnew hseen

/-- The rule for one entry point after another. -/
theorem after_seedBeam {seeds : List Nat} {b : Beam} (I : List Nat → Beam → Prop)
    (hold : ∀ done x b', x ∈ seeds → x ∈ b'.visited → I done b' → I (done ++ [x]) b')
    (hnew : ∀ done x b', x ∈ seeds → x ∉ b'.visited → I done b' →
      I (done ++ [x]) ((b'.see x).push (h.scored query x) (h.admitted predicate x)))
    (hb : I [] b) : After (I seeds) (h.seedBeam query predicate seeds b) := by
  refine after_foldlM I seeds (fun done x b' hx hI => ?_) hb
  have hone : After (I (done ++ [x])) (h.seedBeam query predicate [x] b') :=
    after_seed (fun hseen => hold done x b' hx hseen hI) fun hseen => hnew done x b' hx hseen hI
  unfold seedBeam at hone
  rw [List.foldlM_cons] at hone
  simpa only [List.foldlM_nil, bind_pure] using hone

/-- Every entry point has then been seen. -/
theorem seedBeam_sees {seeds : List Nat} (hseeds : ∀ x ∈ seeds, within x) (b : Beam) :
    After (fun b' => Moves h query predicate within b b' ∧ ∀ x ∈ seeds, x ∈ b'.visited)
      (h.seedBeam query predicate seeds b) := by
  apply after_seedBeam fun done b' => Moves h query predicate within b b' ∧
    ∀ x ∈ done, x ∈ b'.visited
  · rintro done x b' - hseen ⟨hm, hdone⟩
    exact ⟨hm, Beam.sees_snoc hdone (fun _ hv => hv) hseen⟩
  · rintro done x b' hx hnew ⟨hm, hdone⟩
    refine ⟨hm.tail (Move.queue x (hseeds x hx) hnew), ?_⟩
    exact Beam.sees_snoc hdone (fun _ hv => List.mem_cons_of_mem _ hv) List.mem_cons_self
  · exact ⟨.refl, nofun⟩

theorem seedBeam_moves {seeds : List Nat} (hseeds : ∀ x ∈ seeds, within x) (b : Beam) :
    After (Moves h query predicate within b) (h.seedBeam query predicate seeds b) :=
  (seedBeam_sees hseeds b).mono fun _ hb => hb.1

/-- Without a predicate there is one round. -/
theorem searchRounds_plain (rounds : Nat) (b : Beam) :
    h.searchRounds query layer none (rounds + 1) b = h.walkFrontier query layer none (h.n + 1) b := by
  rw [searchRounds.eq_def]
  dsimp only
  refine Eq.trans (bind_congr fun b' => ?_) (bind_pure _)
  rw [if_pos (by simp [isFiltered])]

/-! ## The rule -/

/-- The nodes queued or put off are nodes of `within`. -/
def Inside (within : Nat → Prop) (b : Beam) : Prop :=
  (∀ c ∈ b.frontier, within c.id) ∧ ∀ c ∈ b.deferred, within c.id

omit [Arith] in
theorem Inside.cleared {b : Beam} (hb : Inside within b) : Inside within { b with deferred := [] } :=
  ⟨hb.1, fun _ hc => absurd hc List.not_mem_nil⟩

theorem Inside.move {b b' : Beam} (hm : Move h query predicate within b b')
    (hb : Inside within b) : Inside within b' := by
  have hpush : ∀ id, within id → ∀ c ∈ ((b.see id).push (h.scored query id)
      (h.admitted predicate id)).frontier, within c.id := by
    intro id hin c hc
    rcases Beam.mem_push_frontier.mp hc with rfl | hc
    · exact hin
    · exact hb.1 c hc
  cases hm with
  | queue id hin => exact ⟨hpush id hin, hb.2⟩
  | route id hin => exact ⟨hpush id hin, hb.2⟩
  | skip => exact hb

theorem Moves.keeps {P : Beam → Prop}
    (hmove : ∀ b b', Move h query predicate within b b' → P b → P b') {b b' : Beam}
    (hm : Moves h query predicate within b b') (hb : P b) : P b' := by
  induction hm with
  | refl => exact hb
  | tail _ hlast ih => exact hmove _ _ hlast ih

/-- Nothing is forgotten, and nothing is put off. -/
theorem Moves.grows {b b' : Beam} (hm : Moves h query predicate within b b') :
    (∀ v ∈ b.visited, v ∈ b'.visited) ∧ b'.deferred = b.deferred := by
  refine Moves.keeps (P := fun b'' => (∀ v ∈ b.visited, v ∈ b''.visited) ∧
    b''.deferred = b.deferred) ?_ hm ⟨fun _ hv => hv, rfl⟩
  rintro b₁ b₂ hmove ⟨hsub, hdeferred⟩
  cases hmove with
  | queue id => exact ⟨fun v hv => List.mem_cons_of_mem _ (hsub v hv), hdeferred⟩
  | route id => exact ⟨fun v hv => List.mem_cons_of_mem _ (hsub v hv), hdeferred⟩
  | skip id => exact ⟨fun v hv => List.mem_cons_of_mem _ (hsub v hv), hdeferred⟩

/-- `P` survives whatever a layer search does to its beam. -/
structure Steady (h : Hnsw) (query : List F32) (predicate : Option Predicate) (within : Nat → Prop)
    (P : Beam → Prop) : Prop where
  move : ∀ b b', Move h query predicate within b b' → P b → P b'
  /-- The walk ends at a candidate it does not expand. -/
  drop : ∀ b c rest, b.frontier = c :: rest → P b → P { b with frontier := rest }
  /-- A candidate is taken for expansion. -/
  pop : ∀ b c rest, b.frontier = c :: rest → (isFiltered predicate = true → b.tr.expansions ≠ 0) →
    P b → P { b with frontier := rest, tr := b.tr.countExpansion (isFiltered predicate) }
  defer : ∀ b deferred, P b → P { b with deferred }

section Rule

variable {P : Beam → Prop} (hclosed : Closed h layer within)
  (K : Steady h query predicate within P)
include hclosed K

theorem walkFrontier_keeps (fuel : Nat) {b : Beam} (hb : P b) (hin : Inside within b) :
    After (fun b' => P b' ∧ Inside within b')
      (h.walkFrontier query layer predicate fuel b) := by
  induction fuel generalizing b with
  | zero => trivial
  | succ fuel ih =>
    rw [walkFrontier.eq_def]
    dsimp only
    split
    · exact ⟨hb, hin⟩
    · next c rest hf =>
      have hc : within c.id := hin.1 c (by rw [hf]; exact List.mem_cons_self)
      have hrest : ∀ d ∈ rest, within d.id := fun d hd =>
        hin.1 d (by rw [hf]; exact List.mem_cons_of_mem c hd)
      split_ifs with hcut hspent
      · exact ⟨K.drop b c rest hf hb, hrest, hin.2⟩
      · exact ⟨K.drop b c rest hf hb, hrest, hin.2⟩
      · have hleft : isFiltered predicate = true → b.tr.expansions ≠ 0 := by
          intro hp hzero
          exact hspent (by simp [hp, hzero])
        refine After.bind (expand_moves hclosed _ hc) ?_
        rintro ⟨bridged, b₂⟩ hm
        have hP : P b₂ := Moves.keeps K.move hm (K.pop b c rest hf hleft hb)
        have hin₂ : Inside within b₂ :=
          Moves.keeps (fun _ _ => Inside.move) hm ⟨hrest, hin.2⟩
        dsimp only
        split_ifs with hkeep
        · refine ih (K.defer b₂ _ hP) ⟨hin₂.1, fun d hd => ?_⟩
          rcases List.mem_append.mp hd with hd | hd
          · exact hin₂.2 d hd
          · rw [List.mem_singleton.mp hd]
            exact hc
        · exact ih hP hin₂

theorem searchRounds_keeps (rounds : Nat) {b : Beam} (hb : P b) (hin : Inside within b) :
    After P (h.searchRounds query layer predicate rounds b) := by
  induction rounds generalizing b with
  | zero => trivial
  | succ rounds ih =>
    unfold searchRounds
    refine After.bind (walkFrontier_keeps hclosed K (h.n + 1) hb hin) ?_
    rintro b₁ ⟨hP, hin₁⟩
    have hcleared : P { b₁ with deferred := [] } := K.defer b₁ [] hP
    dsimp only
    split_ifs with hstop hnone
    · exact hP
    · exact hcleared
    · have hdeferred : ∀ c ∈ b₁.deferred.insertionSort (· ≤ ·), within c.id := fun c hc =>
        hin₁.2 c ((List.mem_insertionSort (· ≤ ·)).mp hc)
      refine After.bind (rescue_moves hclosed hdeferred _) ?_
      rintro ⟨progressed, b₂⟩ hm
      have hP₂ : P b₂ := Moves.keeps K.move hm hcleared
      have hin₂ : Inside within b₂ := Moves.keeps (fun _ _ => Inside.move) hm hin₁.cleared
      cases progressed with
      | false => exact hP₂
      | true => exact ih hP₂ hin₂

/-- **The rule of a layer search**: what every step keeps holds of the beam it ends with. -/
theorem searchLayer_keeps {seeds : List Nat} (hseeds : ∀ x ∈ seeds, within x) {ef : Nat}
    {tr : Traversal} (hnew : P (Beam.new ef tr)) :
    After (fun r => ∃ b, P b ∧ r = (b.results, b.tr))
      (h.searchLayer query seeds ef layer predicate tr) := by
  refine After.bind (seedBeam_moves hseeds _) fun b₁ hm => ?_
  have hin : Inside within b₁ := Moves.keeps (fun _ _ => Inside.move) hm ⟨nofun, nofun⟩
  refine After.bind (searchRounds_keeps hclosed K (h.n + 1) (Moves.keeps K.move hm hnew) hin) ?_
  intro b₂ hP
  exact ⟨b₂, hP, rfl⟩

end Rule

omit [Arith] in
/-- Nothing is outside of everything. -/
theorem closed_univ (h : Hnsw) (layer : Nat) : Closed h layer fun _ => True :=
  fun _ _ => (after_true _).mono fun _ _ _ _ => trivial

/-! ## The allowance -/

/-- An unfiltered layer search takes nothing from the allowance of expansions. -/
theorem searchLayer_unfiltered (h : Hnsw) (query : List F32) (seeds : List Nat) (ef layer : Nat)
    (tr : Traversal) :
    After (fun r => r.2.expansions = tr.expansions)
      (h.searchLayer query seeds ef layer none tr) := by
  have K : Steady h query none (fun _ => True) fun b => b.tr.expansions = tr.expansions := by
    refine ⟨fun b b' hm hb => ?_, fun _ _ _ _ hb => hb, fun _ _ _ _ _ hb => hb, fun _ _ hb => hb⟩
    cases hm with
    | queue => exact hb
    | skip => exact hb
    | route => exact hb
  refine (searchLayer_keeps (closed_univ h layer) K (fun _ _ => trivial) rfl).mono ?_
  rintro r ⟨b, hb, rfl⟩
  exact hb

/-! ## Sorted hits -/

/-- The hits are in order, and each carries its node's distance to the query. -/
def Ranked (h : Hnsw) (query : List F32) (b : Beam) : Prop :=
  b.results.Pairwise (· ≤ ·) ∧ ∀ c ∈ b.results, c = h.scored query c.id

theorem Ranked.move {b b' : Beam} (hm : Move h query predicate within b b')
    (hb : Ranked h query b) : Ranked h query b' := by
  have hpush : ∀ id, Ranked h query
      ((b.see id).push (h.scored query id) (h.admitted predicate id)) := by
    intro id
    obtain ⟨hsorted, hscored⟩ := hb
    have hinsert : (b.results.orderedInsert (· ≤ ·) (h.scored query id)).Pairwise (· ≤ ·) :=
      List.Pairwise.orderedInsert _ _ hsorted
    have hmem : ∀ c ∈ b.results.orderedInsert (· ≤ ·) (h.scored query id),
        c = h.scored query c.id := by
      intro c hc
      rcases (List.mem_orderedInsert (· ≤ ·)).mp hc with rfl | hc
      · rfl
      · exact hscored c hc
    cases hadm : h.admitted predicate id with
    | false => simpa [Ranked, Beam.push, Beam.see] using ⟨hsorted, hscored⟩
    | true =>
      simp only [Ranked, Beam.push, Beam.see, if_true, Bool.and_true, decide_eq_true_eq]
      split_ifs with hcut
      · exact ⟨hinsert.sublist (List.dropLast_sublist _),
          fun c hc => hmem c (List.dropLast_subset _ hc)⟩
      · exact ⟨hinsert, hmem⟩
  cases hm with
  | queue id => exact hpush id
  | route id => exact hpush id
  | skip => exact hb

/-- What a layer search returns is ranked. -/
theorem searchLayer_ranked (h : Hnsw) (query : List F32) (seeds : List Nat) (ef layer : Nat)
    (predicate : Option Predicate) (tr : Traversal) :
    After (fun r => r.1.Pairwise (· ≤ ·) ∧ ∀ c ∈ r.1, c = h.scored query c.id)
      (h.searchLayer query seeds ef layer predicate tr) := by
  have K : Steady h query predicate (fun _ => True) (Ranked h query) :=
    ⟨fun _ _ => Ranked.move, fun _ _ _ _ hb => hb, fun _ _ _ _ _ hb => hb, fun _ _ hb => hb⟩
  refine (searchLayer_keeps (closed_univ h layer) K (fun _ _ => trivial)
    ⟨List.Pairwise.nil, nofun⟩).mono ?_
  rintro r ⟨b, hb, rfl⟩
  exact hb

end Hnsw

end Brindle
