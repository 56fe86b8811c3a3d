/-
# Brindle.Hnsw.Oblivious — attribute rows do not influence the graph.

Only a predicate reads an attribute row, and nothing that changes a graph searches with one. So a
graph with other rows is changed the way the graph itself is, and keeps its other rows (the
`_withAttrs` equations); two histories of calls that differ in the rows they insert go through graphs
that differ in their rows, and give the same replies.
-/
import Brindle.Hnsw.Insert

namespace Brindle

open Outcome (index Alike alike_self)

namespace Hnsw

/-- The graph with other attribute rows. -/
def withAttrs (h : Hnsw) (rows : List (List AttrValue)) : Hnsw := { h with attrs := rows }

section Equations

variable [Arith] (h : Hnsw) (rows : List (List AttrValue))

/-! ## Searching without a predicate -/

theorem expand_withAttrs (query : List F32) (layer : Nat) (beam : Beam) (id : Nat) :
    (h.withAttrs rows).expand query layer none beam id = h.expand query layer none beam id := rfl

theorem seedBeam_withAttrs (query : List F32) (entryPoints : List Nat) (beam : Beam) :
    (h.withAttrs rows).seedBeam query none entryPoints beam =
      h.seedBeam query none entryPoints beam := rfl

theorem walkFrontier_withAttrs (query : List F32) (layer fuel : Nat) (beam : Beam) :
    (h.withAttrs rows).walkFrontier query layer none fuel beam =
      h.walkFrontier query layer none fuel beam := by
  induction fuel generalizing beam with
  | zero => rfl
  | succ fuel ih =>
    rw [walkFrontier.eq_def, walkFrontier.eq_def h]
    simp only [expand_withAttrs, ih]

theorem searchRounds_withAttrs (query : List F32) (layer rounds : Nat) (beam : Beam) :
    (h.withAttrs rows).searchRounds query layer none rounds beam =
      h.searchRounds query layer none rounds beam := by
  have hrescue : ∀ deferred beam, (h.withAttrs rows).rescue query layer none deferred beam =
      h.rescue query layer none deferred beam := fun _ _ => rfl
  have hn : (h.withAttrs rows).n = h.n := rfl
  induction rounds generalizing beam with
  | zero => rfl
  | succ rounds ih =>
    rw [searchRounds.eq_def, searchRounds.eq_def h]
    simp only [walkFrontier_withAttrs, hrescue, hn, ih]

theorem searchLayer_withAttrs (query : List F32) (entryPoints : List Nat) (ef layer : Nat)
    (tr : Traversal) :
    (h.withAttrs rows).searchLayer query entryPoints ef layer none tr =
      h.searchLayer query entryPoints ef layer none tr := by
  have hn : (h.withAttrs rows).n = h.n := rfl
  simp only [searchLayer, seedBeam_withAttrs, searchRounds_withAttrs, hn]

/-- **Unfiltered search** answers alike. -/
theorem search_withAttrs (query : List F32) (k efSearch : Nat) :
    (h.withAttrs rows).search query k efSearch = h.search query k efSearch := by
  have hentry : (h.withAttrs rows).entryPoint = h.entryPoint := rfl
  have hdim : (h.withAttrs rows).dim = h.dim := rfl
  have htop : (h.withAttrs rows).maxLayer = h.maxLayer := rfl
  simp only [search, searchInner, descend, searchLayer_withAttrs, hentry, hdim, htop]

/-! ## Linking -/

theorem keepsDiversity_withAttrs (cand : Cand) (selected : List Nat) :
    (h.withAttrs rows).keepsDiversity cand selected = h.keepsDiversity cand selected := by
  have hvector : (h.withAttrs rows).vector = h.vector := rfl
  have hdistance : (h.withAttrs rows).distance = h.distance := rfl
  induction selected with
  | nil => rfl
  | cons r selected ih => simp only [keepsDiversity, hvector, hdistance, ih]

theorem selectDiverse_withAttrs (m : Nat) (cands : List Cand) (selected : List Nat) :
    (h.withAttrs rows).selectDiverse m cands selected = h.selectDiverse m cands selected := by
  induction cands generalizing selected with
  | nil => rfl
  | cons cand rest ih => simp only [selectDiverse, keepsDiversity_withAttrs, ih]

theorem selectNeighborsHeuristic_withAttrs (candidates : List Cand) (m : Nat) :
    (h.withAttrs rows).selectNeighborsHeuristic candidates m =
      h.selectNeighborsHeuristic candidates m := by
  simp only [selectNeighborsHeuristic, selectDiverse_withAttrs]

omit [Arith] in
theorem copyIntoLinks_withAttrs (start : Nat) (ids : List Nat) :
    (h.withAttrs rows).copyIntoLinks start ids =
      (withAttrs · rows) <$> h.copyIntoLinks start ids := by
  unfold copyIntoLinks
  rw [map_bind]
  rfl

omit [Arith] in
theorem storeCount_withAttrs (idx count : Nat) :
    (h.withAttrs rows).storeCount idx count = (withAttrs · rows) <$> h.storeCount idx count := by
  unfold storeCount
  show (if idx < h.linkCounts.length then _ else _) = _
  split_ifs <;> rfl

omit [Arith] in
theorem setNeighbors_withAttrs (id layer : Nat) (ids : List Nat) :
    (h.withAttrs rows).setNeighbors id layer ids =
      (withAttrs · rows) <$> h.setNeighbors id layer ids := by
  have hslot : (h.withAttrs rows).layerSlot id layer = h.layerSlot id layer := rfl
  have hbase : ∀ g : Hnsw, (g.withAttrs rows).layerBase = g.layerBase := fun _ => rfl
  simp only [setNeighbors, hslot, copyIntoLinks_withAttrs, map_bind, bind_map_left, hbase,
    storeCount_withAttrs]

omit [Arith] in
theorem pushNeighbor_withAttrs (id layer neighbor : Nat) :
    (h.withAttrs rows).pushNeighbor id layer neighbor =
      (fun r => (r.1.withAttrs rows, r.2)) <$> h.pushNeighbor id layer neighbor := by
  have hslot : (h.withAttrs rows).layerSlot id layer = h.layerSlot id layer := rfl
  have hbase : (h.withAttrs rows).layerBase = h.layerBase := rfl
  have hcounts : (h.withAttrs rows).linkCounts = h.linkCounts := rfl
  simp only [pushNeighbor, hslot, hbase, hcounts, copyIntoLinks_withAttrs, storeCount_withAttrs,
    map_bind, bind_map_left, map_pure]

theorem linkBack_withAttrs (id lc n : Nat) :
    (h.withAttrs rows).linkBack id lc n = (withAttrs · rows) <$> h.linkBack id lc n := by
  have hdegree : ∀ g : Hnsw, (g.withAttrs rows).maxDegree = g.maxDegree := fun _ => rfl
  have hvector : ∀ g : Hnsw, (g.withAttrs rows).vector = g.vector := fun _ => rfl
  have hneighbors : ∀ g : Hnsw, (g.withAttrs rows).neighbors = g.neighbors := fun _ => rfl
  have hscore : ∀ g : Hnsw, (g.withAttrs rows).scoreAgainst = g.scoreAgainst := fun _ => rfl
  unfold linkBack
  rw [pushNeighbor_withAttrs, bind_map_left, map_bind]
  refine bind_congr fun r => ?_
  simp only [hdegree, hvector, hneighbors, hscore, selectNeighborsHeuristic_withAttrs,
    setNeighbors_withAttrs]
  split_ifs
  · rfl
  · simp only [map_bind]

theorem connectLayer_withAttrs (query : List F32) (id lc : Nat) (epIds : List Nat)
    (tr : Traversal) :
    (h.withAttrs rows).connectLayer query id lc epIds tr =
      (fun r => (r.1.withAttrs rows, r.2)) <$> h.connectLayer query id lc epIds tr := by
  have hdegree : (h.withAttrs rows).maxDegree = h.maxDegree := rfl
  have hef : (h.withAttrs rows).efConstruction = h.efConstruction := rfl
  have hloop : ∀ (selected : List Nat) (g : Hnsw),
      selected.foldlM (fun g n => g.linkBack id lc n) (g.withAttrs rows) =
        (withAttrs · rows) <$> selected.foldlM (fun g n => g.linkBack id lc n) g :=
    fun selected g => (Outcome.map_foldlM (withAttrs · rows)
      (fun g n => (linkBack_withAttrs g rows id lc n).symm) selected g).symm
  simp only [connectLayer, hdegree, hef, searchLayer_withAttrs, selectNeighborsHeuristic_withAttrs,
    setNeighbors_withAttrs, map_bind, bind_map_left, hloop, map_pure]

theorem connectLayers_withAttrs (query : List F32) (id entry : Nat) (layers epIds : List Nat)
    (tr : Traversal) :
    (h.withAttrs rows).connectLayers query id entry layers epIds tr =
      (fun r => (r.1.withAttrs rows, r.2)) <$> h.connectLayers query id entry layers epIds tr := by
  unfold connectLayers
  refine (Outcome.map_foldlM (fun r : Hnsw × List Nat × Traversal => (r.1.withAttrs rows, r.2))
    (fun r lc => ?_) layers (h, epIds, tr)).symm
  obtain ⟨g, eps, tr'⟩ := r
  simp only [connectLayer_withAttrs, map_bind, bind_map_left, map_pure]

theorem linkNode_withAttrs (id level : Nat) :
    (h.withAttrs rows).linkNode id level = (withAttrs · rows) <$> h.linkNode id level := by
  have hvector : (h.withAttrs rows).vector = h.vector := rfl
  have htop : ∀ g : Hnsw, (g.withAttrs rows).maxLayer = g.maxLayer := fun _ => rfl
  have hdescent : ∀ query layers epIds tr,
      (h.withAttrs rows).greedyDescent query layers epIds tr =
        h.greedyDescent query layers epIds tr := by
    intro query layers epIds tr
    simp only [greedyDescent, searchLayer_withAttrs]
  have hentry : (h.withAttrs rows).entryPoint = h.entryPoint := rfl
  unfold linkNode
  rw [hentry]
  cases h.entryPoint with
  | none => rfl
  | some entry =>
    simp only [hvector, htop, hdescent, connectLayers_withAttrs, map_bind, bind_map_left]
    refine bind_congr fun query => bind_congr fun r => bind_congr fun s => ?_
    split_ifs <;> rfl

end Equations

/-! ## One call -/

/-- The graphs agree on everything but what their attribute rows hold. -/
def SameButAttrs (h h' : Hnsw) : Prop :=
  ∃ rows, h' = h.withAttrs rows ∧ rows.length = h.attrs.length

/-- A call that changes the graph. -/
inductive Call where
  | insert (vector : List F32) (attrs : List AttrValue)
  | delete (id : Nat)
  | compact
  deriving DecidableEq, Repr

/-- What a call returns. -/
inductive Reply where
  | inserted (id : Except HnswError Nat)
  | deleted (done : Except HnswError Unit)
  | compacted (count : Except HnswError Nat)
  deriving DecidableEq, Repr

/-- The same call, with other attributes if it inserts. -/
inductive Call.Alike : Call → Call → Prop where
  | insert (vector : List F32) (attrs attrs' : List AttrValue) :
      Call.Alike (.insert vector attrs) (.insert vector attrs')
  | delete (id : Nat) : Call.Alike (.delete id) (.delete id)
  | compact : Call.Alike .compact .compact

section Calls

variable [Arith]

/-- Carry out one call. A refused delete or compaction leaves the graph as it was. -/
def call (h : Hnsw) : Call → Outcome HnswError (Hnsw × Reply)
  | .insert vector attrs => do
    let (h, id) ← h.insertWithAttrs vector attrs
    return (h, .inserted id)
  | .delete id =>
    match h.delete id with
    | .ok h => return (h, .deleted (.ok ()))
    | .error e => return (h, .deleted (.error e))
  | .compact =>
    match h.compact with
    | .ok (fresh, count) => return (fresh, .compacted (.ok count))
    | .error (.error e) => return (h, .compacted (.error e))
    | .error fault => .error fault

/-- One call after another, with the replies in order. -/
def calls (h : Hnsw) (cs : List Call) : Outcome HnswError (Hnsw × List Reply) :=
  cs.foldlM (fun (h, replies) c => do
    let (h, reply) ← h.call c
    return (h, replies ++ [reply])) (h, [])

/-- Related graphs, and the same reply. -/
def SameReply {α : Type} (r r' : Hnsw × α) : Prop := SameButAttrs r.1 r'.1 ∧ r.2 = r'.2

omit [Arith] in
/-- A stored node brings its own row; the others stay. -/
theorem pushNode_withAttrs (h : Hnsw) (rows : List (List AttrValue)) (vector : List F32)
    (attrs attrs' : List AttrValue) (levels : Nat) :
    (h.withAttrs rows).pushNode vector attrs' levels =
      (fun r => (r.1.withAttrs (rows ++ [attrs']), r.2)) <$> h.pushNode vector attrs levels := by
  have hn : (h.withAttrs rows).n = h.n := rfl
  have hbase : (h.withAttrs rows).layerBase = h.layerBase := rfl
  unfold pushNode
  simp only [hn, hbase]
  split_ifs
  · rfl
  · simp only [map_bind, map_pure]
    rfl

omit [Arith] in
theorem pushNode_attrs {h g : Hnsw} {vector : List F32} {attrs : List AttrValue} {levels id : Nat}
    (hpush : h.pushNode vector attrs levels = .ok (g, id)) : g.attrs = h.attrs ++ [attrs] := by
  unfold pushNode at hpush
  split at hpush
  · cases hpush
  · obtain ⟨base, -, hpush⟩ := Outcome.bind_eq_ok.mp hpush
    cases hpush
    rfl

/-- Linking leaves the rows alone. -/
theorem linkNode_attrs {h g : Hnsw} {id level : Nat} (hlink : h.linkNode id level = .ok g) :
    g.attrs = h.attrs := by
  have hself := linkNode_withAttrs h h.attrs id level
  have hown : h.withAttrs h.attrs = h := rfl
  rw [hown, hlink] at hself
  have heq : g = g.withAttrs h.attrs := Except.ok.inj hself
  rw [heq]
  rfl

theorem storeAndLink_sameReply {h h' : Hnsw} (hsame : SameButAttrs h h') (vector : List F32)
    (attrs attrs' : List AttrValue) (level : Nat) :
    Alike SameReply (h.storeAndLink vector attrs level) (h'.storeAndLink vector attrs' level) := by
  obtain ⟨rows, rfl, hlen⟩ := hsame
  unfold storeAndLink
  rw [pushNode_withAttrs h rows vector attrs attrs']
  cases hpush : h.pushNode vector attrs (level + 1) with
  | error fault =>
    cases fault with
    | error e =>
      -- a refusal is a reply, and leaves both graphs as they were
      exact .ok ⟨⟨rows, rfl, hlen⟩, rfl⟩
    | panic => exact .error _
    | fuel => exact .error _
  | ok r =>
    obtain ⟨g, id⟩ := r
    have hrows : (rows ++ [attrs']).length = g.attrs.length := by
      rw [pushNode_attrs hpush, List.length_append, List.length_append, hlen]
      rfl
    have hlinked := linkNode_withAttrs g (rows ++ [attrs']) id level
    show Alike SameReply (g.linkNode id level >>= fun h => pure (h, (Except.ok id : Except _ _)))
      ((g.withAttrs (rows ++ [attrs'])).linkNode id level >>= fun h => pure (h, Except.ok id))
    rw [hlinked]
    cases hlink : g.linkNode id level with
    | error fault => exact .error fault
    | ok g' =>
      refine .ok ⟨⟨rows ++ [attrs'], rfl, ?_⟩, rfl⟩
      rw [linkNode_attrs hlink]
      exact hrows

theorem insertWithAttrs_sameReply {h h' : Hnsw} (hsame : SameButAttrs h h') (vector : List F32)
    (attrs attrs' : List AttrValue) :
    Alike SameReply (h.insertWithAttrs vector attrs) (h'.insertWithAttrs vector attrs') := by
  obtain ⟨rows, rfl, hlen⟩ := hsame
  have haccept : (h.withAttrs rows).acceptVector vector =
      (withAttrs · rows) <$> h.acceptVector vector := by
    unfold acceptVector
    have hdim : (h.withAttrs rows).dim = h.dim := rfl
    rw [hdim]
    split_ifs <;> rfl
  unfold insertWithAttrs
  rw [haccept]
  cases hv : h.acceptVector vector with
  | error e => exact .ok ⟨⟨rows, rfl, hlen⟩, rfl⟩
  | ok g =>
    have hattrs : g.attrs = h.attrs := by
      unfold acceptVector at hv
      split_ifs at hv <;> cases hv <;> rfl
    exact storeAndLink_sameReply (h := { g with rng := xorshift64 g.rng })
      ⟨rows, rfl, hlen.trans (congrArg List.length hattrs).symm⟩ vector attrs attrs' _

/-! ## Compaction -/

/-- Rows with the same vectors. -/
def SameVectors : List (List F32 × List AttrValue) → List (List F32 × List AttrValue) → Prop :=
  List.Forall₂ fun row row' => row.1 = row'.1

omit [Arith] in
/-- Two reads of arrays of one length fault alike. -/
theorem index_alike {α β : Type} {xs : List α} {ys : List β} (hlen : ys.length = xs.length)
    (i : Nat) :
    Alike (fun _ _ => True) (index xs i : Outcome HnswError α) (index ys i : Outcome HnswError β) := by
  unfold index
  by_cases hi : i < xs.length
  · rw [List.getElem?_eq_getElem hi, List.getElem?_eq_getElem (hlen.symm ▸ hi)]
    exact .ok trivial
  · rw [List.getElem?_eq_none (Nat.le_of_not_lt hi),
      List.getElem?_eq_none (hlen.trans_le (Nat.le_of_not_lt hi))]
    exact .error _

omit [Arith] in
theorem liveRows_alike {h h' : Hnsw} (hsame : SameButAttrs h h') :
    Alike SameVectors h.liveRows h'.liveRows := by
  obtain ⟨rows, rfl, hlen⟩ := hsame
  unfold liveRows
  refine Alike.foldlM (R := Eq) ?_ (List.forall₂_refl _) List.Forall₂.nil
  rintro live live' id _ hlive rfl
  refine (alike_self (index h.deleted id)).bind ?_
  rintro deleted _ rfl
  split_ifs
  · exact .ok hlive
  · refine (alike_self (h.vector id)).bind ?_
    rintro vector _ rfl
    refine (index_alike hlen id).bind fun attrs attrs' _ => .ok ?_
    exact List.rel_append hlive (.cons rfl .nil)

theorem compact_alike {h h' : Hnsw} (hsame : SameButAttrs h h') :
    Alike SameReply h.compact h'.compact := by
  have hparams : h'.rebuildParams = h.rebuildParams := by
    obtain ⟨rows, rfl, -⟩ := hsame
    rfl
  unfold compact
  rw [hparams]
  refine (liveRows_alike hsame).bind fun live live' hlive => ?_
  have hempty : SameButAttrs (new h.rebuildParams) (new h.rebuildParams) := ⟨[], rfl, rfl⟩
  refine Alike.bind (P := SameButAttrs) (Alike.foldlM ?_ hlive hempty) ?_
  · -- the rows are inserted again, each with the attributes it had
    rintro fresh fresh' ⟨vector, attrs⟩ ⟨_, attrs'⟩ hfresh rfl
    refine (insertWithAttrs_sameReply hfresh vector attrs attrs').bind ?_
    rintro ⟨g, r⟩ ⟨g', _⟩ ⟨hg, rfl⟩
    cases r with
    | ok id => exact .ok hg
    | error e => exact .error _
  · rintro fresh _ ⟨rows, rfl, hlen⟩
    exact .ok ⟨⟨rows, rfl, hlen⟩, rfl⟩

/-! ## Histories -/

theorem call_sameReply {h h' : Hnsw} (hsame : SameButAttrs h h') {c c' : Call}
    (hc : Call.Alike c c') : Alike SameReply (h.call c) (h'.call c') := by
  cases hc with
  | insert vector attrs attrs' =>
    refine (insertWithAttrs_sameReply hsame vector attrs attrs').bind ?_
    rintro ⟨g, id⟩ ⟨g', _⟩ ⟨hg, rfl⟩
    exact .ok ⟨hg, rfl⟩
  | delete id =>
    obtain ⟨rows, rfl, hlen⟩ := hsame
    have hdelete : (h.withAttrs rows).delete id = (withAttrs · rows) <$> h.delete id := by
      unfold delete
      show (if id ≥ h.deleted.length then _ else _) = _
      split_ifs <;> rfl
    simp only [call, hdelete]
    cases hdel : h.delete id with
    | error e => exact .ok ⟨⟨rows, rfl, hlen⟩, rfl⟩
    | ok g =>
      refine .ok ⟨⟨rows, rfl, ?_⟩, rfl⟩
      unfold delete at hdel
      split_ifs at hdel
      cases hdel
      exact hlen
  | compact =>
    have hcompact := compact_alike hsame
    simp only [call]
    generalize h.compact = run, h'.compact = run' at hcompact
    cases hcompact with
    | error fault => cases fault with
      | error e => exact .ok ⟨hsame, rfl⟩
      | panic => exact .error _
      | fuel => exact .error _
    | ok hr =>
      obtain ⟨hgraph, hcount⟩ := hr
      exact .ok ⟨hgraph, congrArg (fun count => Reply.compacted (.ok count)) hcount⟩

/-- **Histories from a new graph.** Two runs of the same calls, whatever rows they insert, end in
graphs that differ in their rows only, having given the same replies and answering every unfiltered
search alike; where one of them faults, so does the other. -/
theorem calls_oblivious (params : HnswParams) (cs cs' : List Call)
    (hcalls : List.Forall₂ Call.Alike cs cs') :
    Alike (fun r r' => SameButAttrs r.1 r'.1 ∧ r'.2 = r.2 ∧
        ∀ query k efSearch, r'.1.search query k efSearch = r.1.search query k efSearch)
      ((new params).calls cs) ((new params).calls cs') := by
  have hrun : Alike SameReply ((new params).calls cs) ((new params).calls cs') := by
    unfold calls
    refine Alike.foldlM ?_ hcalls ⟨⟨[], rfl, rfl⟩, rfl⟩
    rintro ⟨h, replies⟩ ⟨h', _⟩ c c' ⟨hsame, rfl⟩ hc
    refine (call_sameReply hsame hc).bind ?_
    rintro ⟨g, reply⟩ ⟨g', _⟩ ⟨hg, rfl⟩
    exact .ok ⟨hg, rfl⟩
  refine hrun.imp fun r r' ⟨hsame, hreplies⟩ => ⟨hsame, hreplies.symm, ?_⟩
  intro query k efSearch
  obtain ⟨rows, hrows, -⟩ := hsame
  rw [hrows]
  exact search_withAttrs r.1 rows query k efSearch

omit [Arith] in
/-- Two vectors inserted with other rows, one deleted, and a compaction. -/
theorem calls_oblivious_pair :
    ∃ r r',
      @calls Arith.ieee (@new Arith.ieee .default)
        [.insert [F32.one] [], .insert [F32.zero] [.null], .delete 0, .compact] = .ok r ∧
      @calls Arith.ieee (@new Arith.ieee .default)
        [.insert [F32.one] [.null], .insert [F32.zero] [], .delete 0, .compact] = .ok r' ∧
      r.1.attrs = [[.null]] ∧ r'.1.attrs = [[]] ∧ SameButAttrs r.1 r'.1 ∧ r'.2 = r.2 := by
  have halike := @calls_oblivious Arith.ieee .default
    [.insert [F32.one] [], .insert [F32.zero] [.null], .delete 0, .compact]
    [.insert [F32.one] [.null], .insert [F32.zero] [], .delete 0, .compact]
    (.cons (.insert _ _ _) (.cons (.insert _ _ _) (.cons (.delete 0) (.cons .compact .nil))))
  have hrows : Outcome.Ensures (@calls Arith.ieee (@new Arith.ieee .default)
      [.insert [F32.one] [], .insert [F32.zero] [.null], .delete 0, .compact])
      (·.1.attrs = [[.null]]) := by
    decide +kernel
  have hrows' : Outcome.Ensures (@calls Arith.ieee (@new Arith.ieee .default)
      [.insert [F32.one] [.null], .insert [F32.zero] [], .delete 0, .compact])
      (·.1.attrs = [[]]) := by
    decide +kernel
  obtain ⟨r, hr, hattrs⟩ := hrows
  obtain ⟨r', hr', hattrs'⟩ := hrows'
  rw [hr, hr'] at halike
  cases halike with
  | ok h => exact ⟨r, r', hr, hr', hattrs, hattrs', h.1, h.2.1⟩

end Calls

end Hnsw

end Brindle
