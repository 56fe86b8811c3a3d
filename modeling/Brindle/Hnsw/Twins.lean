/-
# Brindle.Hnsw.Twins — graphs that differ in unused slots only.

Two graphs are twins when they have the same shell and the same lists: whatever differs lies past a
live count. Every operation gives equal results on twins and leaves twins behind. For the reads that
is the congruence of the layer search; for the writes it is that each one settles the contents of
the list it writes from what twins share.
-/
import Brindle.Hnsw.Configured

namespace Brindle

open Outcome (Ensures ensures_ok ensures_pure)

namespace Hnsw

/-- The same graph up to the contents of unused slots. -/
def Twins (h g : Hnsw) : Prop := Relinked (fun _ _ => False) h g

namespace Twins

variable {h g : Hnsw}

theorem refl (L : Layout h) : Twins h h := Relinked.refl L

theorem nbrs_eq (T : Twins h g) (a l : Nat) : g.nbrs a l = h.nbrs a l := T.frame a l not_false

/-- Writing the same lists keeps graphs twins. -/
theorem relinked {touched : Nat → Nat → Prop} {h' g' : Hnsw} (T : Twins h g)
    (R : Relinked touched h h') (R' : Relinked touched g g')
    (hsame : ∀ a l, touched a l → g'.nbrs a l = h'.nbrs a l) : Twins h' g' where
  shell := by
    rw [R'.shell, T.shell, R.shell]
    rfl
  layout := R'.layout
  frame a l _ := by
    by_cases ht : touched a l
    · exact hsame a l ht
    · rw [R'.frame a l ht, R.frame a l ht, T.nbrs_eq]

theorem inRange (T : Twins h g) (H : InRange h) : InRange g :=
  H.relinked T fun _ _ hf => hf.elim

theorem wellFormed (T : Twins h g) (W : WellFormed h) : WellFormed g where
  toInRange := T.inRange W.toInRange
  capped a l := by
    rw [T.nbrs_eq, T.maxDegree_eq]
    exact W.capped a l
  dim_pos := by
    rw [T.n_eq, T.dim_eq]
    exact W.dim_pos
  dim_le := by
    rw [T.dim_eq]
    exact W.dim_le
  entry_lt := by
    rw [T.entryPoint_eq, T.n_eq]
    exact W.entry_lt
  nodup a l := by
    rw [T.nbrs_eq]
    exact W.nodup a l
  irrefl a l := by
    rw [T.nbrs_eq]
    exact W.irrefl a l
  owned a l x hx := by
    rw [T.nbrs_eq] at hx
    exact (T.owns_iff x l).mpr (W.owned a l x hx)
  empty := by
    rw [T.n_eq, T.entryPoint_eq, T.maxLayer_eq]
    exact W.empty
  entry := by
    simp only [T.n_eq, T.entryPoint_eq, T.levelsOf_eq, T.maxLayer_eq]
    exact W.entry
  top := by
    simp only [T.n_eq, T.levelsOf_eq, T.maxLayer_eq]
    exact W.top

theorem sameAt [Arith] (T : Twins h g) (L : Layout h) (layer : Nat) : SameAt layer h g :=
  Relinked.sameAt T L fun _ => not_false

end Twins

/-- Both return, and return twins. -/
def BothTwins (x y : Outcome HnswError Hnsw) : Prop :=
  ∃ h g, x = .ok h ∧ y = .ok g ∧ Twins h g

theorem BothTwins.bind {x y : Outcome HnswError Hnsw} {f f' : Hnsw → Outcome HnswError Hnsw}
    {P : Hnsw → Prop} (hx : Ensures x P) (hxy : BothTwins x y)
    (hf : ∀ h g, P h → Twins h g → BothTwins (f h) (f' g)) : BothTwins (x >>= f) (y >>= f') := by
  obtain ⟨h, g, rfl, rfl, T⟩ := hxy
  exact hf h g (Outcome.ensures_ok.mp hx) T

/-! ## Writing the links -/

section Links

variable {h g : Hnsw}

theorem Twins.setNeighbors (T : Twins h g) (L : Layout h) {id layer : Nat} {ids : List Nat}
    (ho : h.Owns id layer) (hfit : ids.length ≤ h.slotWidth layer) :
    BothTwins (h.setNeighbors id layer ids) (g.setNeighbors id layer ids) := by
  obtain ⟨h', hrun, R, hnbrs⟩ := L.setNeighbors_spec ho hfit
  obtain ⟨g', hrun', R', hnbrs'⟩ := T.layout.setNeighbors_spec ((T.owns_iff id layer).mpr ho)
    (by rw [T.slotWidth_eq]; exact hfit)
  refine ⟨h', g', hrun, hrun', T.relinked R R' ?_⟩
  rintro a l ⟨rfl, rfl⟩
  rw [hnbrs, hnbrs']

variable [Arith]

/-- Where a list is pruned, the nodes kept are chosen from what twins share. -/
theorem Twins.linkBack (T : Twins h g) (H : InRange h) {id lc n : Nat} (ho : h.Owns n lc)
    (hid : id < h.n) (hcap : (h.nbrs n lc).length ≤ h.maxDegree lc) :
    BothTwins (h.linkBack id lc n) (g.linkBack id lc n) := by
  have ho' : g.Owns n lc := (T.owns_iff n lc).mpr ho
  have hid' : id < g.n := by rw [T.n_eq]; exact hid
  have hcap' : (g.nbrs n lc).length ≤ g.maxDegree lc := by
    rw [T.nbrs_eq, T.maxDegree_eq]
    exact hcap
  obtain ⟨⟨h₁, len⟩, hpush, R, H₁, hlen, hnbrs⟩ := pushBack_spec H ho hid hcap
  obtain ⟨⟨g₁, len'⟩, hpush', R', -, hlen', hnbrs'⟩ :=
    pushBack_spec (T.inRange H) ho' hid' hcap'
  dsimp only at R H₁ hlen hnbrs R' hlen' hnbrs'
  have T₁ : Twins h₁ g₁ := by
    refine T.relinked R R' ?_
    rintro a l ⟨rfl, rfl⟩
    rw [hnbrs', hnbrs, T.nbrs_eq]
  rw [T.nbrs_eq, ← hlen] at hlen'
  subst hlen'
  rw [linkBack_eq, linkBack_eq]
  simp only [hpush, hpush', Outcome.ok_bind, T₁.maxDegree_eq]
  split_ifs with hfits
  · exact ⟨h₁, g₁, rfl, rfl, T₁⟩
  · have S := T₁.sameAt R.layout lc
    have hkept : g₁.kept lc n = h₁.kept lc n := by
      simp only [kept, S.vector_eq, S.neighbors_eq, S.scoreAgainst_eq,
        S.selectNeighborsHeuristic_eq, T₁.maxDegree_eq]
    obtain ⟨kept, hrun, -, hle, -⟩ := kept_spec H₁ (R.n_eq ▸ ho.1)
    rw [hkept, hrun]
    refine T₁.setNeighbors R.layout ((R.owns_iff n lc).mpr ho) ?_
    rw [List.length_map]
    exact hle.trans (Nat.le_succ _)

/-- The reverse edges of one layer. -/
theorem Twins.linkBacks {id lc : Nat} {selected : List Nat} (T : Twins h g) (H : InRange h)
    (hid : id < h.n) (hcap : ∀ a, (h.nbrs a lc).length ≤ h.maxDegree lc)
    (hown : ∀ x ∈ selected, h.Owns x lc) :
    BothTwins (selected.foldlM (fun h n => h.linkBack id lc n) h)
      (selected.foldlM (fun h n => h.linkBack id lc n) g) := by
  induction selected generalizing h g with
  | nil => exact ⟨h, g, rfl, rfl, T⟩
  | cons n selected ih =>
    have ho := hown n List.mem_cons_self
    simp only [List.foldlM_cons]
    refine BothTwins.bind (linkBack_spec H ho hid (hcap n)) (T.linkBack H ho hid (hcap n)) ?_
    rintro h' g' ⟨R, hgain⟩ T'
    have H' : InRange h' := by
      refine H.relinked R ?_
      rintro a l ⟨rfl, rfl⟩ x hx
      rcases hgain.sub x hx with rfl | hx
      · exact hid
      · exact H.links_lt a l x hx
    refine ih T' H' (R.n_eq ▸ hid) (fun a => ?_)
      fun x hx => (R.owns_iff x lc).mpr (hown x (List.mem_cons_of_mem _ hx))
    rw [R.maxDegree_eq]
    by_cases ha : a = n
    · rw [ha]
      exact hgain.capped
    · rw [R.frame a lc fun ht => ha ht.1]
      exact hcap a

theorem Twins.joinLayer {id lc : Nat} {selected : List Nat} (T : Twins h g) (H : InRange h)
    (hcap : ∀ a, (h.nbrs a lc).length ≤ h.maxDegree lc) (hid : h.Owns id lc)
    (hsel : Choice h lc selected) (hown : ∀ x ∈ selected, h.Owns x lc) :
    BothTwins (h.joinLayer id lc selected) (g.joinLayer id lc selected) := by
  have hlt : ∀ x ∈ selected, x < h.n := fun x hx => (hown x hx).1
  have hfit : (selected.map asU32).length ≤ h.slotWidth lc := by
    rw [List.length_map]
    exact hsel.length_le.trans (Nat.le_succ _)
  unfold Hnsw.joinLayer
  refine BothTwins.bind (H.setNeighbors_spec hid hfit) (T.setNeighbors H.toLayout hid hfit) ?_
  rintro h' g' ⟨R, hnbrs⟩ T'
  have hsub : ∀ x ∈ h'.nbrs id lc, x ∈ selected := by
    intro x hx
    rw [hnbrs, H.map_asU32 hlt] at hx
    exact List.mem_of_mem_take hx
  have H' : InRange h' := by
    refine H.relinked R ?_
    rintro a l ⟨rfl, rfl⟩ x hx
    exact hlt x (hsub x hx)
  refine T'.linkBacks H' (R.n_eq ▸ hid.1) (fun a => ?_)
    fun x hx => (R.owns_iff x lc).mpr (hown x hx)
  rw [R.maxDegree_eq]
  by_cases ha : a = id
  · rw [ha, hnbrs, List.length_take, List.length_map]
    exact (Nat.min_le_right _ _).trans hsel.length_le
  · rw [R.frame a lc fun ht => ha ht.1]
    exact hcap a

/-- Carrying out the plan of `h` on twins that differ from `h` only at layers already done. -/
theorem Twins.connectLayers {t : Nat → Nat → Prop} {k : Hnsw} (H : InRange h) (hcap : Capped h)
    (R : Relinked t h g) (G : InRange g) (T : Twins g k) {query : List F32} {id entry : Nat}
    {layers epIds : List Nat} {tr : Traversal} {plan : List (Nat × List Nat)}
    (ht : ∀ l ∈ layers, ∀ a, ¬ t a l) (hnd : layers.Nodup) (hid : ∀ l ∈ layers, h.Owns id l)
    (hplan : h.planLayers query entry layers epIds tr = .ok plan) (hok : PlanOk h id plan) :
    ∃ r r', g.connectLayers query id entry layers epIds tr = .ok r ∧
      k.connectLayers query id entry layers epIds tr = .ok r' ∧ Twins r.1 r'.1 := by
  induction layers generalizing t g k epIds tr plan with
  | nil => exact ⟨_, _, rfl, rfl, T⟩
  | cons lc rest ih =>
    have hlc : ∀ a, ¬ t a lc := ht lc List.mem_cons_self
    obtain ⟨selected, w, tr', plan', X⟩ := planLayers_head H.toLayout R hlc hplan hok
    have hidg : g.Owns id lc := (R.owns_iff id lc).mpr (hid lc List.mem_cons_self)
    have hroom : ∀ a, (g.nbrs a lc).length ≤ g.maxDegree lc := by
      intro a
      rw [R.frame a lc (hlc a), R.maxDegree_eq]
      exact hcap a lc
    have S := T.sameAt G.toLayout lc
    have hchosen : k.chosen query lc epIds tr = .ok (selected, w, tr') := by
      rw [← X.run]
      simp only [chosen, S.searchLayer_eq, S.selectNeighborsHeuristic_eq, T.efConstruction_eq,
        T.maxDegree_eq]
    obtain ⟨g₁, hjoin, J⟩ := joinLayer_spec G hroom hidg X.choice X.fresh X.owned
    obtain ⟨g', k₁, hjoin', hjoin'', T₁⟩ := T.joinLayer G hroom hidg X.choice X.owned
    rw [hjoin] at hjoin'
    cases hjoin'
    have hnd' := List.nodup_cons.mp hnd
    obtain ⟨R₁, ht₁⟩ := J.advance R ht hnd'.1
    have G₁ := J.inRange G hidg.1 fun x hx => (X.owned x hx).1
    rw [connectLayers_cons, connectLayers_cons, X.run, hchosen, Outcome.ok_bind, Outcome.ok_bind]
    simp only [hjoin, hjoin'', Outcome.ok_bind]
    exact ih R₁ G₁ T₁ ht₁ hnd'.2 (fun l hl => hid l (List.mem_cons_of_mem _ hl)) X.tail_run X.tail_ok

/-! ## Searching -/

theorem Twins.searchLayer_eq (T : Twins h g) (L : Layout h) (query : List F32)
    (seeds : List Nat) (ef layer : Nat) (predicate : Option Predicate) (tr : Traversal) :
    g.searchLayer query seeds ef layer predicate tr =
      h.searchLayer query seeds ef layer predicate tr :=
  (T.sameAt L layer).searchLayer_eq query seeds ef predicate tr

theorem Twins.searchInner_eq (T : Twins h g) (L : Layout h) (query : List F32) (k ef : Nat)
    (predicate : Option Predicate) :
    g.searchInner query k ef predicate = h.searchInner query k ef predicate := by
  simp only [searchInner, descend, T.entryPoint_eq, T.dim_eq, T.maxLayer_eq, T.searchLayer_eq L]

/-- Whatever reads no link reads the same. -/
theorem Twins.scans_eq (T : Twins h g) : g.matching = h.matching ∧ g.bruteForce = h.bruteForce ∧
    g.liveRows = h.liveRows ∧ g.rebuildParams = h.rebuildParams ∧ g.drawnLevel = h.drawnLevel :=
  ⟨T.field Hnsw.matching fun _ _ => rfl, T.field Hnsw.bruteForce fun _ _ => rfl,
    T.field Hnsw.liveRows fun _ _ => rfl, T.field Hnsw.rebuildParams fun _ _ => rfl,
    T.field Hnsw.drawnLevel fun _ _ => rfl⟩

omit [Arith] in
/-- Twins have the same encoding. -/
theorem Twins.toBytes_eq (T : Twins h g) (L : Layout h) : g.toBytes = h.toBytes := by
  have hheader : g.writeHeader = h.writeHeader := T.field Hnsw.writeHeader fun _ _ => rfl
  have hnode : g.nodeBytes = h.nodeBytes := by
    funext id
    have hlists : g.nbrs id = h.nbrs id := funext (T.nbrs_eq id)
    simp only [nodeBytes, T.isDeleted_eq, T.levelsOf_eq, T.vec_eq, T.attrsOf_eq, hlists]
  rw [T.layout.toBytes_eq, L.toBytes_eq, hheader, hnode, T.n_eq]

end Links

/-! ## Inserting -/

section Insert

variable {h g : Hnsw} {vector : List F32} {attrs : List AttrValue} {level : Nat}

theorem Twins.accepts (T : Twins h g) : g.Accepts vector ↔ h.Accepts vector := by
  unfold Accepts
  rw [T.dim_eq]

theorem Twins.stored (T : Twins h g) (S : Sound h) (S' : Sound g) (ha : h.Accepts vector)
    (hfit : h.base h.n + (level + 1) < 2 ^ 32) :
    Twins (h.stored vector attrs level) (g.stored vector attrs level) where
  shell := by
    have hshell := T.shell
    generalize g.links = links at hshell
    generalize g.linkCounts = counts at hshell
    subst hshell
    rfl
  layout := by
    refine S'.stored_layout (T.accepts.mpr ha) attrs ?_
    rw [T.n_eq, T.base_eq]
    exact hfit
  frame a l _ := by
    have hg : (g.stored vector attrs level).nbrs a l = g.nbrs a l :=
      S'.stored_nbrs (T.accepts.mpr ha) attrs a l
    have hh : (h.stored vector attrs level).nbrs a l = h.nbrs a l := S.stored_nbrs ha attrs a l
    rw [hg, hh, T.nbrs_eq]

theorem Twins.setEntry (T : Twins h g) (entryPoint : Option Nat) (maxLayer : Nat) :
    Twins { h with entryPoint, maxLayer } { g with entryPoint, maxLayer } where
  shell := by
    have hshell := T.shell
    generalize g.links = links at hshell
    generalize g.linkCounts = counts at hshell
    subst hshell
    rfl
  layout := { T.layout with }
  frame := T.frame

variable [Arith]

/-- Linking a stored node whose plan stays within the layers its nodes own. -/
theorem Twins.linkNode (T : Twins h g) (H : InRange h) (hcap : Capped h) {id level : Nat}
    (hid : ∀ l ≤ level, h.Owns id l) (hfresh : ∀ a l, id ∉ h.nbrs a l)
    (hentry : ∀ e, h.entryPoint = some e → e < h.n ∧ e ≠ id)
    (howned : ∀ plan, h.linkPlan id level = .ok plan → ∀ p ∈ plan, ∀ x ∈ p.2, h.Owns x p.1) :
    BothTwins (h.linkNode id level) (g.linkNode id level) := by
  obtain ⟨-, -, plan, -, hplan, hok, -, -⟩ := linkNode_spec H hcap hid hfresh hentry howned
  unfold Hnsw.linkNode
  cases he : h.entryPoint with
  | none =>
    rw [T.entryPoint_eq, he]
    exact ⟨_, _, rfl, rfl, T.setEntry (some id) level⟩
  | some entry =>
    simp only [linkPlan, he] at hplan
    obtain ⟨query, hvec, hplan⟩ := Outcome.bind_eq_ok.mp hplan
    obtain ⟨⟨eps, tr⟩, hdescent, hlayers⟩ := Outcome.bind_eq_ok.mp hplan
    have hnd : (layersDown 0 (min level h.maxLayer)).Nodup :=
      (layersDown_pairwise _ _).imp fun hab => (Nat.ne_of_gt hab)
    have hids : ∀ l ∈ layersDown 0 (min level h.maxLayer), h.Owns id l :=
      fun l hl => hid l ((mem_layersDown.mp hl).2.trans (Nat.min_le_left _ _))
    obtain ⟨⟨h', eps', tr'⟩, ⟨g', eps'', tr''⟩, hrun, hrun', T'⟩ :=
      T.connectLayers (t := fun _ _ => False) H hcap (Relinked.refl H.toLayout) H
        (fun _ _ _ hf => hf) hnd hids hlayers hok
    have hvec' : g.vector id = .ok query := (T.sameAt H.toLayout 0).vector_eq ▸ hvec
    have hdescent' : g.greedyDescent query (layersDown (level + 1) h.maxLayer) [entry]
        Traversal.unfiltered = .ok (eps, tr) := by
      rw [← hdescent]
      simp only [greedyDescent, T.searchLayer_eq H.toLayout]
    rw [T.entryPoint_eq, he]
    simp only [hvec, hvec', hdescent, hdescent', hrun, hrun', T.maxLayer_eq, Outcome.ok_bind]
    rw [T'.maxLayer_eq]
    split_ifs with hup
    · exact ⟨_, _, rfl, rfl, T'.setEntry (some id) level⟩
    · exact ⟨_, _, rfl, rfl, T'⟩

/-- **Inserting into twins** gives the same id or error, and twins. -/
theorem Twins.insertDrawn (T : Twins h g) (W : WellFormed h) (vector : List F32)
    (attrs : List AttrValue) (hfit : h.base h.n + (level + 1) < 2 ^ 32) :
    ∃ h' g' r, h.insertDrawn vector attrs level = .ok (h', r) ∧
      g.insertDrawn vector attrs level = .ok (g', r) ∧ Twins h' g' := by
  by_cases ha : h.Accepts vector
  · have S := W.toSound
    have S' := (T.wellFormed W).toSound
    have hfit' : g.base g.n + (level + 1) < 2 ^ 32 := by
      rw [T.n_eq, T.base_eq]
      exact hfit
    obtain ⟨hid, hentry⟩ := S.stored_links ha attrs
    obtain ⟨plan, hplan, hall⟩ := W.plan_owned attrs ha hfit
    have howned : ∀ plan', (h.stored vector attrs level).linkPlan h.n level = .ok plan' →
        ∀ p ∈ plan', ∀ x ∈ p.2, (h.stored vector attrs level).Owns x p.1 := by
      intro plan' hplan' p hp
      rw [hplan] at hplan'
      cases hplan'
      exact (hall p hp).2
    obtain ⟨h', g', hrun, hrun', T'⟩ := (T.stored S S' ha hfit).linkNode
      (S.stored_inRange ha attrs hfit) (S.stored_capped ha attrs) hid (S.stored_fresh ha attrs)
      hentry howned
    refine ⟨h', g', .ok h.n, ?_, ?_, T'⟩
    · rw [insertDrawn_accepted S ha attrs hfit, hrun]
      rfl
    · rw [insertDrawn_accepted S' (T.accepts.mpr ha) attrs hfit', T.n_eq, hrun']
      rfl
  · obtain ⟨e, he⟩ := acceptVector_error ha
    have he' : g.acceptVector vector = .error e := by
      unfold Hnsw.acceptVector at he ⊢
      rw [T.dim_eq]
      split_ifs at he ⊢ <;> exact he
    refine ⟨h, g, .error e, ?_, ?_, T⟩
    · simp only [Hnsw.insertDrawn, he]
    · simp only [Hnsw.insertDrawn, he']

omit [Arith] in
theorem Twins.delete {h' : Hnsw} {id : Nat} (T : Twins h g) (hdel : h.delete id = .ok h') :
    ∃ g', g.delete id = .ok g' ∧ Twins h' g' := by
  obtain ⟨hid, rfl⟩ := delete_eq hdel
  have hdeleted : g.deleted = h.deleted := T.field Hnsw.deleted fun _ _ => rfl
  refine ⟨{ g with deleted := g.deleted.set id true },
    delete_eq_ok (by rw [hdeleted]; exact hid), ?_, ?_, T.frame⟩
  · have hshell := T.shell
    generalize g.links = links at hshell
    generalize g.linkCounts = counts at hshell
    subst hshell
    rfl
  · exact { T.layout with deleted_len := (List.length_set ..).trans T.layout.deleted_len }

end Insert

end Hnsw

end Brindle
