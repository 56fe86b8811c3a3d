/-
# Brindle.Hnsw.InsertSpec — what an insert does to the neighbor lists.

An insert alternates searches and writes, layer by layer. Because a search of one layer reads only
that layer and every write stays at the layer being linked, the whole run of searches can be read off
the graph as it was before the first link was written: `linkPlan` does so, and returns, per layer, the
nodes that will be linked. `linkNode_spec` then says what the insert does in terms of the plan: the
new node's list at each layer is the plan's selection, each selected node's list gains the new node
(and may lose others to the cap), and every other list is untouched.
-/
import Brindle.Hnsw.Congr

namespace Brindle

open Outcome (Ensures ensures_ok ensures_pure ensures_foldlM ensures_foldlM_const)

namespace Hnsw

variable [Arith] {h : Hnsw}

/-! ## The heuristic -/

/-- What the neighbor-selection heuristic picks out of a candidate list. -/
structure Picked (candidates : List Cand) (m : Nat) (selected : List Nat) : Prop where
  sub : ∀ x ∈ selected, x ∈ candidates.map Cand.id
  length_le : selected.length ≤ m
  nodup : (candidates.map Cand.id).Nodup → selected.Nodup

theorem keepsDiversity_spec (L : Layout h) {cand : Cand} {selected : List Nat}
    (hc : cand.id < h.n) (hsel : ∀ x ∈ selected, x < h.n) :
    Ensures (h.keepsDiversity cand selected) fun _ => True := by
  induction selected with
  | nil => exact ensures_pure.mpr trivial
  | cons r selected ih =>
    have hr : r < h.n := hsel r List.mem_cons_self
    have hdist := distance_ok h ((L.vec_length hc).trans (L.vec_length hr).symm)
    simp only [keepsDiversity, L.vector_eq hc, L.vector_eq hr, Outcome.ok_bind, hdist]
    split_ifs
    · exact ensures_pure.mpr trivial
    · exact ih fun x hx => hsel x (List.mem_cons_of_mem _ hx)

/-- The greedy pass appends a subsequence of the candidates, up to `m` in all. -/
theorem selectDiverse_spec (L : Layout h) (m : Nat) {cands : List Cand} {selected : List Nat}
    (hc : ∀ c ∈ cands, c.id < h.n) (hsel : ∀ x ∈ selected, x < h.n)
    (hlen : selected.length ≤ m) :
    Ensures (h.selectDiverse m cands selected) fun out =>
      out.length ≤ m ∧ ∃ picked, out = selected ++ picked ∧
        picked.Sublist (cands.map Cand.id) := by
  induction cands generalizing selected with
  | nil => exact ensures_pure.mpr ⟨hlen, [], by simp, List.Sublist.refl _⟩
  | cons cand rest ih =>
    have hcand : cand.id < h.n := hc cand List.mem_cons_self
    have hrest : ∀ c ∈ rest, c.id < h.n := fun c hc' => hc c (List.mem_cons_of_mem _ hc')
    rw [selectDiverse]
    split_ifs with hfull
    · exact ensures_pure.mpr ⟨hlen, [], by simp, List.nil_sublist _⟩
    · refine (keepsDiversity_spec L hcand hsel).bind fun keep _ => ?_
      cases keep with
      | false =>
        refine (ih hrest hsel hlen).mono ?_
        rintro out ⟨hout, picked, rfl, hsub⟩
        exact ⟨hout, picked, rfl, hsub.cons _⟩
      | true =>
        have hsel' : ∀ x ∈ selected ++ [cand.id], x < h.n := by
          intro x hx
          rcases List.mem_append.mp hx with hx | hx
          · exact hsel x hx
          · rw [List.mem_singleton.mp hx]
            exact hcand
        have hlen' : (selected ++ [cand.id]).length ≤ m := by
          rw [List.length_append, List.length_singleton]
          omega
        refine (ih hrest hsel' hlen').mono ?_
        rintro out ⟨hout, picked, rfl, hsub⟩
        exact ⟨hout, cand.id :: picked, by simp, hsub.cons_cons _⟩

omit [Arith] in
/-- The backfill pass adds candidates not yet selected, up to `m` in all. -/
theorem backfill_spec (m : Nat) (cands : List Cand) (selected : List Nat)
    (hlen : selected.length ≤ m) :
    (∀ x ∈ backfill m cands selected, x ∈ selected ∨ x ∈ cands.map Cand.id) ∧
      (backfill m cands selected).length ≤ m ∧
      (selected.Nodup → (backfill m cands selected).Nodup) := by
  induction cands generalizing selected with
  | nil => exact ⟨fun x hx => Or.inl hx, hlen, id⟩
  | cons cand rest ih =>
    rw [backfill]
    split_ifs with hfull hmem
    · exact ⟨fun x hx => Or.inl hx, hlen, id⟩
    · obtain ⟨hsub, hle, hnd⟩ := ih selected hlen
      exact ⟨fun x hx => (hsub x hx).imp_right (List.mem_cons_of_mem _), hle, hnd⟩
    · have hlen' : (selected ++ [cand.id]).length ≤ m := by
        rw [List.length_append, List.length_singleton]
        omega
      obtain ⟨hsub, hle, hnd⟩ := ih (selected ++ [cand.id]) hlen'
      refine ⟨fun x hx => ?_, hle, fun hs => hnd ?_⟩
      · rcases hsub x hx with hx | hx
        · rcases List.mem_append.mp hx with hx | hx
          · exact Or.inl hx
          · rw [List.mem_singleton.mp hx]
            exact Or.inr List.mem_cons_self
        · exact Or.inr (List.mem_cons_of_mem _ hx)
      · rw [List.contains_iff_mem] at hmem
        exact List.nodup_append.mpr ⟨hs, List.nodup_singleton _, by
          rintro a ha b hb rfl
          rw [List.mem_singleton.mp hb] at ha
          exact hmem ha⟩

theorem selectNeighborsHeuristic_spec (L : Layout h) (m : Nat) {candidates : List Cand}
    (hc : ∀ c ∈ candidates, c.id < h.n) :
    Ensures (h.selectNeighborsHeuristic candidates m) (Picked candidates m) := by
  have hperm := (List.perm_insertionSort (· ≤ ·) candidates).map Cand.id
  have hsorted : ∀ c ∈ candidates.insertionSort (· ≤ ·), c.id < h.n :=
    fun c hc' => hc c ((List.mem_insertionSort (· ≤ ·)).mp hc')
  unfold selectNeighborsHeuristic
  have hnone : ∀ x ∈ ([] : List Nat), x < h.n := nofun
  refine (selectDiverse_spec L m hsorted hnone (Nat.zero_le _)).bind ?_
  rintro picked ⟨hlen, _, rfl, hsub⟩
  have hnd : (candidates.map Cand.id).Nodup → picked.Nodup :=
    fun hnd => hsub.nodup (hperm.nodup_iff.mpr hnd)
  have hin : ∀ x ∈ picked, x ∈ candidates.map Cand.id := fun x hx => hperm.subset (hsub.subset hx)
  split_ifs with hshort
  · obtain ⟨hsub', hle, hnd'⟩ := backfill_spec m (candidates.insertionSort (· ≤ ·)) picked hlen
    refine ensures_pure.mpr ⟨fun x hx => ?_, hle, fun h => hnd' (hnd h)⟩
    exact (hsub' x hx).elim (hin x) fun hx => hperm.subset hx
  · exact ensures_pure.mpr ⟨hin, hlen, hnd⟩

theorem scoreAgainst_spec (L : Layout h) {base : List F32} (hbase : base.length = h.dim)
    {ids : List Nat} (hids : ∀ x ∈ ids, x < h.n) :
    Ensures (h.scoreAgainst base ids) fun cands => cands.map Cand.id = ids := by
  unfold scoreAgainst
  refine ensures_foldlM (fun done (cands : List Cand) => cands.map Cand.id = done) _ ?_ rfl
  rintro done x rest cands hsplit hdone
  have hx : x < h.n := hids x (by simp [hsplit])
  have hdist := distance_ok h (hbase.trans (L.vec_length hx).symm)
  simp only [L.vector_eq hx, Outcome.ok_bind, hdist]
  exact ensures_pure.mpr (by rw [List.map_append, hdone]; rfl)

/-! ## One layer -/

/-- No list is over its cap. -/
def Capped (h : Hnsw) : Prop := ∀ id layer, (h.nbrs id layer).length ≤ h.maxDegree layer

/-- The list of `a` at `lc` gained at most `id`, within the cap. -/
structure Gained (h h' : Hnsw) (id lc a : Nat) : Prop where
  sub : ∀ x ∈ h'.nbrs a lc, x = id ∨ x ∈ h.nbrs a lc
  capped : (h'.nbrs a lc).length ≤ h.maxDegree lc
  nodup : (h.nbrs a lc).Nodup → id ∉ h.nbrs a lc → (h'.nbrs a lc).Nodup

omit [Arith] in
theorem Layout.asU32_of_lt (L : Layout h) {x : Nat} (hx : x < h.n) : asU32 x = x :=
  Nat.mod_eq_of_lt (hx.trans L.n_lt_u32)

omit [Arith] in
theorem Layout.map_asU32 (L : Layout h) {ids : List Nat} (hids : ∀ x ∈ ids, x < h.n) :
    ids.map asU32 = ids :=
  (List.map_congr_left fun x hx => L.asU32_of_lt (hids x hx)).trans (List.map_id ids)

omit [Arith] in
/-- Distinct node ids are few enough to count in a `u32`. -/
theorem Layout.take_asU32 (L : Layout h) {ids : List Nat} (hids : ∀ x ∈ ids, x < h.n)
    (hnd : ids.Nodup) : ids.take (asU32 ids.length) = ids := by
  have hsub : ids ⊆ List.range h.n := fun x hx => List.mem_range.mpr (hids x hx)
  have hle : ids.length ≤ h.n := by simpa using (List.Nodup.subperm hnd hsub).length_le
  have hsmall : asU32 ids.length = ids.length := Nat.mod_eq_of_lt (hle.trans_lt L.n_lt_u32)
  rw [hsmall, List.take_length]

omit [Arith] in
theorem InRange.relinked {touched : Nat → Nat → Prop} {h' : Hnsw} (H : InRange h)
    (R : Relinked touched h h') (hsub : ∀ a l, touched a l → ∀ x ∈ h'.nbrs a l, x < h.n) :
    InRange h' where
  toLayout := R.layout
  links_lt a l x hx := by
    rw [R.n_eq]
    by_cases ht : touched a l
    · exact hsub a l ht x hx
    · rw [R.frame a l ht] at hx
      exact H.links_lt a l x hx

/-- The neighbors a pruned list keeps. -/
def kept (h : Hnsw) (lc n : Nat) : Outcome HnswError (List Nat) := do
  let base ← h.vector n
  let cands ← h.scoreAgainst base (← h.neighbors n lc)
  h.selectNeighborsHeuristic cands (h.maxDegree lc)

theorem linkBack_eq (h : Hnsw) (id lc n : Nat) :
    h.linkBack id lc n = (do
      let (h, len) ← h.pushNeighbor n lc (asU32 id)
      if len ≤ h.maxDegree lc then return h
      let kept ← h.kept lc n
      h.setNeighbors n lc (kept.map asU32)) := by
  simp only [linkBack, kept, bind_assoc]

theorem kept_spec (H : InRange h) {lc n : Nat} (hn : n < h.n) :
    Ensures (h.kept lc n) fun kept => (∀ x ∈ kept, x ∈ h.nbrs n lc) ∧
      kept.length ≤ h.maxDegree lc ∧ ((h.nbrs n lc).Nodup → kept.Nodup) := by
  unfold kept
  rw [H.vector_eq hn, Outcome.ok_bind, H.neighbors_eq, Outcome.ok_bind]
  have hlt : ∀ x ∈ h.nbrs n lc, x < h.n := H.links_lt n lc
  refine (scoreAgainst_spec H.toLayout (H.vec_length hn) hlt).bind fun cands hcands => ?_
  have hcands' : ∀ c ∈ cands, c.id < h.n := fun c hc =>
    hlt c.id (hcands ▸ List.mem_map_of_mem hc)
  refine (selectNeighborsHeuristic_spec H.toLayout _ hcands').mono fun kept hkept => ?_
  exact ⟨fun x hx => hcands ▸ hkept.sub x hx, hkept.length_le, fun hnd => hkept.nodup (hcands ▸ hnd)⟩

omit [Arith] in
/-- The append of a reverse edge, which may take the list one over its cap. -/
theorem pushBack_spec (H : InRange h) {id lc n : Nat} (ho : h.Owns n lc) (hid : id < h.n)
    (hcap : (h.nbrs n lc).length ≤ h.maxDegree lc) :
    Ensures (h.pushNeighbor n lc (asU32 id)) fun r => Relinked (Only n lc) h r.1 ∧ InRange r.1 ∧
      r.2 = (h.nbrs n lc).length + 1 ∧
      r.1.nbrs n lc = (h.nbrs n lc ++ [id]).take (asU32 ((h.nbrs n lc).length + 1)) := by
  rw [H.asU32_of_lt hid]
  refine (H.pushNeighbor_spec ho hcap).mono ?_
  rintro ⟨h₁, len⟩ ⟨R, hlen, hnbrs⟩
  refine ⟨R, H.relinked R ?_, hlen, hnbrs⟩
  rintro a l ⟨rfl, rfl⟩ x hx
  rw [hnbrs] at hx
  rcases List.mem_append.mp (List.mem_of_mem_take hx) with hx | hx
  · exact H.links_lt a l x hx
  · rw [List.mem_singleton.mp hx]
    exact hid

/-- The append-then-prune of one reverse edge. -/
theorem linkBack_spec (H : InRange h) {id lc n : Nat} (ho : h.Owns n lc) (hid : id < h.n)
    (hcap : (h.nbrs n lc).length ≤ h.maxDegree lc) :
    Ensures (h.linkBack id lc n) fun h' => Relinked (Only n lc) h h' ∧ Gained h h' id lc n := by
  rw [linkBack_eq]
  refine (pushBack_spec H ho hid hcap).bind ?_
  rintro ⟨h₁, len⟩ ⟨R, H₁, hlen, hnbrs⟩
  dsimp only at R H₁ hlen hnbrs ⊢
  have hsub₁ : ∀ x ∈ h₁.nbrs n lc, x = id ∨ x ∈ h.nbrs n lc := by
    intro x hx
    rw [hnbrs] at hx
    rcases List.mem_append.mp (List.mem_of_mem_take hx) with hx | hx
    · exact Or.inr hx
    · exact Or.inl (List.mem_singleton.mp hx)
  have hnd₁ : (h.nbrs n lc).Nodup → id ∉ h.nbrs n lc → (h₁.nbrs n lc).Nodup := by
    intro hnd hnew
    rw [hnbrs]
    refine (List.take_sublist _ _).nodup (List.nodup_append.mpr ⟨hnd, List.nodup_singleton _, ?_⟩)
    rintro a ha b hb rfl
    rw [List.mem_singleton.mp hb] at ha
    exact hnew ha
  rw [R.maxDegree_eq]
  split_ifs with hfits
  · refine ensures_pure.mpr ⟨R, hsub₁, ?_, hnd₁⟩
    rw [hnbrs]
    refine (List.length_take_le _ _).trans ?_
    rw [hlen] at hfits
    exact (Nat.mod_le ..).trans hfits
  · -- over the cap the list is selected anew from what it now holds
    refine (kept_spec H₁ (R.n_eq ▸ ho.1)).bind ?_
    rintro kept ⟨hkept, hle, hknd⟩
    rw [H₁.map_asU32 fun x hx => H₁.links_lt n lc x (hkept x hx)]
    refine (H₁.setNeighbors_spec ((R.owns_iff n lc).mpr ho) (hle.trans (Nat.le_succ _))).mono ?_
    rintro h₂ ⟨R₂, hnbrs₂⟩
    rw [R.maxDegree_eq] at hle
    refine ⟨R.trans R₂, fun x hx => ?_, ?_, fun hnd hnew => ?_⟩
    · rw [hnbrs₂] at hx
      exact hsub₁ x (hkept x (List.mem_of_mem_take hx))
    · rw [hnbrs₂]
      exact (List.length_take_le' _ _).trans hle
    · rw [hnbrs₂]
      exact (List.take_sublist _ _).nodup (hknd (hnd₁ hnd hnew))

/-- The nodes a new node is linked to at one layer, and the candidates they were chosen from. -/
def chosen (h : Hnsw) (query : List F32) (lc : Nat) (epIds : List Nat) (tr : Traversal) :
    Outcome HnswError (List Nat × List Cand × Traversal) := do
  let (w, tr) ← h.searchLayer query epIds h.efConstruction lc none tr
  let selected ← h.selectNeighborsHeuristic w (h.maxDegree lc)
  return (selected, w, tr)

/-- Write the links between the new node and the chosen ones. -/
def joinLayer (h : Hnsw) (id lc : Nat) (selected : List Nat) : Outcome HnswError Hnsw := do
  let h ← h.setNeighbors id lc (selected.map asU32)
  selected.foldlM (fun h n => h.linkBack id lc n) h

theorem connectLayer_eq (h : Hnsw) (query : List F32) (id lc : Nat) (epIds : List Nat)
    (tr : Traversal) :
    h.connectLayer query id lc epIds tr = (do
      let (selected, w, tr) ← h.chosen query lc epIds tr
      let h ← h.joinLayer id lc selected
      return (h, w, tr)) := by
  simp only [connectLayer, chosen, joinLayer, bind_assoc, pure_bind]

/-- What a choice of neighbors guarantees: distinct live nodes, within the cap. -/
structure Choice (h : Hnsw) (lc : Nat) (selected : List Nat) : Prop where
  live : ∀ x ∈ selected, h.Live x
  nodup : selected.Nodup
  length_le : selected.length ≤ h.maxDegree lc

theorem chosen_spec (H : InRange h) {query : List F32} (hq : query.length = h.dim)
    {epIds : List Nat} (heps : ∀ x ∈ epIds, x < h.n) (lc : Nat) (tr : Traversal) :
    Ensures (h.chosen query lc epIds tr) fun r =>
      Choice h lc r.1 ∧ Found h lc none epIds h.efConstruction r.2.1 ∧
        ∀ x ∈ r.1, Reach (h.adj lc) epIds x := by
  unfold chosen
  refine (searchLayer_spec H hq heps h.efConstruction lc tr).bind ?_
  rintro ⟨w, tr'⟩ hw
  refine (selectNeighborsHeuristic_spec H.toLayout (h.maxDegree lc) hw.lt).bind fun sel hsel => ?_
  have hmem : ∀ x ∈ sel, ∃ c ∈ w, c.id = x := fun x hx => List.mem_map.mp (hsel.sub x hx)
  refine ensures_pure.mpr ⟨⟨fun x hx => ?_, hsel.nodup hw.nodup, hsel.length_le⟩, hw,
    fun x hx => ?_⟩
  · obtain ⟨c, hc, rfl⟩ := hmem x hx
    exact ⟨hw.lt c hc, (hw.admits c hc).1⟩
  · obtain ⟨c, hc, rfl⟩ := hmem x hx
    exact hw.reach c hc

/-- What linking a node at one layer does. -/
structure Joined (h h' : Hnsw) (id lc : Nat) (selected : List Nat) : Prop where
  relinked : Relinked (fun a l => l = lc ∧ (a = id ∨ a ∈ selected)) h h'
  own : h'.nbrs id lc = selected
  gained : ∀ a ∈ selected, Gained h h' id lc a

omit [Arith] in
theorem Joined.inRange {h' : Hnsw} {id lc : Nat} {selected : List Nat} (H : InRange h)
    (J : Joined h h' id lc selected) (hid : id < h.n) (hsel : ∀ x ∈ selected, x < h.n) :
    InRange h' := by
  refine H.relinked J.relinked ?_
  rintro a l ⟨rfl, ha⟩ x hx
  rcases ha with rfl | ha
  · rw [J.own] at hx
    exact hsel x hx
  · rcases (J.gained a ha).sub x hx with rfl | hx
    · exact hid
    · exact H.links_lt a l x hx

theorem joinLayer_spec (H : InRange h) {id lc : Nat} {selected : List Nat}
    (hcap : ∀ a, (h.nbrs a lc).length ≤ h.maxDegree lc) (hid : h.Owns id lc)
    (hsel : Choice h lc selected) (hnot : id ∉ selected) (hown : ∀ x ∈ selected, h.Owns x lc) :
    Ensures (h.joinLayer id lc selected) fun h' => Joined h h' id lc selected := by
  have hlt : ∀ x ∈ selected, x < h.n := fun x hx => (hown x hx).1
  unfold joinLayer
  rw [H.map_asU32 hlt]
  refine (H.setNeighbors_spec hid (hsel.length_le.trans (Nat.le_succ _))).bind ?_
  rintro h₁ ⟨R₁, hnbrs₁⟩
  rw [H.take_asU32 hlt hsel.nodup] at hnbrs₁
  have hframe₁ : ∀ a, a ≠ id → h₁.nbrs a lc = h.nbrs a lc :=
    fun a hne => R₁.frame a lc fun ht => hne ht.1
  have H₁ : InRange h₁ := by
    refine H.relinked R₁ ?_
    rintro a l ⟨rfl, rfl⟩ x hx
    rw [hnbrs₁] at hx
    exact hlt x hx
  -- after some of the selected nodes, exactly their lists have gained the new node
  refine (ensures_foldlM (fun done g => Relinked (fun a l => l = lc ∧ a ∈ done) h₁ g ∧
    ∀ a ∈ done, Gained h₁ g id lc a) selected ?_ ⟨Relinked.refl H₁.toLayout, nofun⟩).mono ?_
  · rintro done x rest g hsplit ⟨R, hgained⟩
    have hx : x ∈ selected := by simp [hsplit]
    have hxdone : x ∉ done := by
      have hnd := hsel.nodup
      rw [hsplit] at hnd
      exact fun hmem => (List.nodup_append.mp hnd).2.2 x hmem x List.mem_cons_self rfl
    have hxid : x ≠ id := fun he => hnot (he ▸ hx)
    have hold : g.nbrs x lc = h₁.nbrs x lc := R.frame x lc fun ht => hxdone ht.2
    have G : InRange g := by
      refine H₁.relinked R ?_
      rintro a l ⟨rfl, ha⟩ y hy
      rcases (hgained a ha).sub y hy with rfl | hy
      · exact R₁.n_eq ▸ hid.1
      · exact H₁.links_lt a l y hy
    have hg : g.Owns x lc := (R.owns_iff x lc).mpr ((R₁.owns_iff x lc).mpr (hown x hx))
    have hroom : (g.nbrs x lc).length ≤ g.maxDegree lc := by
      rw [hold, R.maxDegree_eq, R₁.maxDegree_eq, hframe₁ x hxid]
      exact hcap x
    have hidg : id < g.n := by
      rw [R.n_eq, R₁.n_eq]
      exact hid.1
    refine (linkBack_spec G hg hidg hroom).mono ?_
    rintro g' ⟨R', hgain⟩
    have hkeep : ∀ a, a ≠ x → g'.nbrs a lc = g.nbrs a lc :=
      fun a hne => R'.frame a lc fun ht => hne ht.1
    refine ⟨(R.mono ?_).trans (R'.mono ?_), fun a ha => ?_⟩
    · rintro a l ⟨rfl, ha⟩
      exact ⟨rfl, List.mem_append_left _ ha⟩
    · rintro a l ⟨rfl, rfl⟩
      exact ⟨rfl, List.mem_append_right _ List.mem_cons_self⟩
    · rcases List.mem_append.mp ha with ha | ha
      · have hne : a ≠ x := fun he => hxdone (he ▸ ha)
        obtain ⟨hsub, hle, hnd⟩ := hgained a ha
        exact ⟨by rw [hkeep a hne]; exact hsub, by rw [hkeep a hne]; exact hle,
          by rw [hkeep a hne]; exact hnd⟩
      · rw [List.mem_singleton.mp ha]
        obtain ⟨hsub, hle, hnd⟩ := hgain
        rw [hold] at hsub hnd
        rw [R.maxDegree_eq] at hle
        exact ⟨hsub, hle, hnd⟩
  · rintro h' ⟨R, hgained⟩
    refine ⟨(R₁.mono ?_).trans (R.mono ?_), ?_, fun a ha => ?_⟩
    · rintro a l ⟨rfl, rfl⟩
      exact ⟨rfl, Or.inl rfl⟩
    · rintro a l ⟨rfl, ha⟩
      exact ⟨rfl, Or.inr ha⟩
    · rw [R.frame id lc fun ht => hnot ht.2, hnbrs₁]
    · obtain ⟨hsub, hle, hnd⟩ := hgained a ha
      have hne : a ≠ id := fun he => hnot (he ▸ ha)
      rw [hframe₁ a hne] at hsub hnd
      rw [R₁.maxDegree_eq] at hle
      exact ⟨hsub, hle, hnd⟩

/-! ## All layers -/

omit [Arith] in
theorem mem_layersDown {low top l : Nat} : l ∈ layersDown low top ↔ low ≤ l ∧ l ≤ top := by
  unfold layersDown
  rw [List.mem_reverse, List.mem_range'_1]
  omega

omit [Arith] in
theorem layersDown_pairwise (low top : Nat) : (layersDown low top).Pairwise (· > ·) := by
  unfold layersDown
  rw [List.pairwise_reverse]
  exact List.pairwise_lt_range'

/-- The searches of the linking loop, run on one graph: per layer, the nodes to link to. -/
def planLayers (h : Hnsw) (query : List F32) (entry : Nat) :
    List Nat → List Nat → Traversal → Outcome HnswError (List (Nat × List Nat))
  | [], _, _ => return []
  | lc :: rest, epIds, tr => do
    let (selected, w, tr) ← h.chosen query lc epIds tr
    let epIds := w.map Cand.id
    let plan ← planLayers h query entry rest (if epIds.isEmpty then [entry] else epIds) tr
    return (lc, selected) :: plan

/-- What an insert of the stored node `id` at `level` links it to, read off the graph before any
link is written. -/
def linkPlan (h : Hnsw) (id level : Nat) : Outcome HnswError (List (Nat × List Nat)) := do
  match h.entryPoint with
  | none => return []
  | some entry =>
    let query ← h.vector id
    let (epIds, tr) ←
      h.greedyDescent query (layersDown (level + 1) h.maxLayer) [entry] Traversal.unfiltered
    h.planLayers query entry (layersDown 0 (min level h.maxLayer)) epIds tr

/-- The lists a plan writes to. -/
def PlanTouches (plan : List (Nat × List Nat)) (id a l : Nat) : Prop :=
  ∃ selected, (l, selected) ∈ plan ∧ (a = id ∨ a ∈ selected)

/-- What linking a node by a plan does. -/
structure Wired (h h' : Hnsw) (id : Nat) (plan : List (Nat × List Nat)) : Prop where
  relinked : Relinked (PlanTouches plan id) h h'
  own : ∀ p ∈ plan, h'.nbrs id p.1 = p.2
  gained : ∀ p ∈ plan, ∀ a ∈ p.2, Gained h h' id p.1 a

/-- What a plan must promise for its links to land in the slots they are meant for. -/
structure PlanOk (h : Hnsw) (id : Nat) (plan : List (Nat × List Nat)) : Prop where
  choice : ∀ p ∈ plan, Choice h p.1 p.2
  fresh : ∀ p ∈ plan, id ∉ p.2
  owned : ∀ p ∈ plan, ∀ x ∈ p.2, h.Owns x p.1

omit [Arith] in
theorem Wired.inRange {h' : Hnsw} {id : Nat} {plan : List (Nat × List Nat)} (H : InRange h)
    (W : Wired h h' id plan) (hid : id < h.n) (hok : ∀ p ∈ plan, ∀ x ∈ p.2, x < h.n) :
    InRange h' := by
  refine H.relinked W.relinked ?_
  rintro a l ⟨sel, hmem, rfl | ha⟩ x hx
  · rw [W.own (l, sel) hmem] at hx
    exact hok (l, sel) hmem x hx
  · rcases (W.gained (l, sel) hmem a ha).sub x hx with rfl | hx
    · exact hid
    · exact H.links_lt a l x hx

theorem planLayers_layers {query : List F32} {entry : Nat} {layers epIds : List Nat}
    {tr : Traversal} {plan : List (Nat × List Nat)}
    (hplan : h.planLayers query entry layers epIds tr = .ok plan) :
    plan.map Prod.fst = layers := by
  induction layers generalizing epIds tr plan with
  | nil =>
    cases hplan
    rfl
  | cons lc rest ih =>
    rw [planLayers] at hplan
    obtain ⟨⟨selected, w, tr'⟩, -, hplan⟩ := Outcome.bind_eq_ok.mp hplan
    obtain ⟨plan', hrest, hplan⟩ := Outcome.bind_eq_ok.mp hplan
    cases hplan
    rw [List.map_cons, ih hrest]

theorem connectLayers_cons (h : Hnsw) (query : List F32) (id entry lc : Nat)
    (rest epIds : List Nat) (tr : Traversal) :
    h.connectLayers query id entry (lc :: rest) epIds tr = (do
      let (selected, w, tr) ← h.chosen query lc epIds tr
      let h ← h.joinLayer id lc selected
      let epIds := w.map Cand.id
      h.connectLayers query id entry rest (if epIds.isEmpty then [entry] else epIds) tr) := by
  simp only [connectLayers, List.foldlM_cons, connectLayer_eq, bind_assoc, pure_bind]

/-- The head of a plan of `h`, on a graph `g` that reads like `h` at its layer: `g` chooses the same
nodes, and the choice keeps there what the plan promised. -/
structure Chooses (h g : Hnsw) (query : List F32) (id entry lc : Nat) (rest epIds : List Nat)
    (tr : Traversal) (plan : List (Nat × List Nat)) (selected : List Nat) (w : List Cand)
    (tr' : Traversal) (plan' : List (Nat × List Nat)) : Prop where
  plan_eq : plan = (lc, selected) :: plan'
  run : g.chosen query lc epIds tr = .ok (selected, w, tr')
  choice : Choice g lc selected
  fresh : id ∉ selected
  owned : ∀ x ∈ selected, g.Owns x lc
  tail_run : h.planLayers query entry rest
    (if (w.map Cand.id).isEmpty then [entry] else w.map Cand.id) tr' = .ok plan'
  tail_ok : PlanOk h id plan'

theorem planLayers_head {T : Nat → Nat → Prop} {g : Hnsw} (L : Layout h) (R : Relinked T h g)
    {query : List F32} {id entry lc : Nat} {rest epIds : List Nat} {tr : Traversal}
    {plan : List (Nat × List Nat)} (hlc : ∀ a, ¬ T a lc)
    (hplan : h.planLayers query entry (lc :: rest) epIds tr = .ok plan) (hok : PlanOk h id plan) :
    ∃ selected w tr' plan', Chooses h g query id entry lc rest epIds tr plan selected w tr' plan' := by
  rw [planLayers] at hplan
  obtain ⟨⟨selected, w, tr'⟩, hchosen, hplan⟩ := Outcome.bind_eq_ok.mp hplan
  obtain ⟨plan', hrest, hplan⟩ := Outcome.bind_eq_ok.mp hplan
  cases hplan
  have hsame : SameAt lc h g := R.sameAt L hlc
  obtain ⟨hlive, hsnd, hle⟩ := hok.choice (lc, selected) List.mem_cons_self
  refine ⟨selected, w, tr', plan', rfl, ?_, ⟨fun x hx => (R.live_iff x).mpr (hlive x hx), hsnd, ?_⟩,
    hok.fresh (lc, selected) List.mem_cons_self, fun x hx => ?_, hrest, ?_⟩
  · -- the search at this layer has not seen any write yet
    rw [← hchosen]
    simp only [chosen, hsame.searchLayer_eq, hsame.selectNeighborsHeuristic_eq,
      R.efConstruction_eq, R.maxDegree_eq]
  · rw [R.maxDegree_eq]
    exact hle
  · exact (R.owns_iff x lc).mpr (hok.owned (lc, selected) List.mem_cons_self x hx)
  · exact ⟨fun p hp => hok.choice p (List.mem_cons_of_mem _ hp),
      fun p hp => hok.fresh p (List.mem_cons_of_mem _ hp),
      fun p hp => hok.owned p (List.mem_cons_of_mem _ hp)⟩

omit [Arith] in
/-- Joining one layer leaves the graph untouched at the layers still to come. -/
theorem Joined.advance {T : Nat → Nat → Prop} {g g₁ : Hnsw} {id lc : Nat}
    {selected rest : List Nat} (R : Relinked T h g) (J : Joined g g₁ id lc selected)
    (hT : ∀ l ∈ lc :: rest, ∀ a, ¬ T a l) (hlcrest : lc ∉ rest) :
    Relinked (fun a l => T a l ∨ l = lc) h g₁ ∧ ∀ l ∈ rest, ∀ a, ¬ (T a l ∨ l = lc) := by
  refine ⟨(R.mono fun _ _ => Or.inl).trans (J.relinked.mono fun _ _ ht => Or.inr ht.1), ?_⟩
  rintro l hl a (ht | rfl)
  · exact hT l (List.mem_cons_of_mem _ hl) a ht
  · exact hlcrest hl

/-- Carrying out the plan of `h` on a graph `g` that differs from `h` only at layers already done. -/
theorem connectLayers_spec {T : Nat → Nat → Prop} {g : Hnsw} (H : InRange h) (hcap : Capped h)
    (R : Relinked T h g) (G : InRange g) {query : List F32} {id entry : Nat}
    {layers epIds : List Nat} {tr : Traversal} {plan : List (Nat × List Nat)}
    (hT : ∀ l ∈ layers, ∀ a, ¬ T a l) (hnd : layers.Nodup)
    (hid : ∀ l ∈ layers, h.Owns id l)
    (hplan : h.planLayers query entry layers epIds tr = .ok plan) (hok : PlanOk h id plan) :
    Ensures (g.connectLayers query id entry layers epIds tr) fun r => Wired g r.1 id plan := by
  induction layers generalizing T g epIds tr plan with
  | nil =>
    cases hplan
    exact ensures_pure.mpr ⟨Relinked.refl G.toLayout, nofun, nofun⟩
  | cons lc rest ih =>
    have hlayers := planLayers_layers hplan
    have hlc : ∀ a, ¬ T a lc := hT lc List.mem_cons_self
    obtain ⟨selected, w, tr', plan', X⟩ := planLayers_head H.toLayout R hlc hplan hok
    obtain rfl := X.plan_eq
    have hidg : g.Owns id lc := (R.owns_iff id lc).mpr (hid lc List.mem_cons_self)
    have hroom : ∀ a, (g.nbrs a lc).length ≤ g.maxDegree lc := by
      intro a
      rw [R.frame a lc (hlc a), R.maxDegree_eq]
      exact hcap a lc
    have hlcrest : lc ∉ rest := (List.nodup_cons.mp hnd).1
    rw [connectLayers_cons, X.run, Outcome.ok_bind]
    refine (joinLayer_spec G hroom hidg X.choice X.fresh X.owned).bind fun g₁ J => ?_
    have G₁ := J.inRange G hidg.1 fun x hx => (X.owned x hx).1
    obtain ⟨R₁, hT₁⟩ := J.advance R hT hlcrest
    refine (ih R₁ G₁ hT₁ (List.nodup_cons.mp hnd).2
      (fun l hl => hid l (List.mem_cons_of_mem _ hl)) X.tail_run X.tail_ok).mono ?_
    rintro r W
    have hlayers' : ∀ p ∈ plan', p.1 ≠ lc := by
      rintro p hp rfl
      have hmem := List.mem_map_of_mem (f := Prod.fst) hp
      rw [List.map_cons] at hlayers
      rw [(List.cons_eq_cons.mp hlayers).2] at hmem
      exact hlcrest hmem
    -- the later layers leave this one alone, and this one left the later ones alone
    have hlater : ∀ a, r.1.nbrs a lc = g₁.nbrs a lc := fun a => W.relinked.frame a lc (by
      rintro ⟨sel, hmem, -⟩
      exact hlayers' (lc, sel) hmem rfl)
    have hearlier : ∀ p ∈ plan', ∀ a, g₁.nbrs a p.1 = g.nbrs a p.1 :=
      fun p hp a => J.relinked.frame a p.1 fun ht => hlayers' p hp ht.1
    refine ⟨(J.relinked.mono ?_).trans (W.relinked.mono ?_), ?_, ?_⟩
    · rintro a l ⟨rfl, ha⟩
      exact ⟨selected, List.mem_cons_self, ha⟩
    · rintro a l ⟨sel, hmem, ha⟩
      exact ⟨sel, List.mem_cons_of_mem _ hmem, ha⟩
    · intro p hp
      rcases List.mem_cons.mp hp with rfl | hp
      · exact (hlater id).trans J.own
      · exact W.own p hp
    · intro p hp a ha
      rcases List.mem_cons.mp hp with rfl | hp
      · obtain ⟨hsub, hle, hgnd⟩ := J.gained a ha
        exact ⟨by rw [hlater]; exact hsub, by rw [hlater]; exact hle, by rw [hlater]; exact hgnd⟩
      · obtain ⟨hsub, hle, hgnd⟩ := W.gained p hp a ha
        rw [hearlier p hp] at hsub hgnd
        rw [J.relinked.maxDegree_eq] at hle
        exact ⟨hsub, hle, hgnd⟩

/-! ## What the searches of an insert can come across -/

omit [Arith] in
/-- A property of (layer, node) pairs that a descent cannot leave: it is closed under the links of
its layer, and passes from a layer to those below. -/
structure Guides (h : Hnsw) (P : Nat → Nat → Prop) : Prop where
  closed : ∀ l a, P l a → ∀ x ∈ h.nbrs a l, P l x
  down : ∀ {l l' x}, l' ≤ l → P l x → P l' x

section Guided

variable {P : Nat → Nat → Prop} (H : InRange h) (hP : Guides h P) {query : List F32}
  (hq : query.length = h.dim)
include H hP hq

omit [Arith] H hq in
theorem Guides.reach {l x : Nat} {epIds : List Nat} (heps : ∀ e ∈ epIds, P l e)
    (hx : Reach (h.adj l) epIds x) : P l x :=
  Reach.of_closed heps (fun a _ ha y hy => hP.closed l a ha y hy) hx

theorem greedyDescent_spec {top : Nat} {layers epIds : List Nat} {tr : Traversal}
    (hdesc : layers.Pairwise (· > ·)) (htop : ∀ l ∈ layers, l ≤ top)
    (heps : ∀ x ∈ epIds, x < h.n ∧ P top x) :
    Ensures (h.greedyDescent query layers epIds tr) fun r => ∀ x ∈ r.1, x < h.n ∧
      ∀ l ≤ top, (∀ lc ∈ layers, l ≤ lc) → P l x := by
  unfold greedyDescent
  refine ensures_foldlM (fun done (r : List Nat × Traversal) => ∀ x ∈ r.1, x < h.n ∧
    ∀ l ≤ top, (∀ lc ∈ done, l ≤ lc) → P l x) _ ?_
    (fun x hx => ⟨(heps x hx).1, fun l hl _ => hP.down hl (heps x hx).2⟩)
  rintro done lc rest ⟨eps, tr⟩ hsplit hI
  have hbefore : ∀ d ∈ done, lc ≤ d := by
    intro d hd
    rw [hsplit] at hdesc
    exact ((List.pairwise_append.mp hdesc).2.2 d hd lc List.mem_cons_self).le
  have hlc : lc ≤ top := htop lc (by simp [hsplit])
  have hseeds : ∀ x ∈ eps, P lc x := fun x hx => (hI x hx).2 lc hlc hbefore
  refine (searchLayer_spec H hq (fun x hx => (hI x hx).1) 1 lc tr).bind ?_
  rintro ⟨w, tr'⟩ hw
  refine ensures_pure.mpr fun x hx => ?_
  cases hhead : w.head? with
  | none =>
    simp only [hhead] at hx
    exact ⟨(hI x hx).1, fun l hl hall =>
      (hI x hx).2 l hl fun d hd => hall d (List.mem_append_left _ hd)⟩
  | some nearest =>
    simp only [hhead, List.mem_singleton] at hx
    subst hx
    have hmem : nearest ∈ w := List.mem_of_mem_head? hhead
    refine ⟨hw.lt nearest hmem, fun l _ hall => ?_⟩
    exact hP.down (hall lc (List.mem_append_right _ List.mem_cons_self))
      (hP.reach hseeds (hw.reach nearest hmem))

theorem planLayers_spec {entry : Nat} {layers epIds : List Nat} (tr : Traversal)
    (hdesc : layers.Pairwise (· > ·)) (hentry : entry < h.n ∧ ∀ l ∈ layers, P l entry)
    (heps : ∀ x ∈ epIds, x < h.n ∧ ∀ l ∈ layers, P l x) :
    Ensures (h.planLayers query entry layers epIds tr) fun plan =>
      ∀ p ∈ plan, Choice h p.1 p.2 ∧ ∀ x ∈ p.2, P p.1 x := by
  induction layers generalizing epIds tr with
  | nil => exact ensures_pure.mpr nofun
  | cons lc rest ih =>
    have hseeds : ∀ x ∈ epIds, P lc x := fun x hx => (heps x hx).2 lc List.mem_cons_self
    have hbelow : ∀ l ∈ rest, l ≤ lc := fun l hl => ((List.pairwise_cons.mp hdesc).1 l hl).le
    have hentry' : entry < h.n ∧ ∀ l ∈ rest, P l entry :=
      ⟨hentry.1, fun l hl => hentry.2 l (List.mem_cons_of_mem _ hl)⟩
    rw [planLayers]
    refine (chosen_spec H hq (fun x hx => (heps x hx).1) lc tr).bind ?_
    rintro ⟨selected, w, tr'⟩ ⟨hchoice, hw, hreach⟩
    refine (ih tr' (List.pairwise_cons.mp hdesc).2 hentry' ?_).bind fun plan hplan => ?_
    · intro x hx
      split_ifs at hx with hnone
      · rw [List.mem_singleton.mp hx]
        exact hentry'
      · obtain ⟨c, hc, rfl⟩ := List.mem_map.mp hx
        exact ⟨hw.lt c hc, fun l hl => hP.down (hbelow l hl) (hP.reach hseeds (hw.reach c hc))⟩
    · refine ensures_pure.mpr fun p hp => ?_
      rcases List.mem_cons.mp hp with rfl | hp
      · exact ⟨hchoice, fun x hx => hP.reach hseeds (hreach x hx)⟩
      · exact hplan p hp

omit hq in
/-- **The plan.** It exists, and links to distinct live nodes that the guiding property covers. -/
theorem linkPlan_spec {id : Nat} (level : Nat) (hid : id < h.n)
    (hentry : ∀ e, h.entryPoint = some e → e < h.n ∧ P h.maxLayer e) :
    Ensures (h.linkPlan id level) fun plan =>
      ∀ p ∈ plan, p.1 ≤ min level h.maxLayer ∧ Choice h p.1 p.2 ∧ ∀ x ∈ p.2, P p.1 x := by
  unfold linkPlan
  cases he : h.entryPoint with
  | none => exact ensures_pure.mpr nofun
  | some entry =>
    obtain ⟨hlt, htop⟩ := hentry entry he
    have hq := H.vec_length hid
    simp only [H.vector_eq hid, Outcome.ok_bind]
    have heps : ∀ x ∈ [entry], x < h.n ∧ P h.maxLayer x := by
      intro x hx
      rw [List.mem_singleton.mp hx]
      exact ⟨hlt, htop⟩
    refine (greedyDescent_spec H hP hq (layersDown_pairwise _ _)
      (fun l hl => (mem_layersDown.mp hl).2) heps).bind ?_
    rintro ⟨eps, tr⟩ hdescent
    have hstart : ∀ l ∈ layersDown 0 (min level h.maxLayer), l ≤ level ∧ l ≤ h.maxLayer :=
      fun l hl => Nat.le_min.mp (mem_layersDown.mp hl).2
    have hplan := planLayers_spec H hP hq tr (layersDown_pairwise 0 (min level h.maxLayer))
      ⟨hlt, fun l hl => hP.down (hstart l hl).2 htop⟩ (fun x hx => ⟨(hdescent x hx).1,
        fun l hl => (hdescent x hx).2 l (hstart l hl).2 fun lc hlc =>
          (hstart l hl).1.trans ((Nat.le_succ _).trans (mem_layersDown.mp hlc).1)⟩)
    obtain ⟨plan, hrun, hall⟩ := hplan
    refine ⟨plan, hrun, fun p hp => ⟨?_, hall p hp⟩⟩
    have hmem := List.mem_map_of_mem (f := Prod.fst) hp
    rw [planLayers_layers hrun] at hmem
    exact (mem_layersDown.mp hmem).2

end Guided

/-! ## The whole insert -/

omit [Arith] in
/-- The entry point and top layer once a node of `level` is linked. -/
def settleEntry (g : Hnsw) (id level : Nat) : Hnsw :=
  match g.entryPoint with
  | none => { g with entryPoint := some id, maxLayer := level }
  | some _ => if level > g.maxLayer then { g with maxLayer := level, entryPoint := some id } else g

/-- **Linking a stored node.** The plan exists; when every node it links to owns the layer it is
linked at, the insert carries the plan out and moves the entry point last. -/
theorem linkNode_spec (H : InRange h) (hcap : Capped h) {id level : Nat}
    (hid : ∀ l ≤ level, h.Owns id l) (hfresh : ∀ a l, id ∉ h.nbrs a l)
    (hentry : ∀ e, h.entryPoint = some e → e < h.n ∧ e ≠ id)
    (howned : ∀ plan, h.linkPlan id level = .ok plan → ∀ p ∈ plan, ∀ x ∈ p.2, h.Owns x p.1) :
    Ensures (h.linkNode id level) fun h' => ∃ plan g, h.linkPlan id level = .ok plan ∧
      PlanOk h id plan ∧ Wired h g id plan ∧ h' = settleEntry g id level := by
  have hlt : id < h.n := (hid 0 (Nat.zero_le _)).1
  have hguides : Guides h fun _ x => x ≠ id :=
    ⟨fun l a _ x hx he => hfresh a l (he ▸ hx), fun _ hx => hx⟩
  obtain ⟨plan, hplan, hall⟩ := linkPlan_spec H hguides level hlt hentry
  have hok : PlanOk h id plan :=
    ⟨fun p hp => (hall p hp).2.1, fun p hp hmem => (hall p hp).2.2 id hmem rfl,
      howned plan hplan⟩
  unfold linkNode
  cases he : h.entryPoint with
  | none =>
    -- the first node has nothing to link to
    have hnil : plan = [] := by
      simp only [linkPlan, he] at hplan
      cases hplan
      rfl
    subst hnil
    refine ensures_pure.mpr ⟨[], h, hplan, hok, ⟨Relinked.refl H.toLayout, nofun, nofun⟩, ?_⟩
    simp only [settleEntry, he]
  | some entry =>
    have hsplit := hplan
    simp only [linkPlan, he] at hsplit
    obtain ⟨query, hvec, hsplit⟩ := Outcome.bind_eq_ok.mp hsplit
    obtain ⟨⟨eps, tr⟩, hdescent, hlayers⟩ := Outcome.bind_eq_ok.mp hsplit
    simp only [hvec, hdescent, Outcome.ok_bind]
    have hnd : (layersDown 0 (min level h.maxLayer)).Nodup :=
      (layersDown_pairwise _ _).imp fun hab => (Nat.ne_of_gt hab)
    have hids : ∀ l ∈ layersDown 0 (min level h.maxLayer), h.Owns id l :=
      fun l hl => hid l ((mem_layersDown.mp hl).2.trans (Nat.min_le_left _ _))
    refine (connectLayers_spec (T := fun _ _ => False) H hcap (Relinked.refl H.toLayout) H
      (fun _ _ _ hf => hf) hnd hids hlayers hok).bind ?_
    rintro ⟨g, eps', tr'⟩ W
    have hge : g.entryPoint = some entry := W.relinked.entryPoint_eq.trans he
    have hgoal : ∀ h', h' = settleEntry g id level → ∃ plan g, h.linkPlan id level = .ok plan ∧
        PlanOk h id plan ∧ Wired h g id plan ∧ h' = settleEntry g id level :=
      fun h' hh' => ⟨plan, g, hplan, hok, W, hh'⟩
    dsimp only
    split_ifs with hup
    · exact ensures_pure.mpr (hgoal _ (by simp only [settleEntry, hge, if_pos hup]))
    · exact ensures_pure.mpr (hgoal _ (by simp only [settleEntry, hge, if_neg hup]))

end Hnsw

end Brindle
