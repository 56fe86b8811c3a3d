/-
# Brindle.Hnsw.Relink — what the mutators do to the neighbor lists.

`Relinked touched h h'` is the frame condition of every write an insert makes: `h'` differs from `h`
in `links` and `link_counts` only, is still laid out, and keeps every neighbor list that `touched`
does not name. `set_neighbors` and `push_neighbor` touch one list; `push_node` adds a node with empty
lists and touches none.
-/
import Brindle.Hnsw.Layout

namespace Brindle

open Outcome (index slice overwrite Ensures)
open Buffer

namespace Hnsw

/-- `h` with other links. -/
def withLinks (h : Hnsw) (links counts : List Nat) : Hnsw :=
  { h with links, linkCounts := counts }

/-- `h'` is `h` with other neighbor lists where `touched` says so, and only there. -/
structure Relinked (touched : Nat → Nat → Prop) (h h' : Hnsw) : Prop where
  shell : h' = h.withLinks h'.links h'.linkCounts
  layout : Layout h'
  frame : ∀ a l, ¬ touched a l → h'.nbrs a l = h.nbrs a l

/-- The one list of `id` at `layer`. -/
def Only (id layer : Nat) : Nat → Nat → Prop := fun a l => a = id ∧ l = layer

namespace Relinked

variable {touched touched' : Nat → Nat → Prop} {h h' h'' : Hnsw}

theorem refl (L : Layout h) : Relinked touched h h := ⟨rfl, L, fun _ _ _ => rfl⟩

/-- Less may be said about what was touched. -/
theorem mono (R : Relinked touched h h') (hsub : ∀ a l, touched a l → touched' a l) :
    Relinked touched' h h' :=
  ⟨R.shell, R.layout, fun a l hn => R.frame a l fun ht => hn (hsub a l ht)⟩

/-- One write after another. -/
theorem trans (R : Relinked touched h h') (R' : Relinked touched h' h'') :
    Relinked touched h h'' where
  shell := by
    have h1 := R'.shell
    rw [R.shell] at h1
    exact h1
  layout := R'.layout
  frame a l hn := (R'.frame a l hn).trans (R.frame a l hn)

variable (R : Relinked touched h h')
include R

/-- Whatever does not read the links is unchanged. -/
theorem field {β : Type} (f : Hnsw → β)
    (hf : ∀ links counts, f (h.withLinks links counts) = f h) : f h' = f h := by
  rw [R.shell]
  exact hf _ _

theorem n_eq : h'.n = h.n := R.field Hnsw.n fun _ _ => rfl

theorem dim_eq : h'.dim = h.dim := R.field Hnsw.dim fun _ _ => rfl

theorem base_eq (id : Nat) : h'.base id = h.base id := R.field (fun g => Hnsw.base g id) fun _ _ => rfl

theorem levelsOf_eq (id : Nat) : h'.levelsOf id = h.levelsOf id :=
  R.field (fun g => Hnsw.levelsOf g id) fun _ _ => rfl

theorem maxDegree_eq (layer : Nat) : h'.maxDegree layer = h.maxDegree layer :=
  R.field (fun g => Hnsw.maxDegree g layer) fun _ _ => rfl

theorem slotWidth_eq (layer : Nat) : h'.slotWidth layer = h.slotWidth layer :=
  R.field (fun g => Hnsw.slotWidth g layer) fun _ _ => rfl

theorem vec_eq (id : Nat) : h'.vec id = h.vec id := R.field (fun g => Hnsw.vec g id) fun _ _ => rfl

theorem isDeleted_eq (id : Nat) : h'.isDeleted id = h.isDeleted id :=
  R.field (fun g => Hnsw.isDeleted g id) fun _ _ => rfl

theorem attrsOf_eq (id : Nat) : h'.attrsOf id = h.attrsOf id :=
  R.field (fun g => Hnsw.attrsOf g id) fun _ _ => rfl

theorem entryPoint_eq : h'.entryPoint = h.entryPoint := R.field Hnsw.entryPoint fun _ _ => rfl

theorem maxLayer_eq : h'.maxLayer = h.maxLayer := R.field Hnsw.maxLayer fun _ _ => rfl

theorem efConstruction_eq : h'.efConstruction = h.efConstruction :=
  R.field Hnsw.efConstruction fun _ _ => rfl

/-- No node gains or loses a layer. -/
theorem owns_iff (id layer : Nat) : h'.Owns id layer ↔ h.Owns id layer := by
  unfold Owns
  rw [R.n_eq, R.levelsOf_eq]

/-- No node dies or comes back. -/
theorem live_iff (id : Nat) : h'.Live id ↔ h.Live id := by
  unfold Live
  rw [R.n_eq, R.isDeleted_eq]

end Relinked

namespace Slots

variable {h : Hnsw} (S : Slots h)
include S

/-- Setting one list's count sets no other's. -/
theorem countOf_set {id layer : Nat} (links : List Nat) (c : Nat) (ho : h.Owns id layer) {a l : Nat}
    (ha : h.Owns a l) :
    (h.withLinks links (h.linkCounts.set (h.base id + layer) c)).countOf a l =
      if a = id ∧ l = layer then c else h.countOf a l := by
  show (h.linkCounts.set (h.base id + layer) c).getD (h.base a + l) 0 = _
  rw [List.getD_eq_getElem?_getD, List.getElem?_set]
  by_cases heq : a = id ∧ l = layer
  · rw [if_pos heq, if_pos (by rw [heq.1, heq.2]), if_pos (S.count_lt ho)]
    rfl
  · have hne : h.base id + layer ≠ h.base a + l := fun he =>
      heq ⟨(S.count_inj ho ha he).1.symm, (S.count_inj ho ha he).2.symm⟩
    rw [if_neg heq, if_neg hne]
    rfl

/-- Writing inside one slot run and setting its count keeps the places. -/
theorem relist {id layer c : Nat} {links : List Nat} (ho : h.Owns id layer)
    (hlen : links.length = h.links.length) (hc : c ≤ h.slotWidth layer) :
    Slots (h.withLinks links (h.linkCounts.set (h.base id + layer) c)) :=
  { S with
    counts_len := (List.length_set ..).trans S.counts_len
    counts_le := fun a l ha => by
      rw [S.countOf_set links c ho ha]
      split_ifs with heq
      · rw [heq.2]
        exact hc
      · exact S.counts_le a l ha
    links_len := hlen.trans S.links_len }

/-- The slots of every other list are out of the way of what is written into one run. -/
theorem window_frame {id layer : Nat} {links : List Nat} (ho : h.Owns id layer)
    (hframe : ∀ s k, s + k ≤ h.slotAt id layer ∨ h.slotAt id layer + h.slotWidth layer ≤ s →
      window links s k = window h.links s k) {a l : Nat} (ha : h.Owns a l)
    (hne : ¬ (a = id ∧ l = layer)) :
    window links (h.slotAt a l) (h.countOf a l) = window h.links (h.slotAt a l) (h.countOf a l) := by
  have hle := S.counts_le a l ha
  apply hframe
  rcases S.slot_disjoint ha ho hne with hd | hd
  · left
    omega
  · right
    exact hd

/-- The count of an owned list is in range, and kept as a `u32`. -/
theorem storeCount_eq {id layer : Nat} (links : List Nat) (c : Nat) (ho : h.Owns id layer) :
    ({ h with links } : Hnsw).storeCount (h.base id + layer) c =
      .ok (h.withLinks links (h.linkCounts.set (h.base id + layer) (asU32 c))) :=
  if_pos (S.count_lt ho)

/-- `set_neighbors` writes from the start of the run. -/
theorem setNeighbors_eq {id layer : Nat} {ids : List Nat} (ho : h.Owns id layer)
    (hfit : ids.length ≤ h.slotWidth layer) :
    h.setNeighbors id layer ids = .ok (h.withLinks (splice h.links (h.slotAt id layer) ids)
      (h.linkCounts.set (h.base id + layer) (asU32 ids.length))) := by
  have hslot := S.slot_fits ho
  have hspan : h.slotAt id layer + ids.length ≤ h.links.length := by omega
  simp only [setNeighbors, S.layerSlot_eq layer ho.1.le, copyIntoLinks, overwrite_eq hspan,
    Outcome.ok_bind, pure, Except.pure, S.index_layerBase ho.1.le, S.storeCount_eq _ _ ho]

/-- `push_neighbor` writes behind the live part of the run. -/
theorem pushNeighbor_eq {id layer x : Nat} (ho : h.Owns id layer)
    (hcap : h.countOf id layer ≤ h.maxDegree layer) :
    h.pushNeighbor id layer x =
      .ok (h.withLinks (splice h.links (h.slotAt id layer + h.countOf id layer) [x])
        (h.linkCounts.set (h.base id + layer) (asU32 (h.countOf id layer + 1))),
          h.countOf id layer + 1) := by
  have hslot := S.slot_fits ho
  have hwidth : h.countOf id layer + 1 ≤ h.slotWidth layer := Nat.succ_le_succ hcap
  have hspan : h.slotAt id layer + h.countOf id layer + [x].length ≤ h.links.length := by
    rw [List.length_singleton]
    omega
  simp only [pushNeighbor, S.index_layerBase ho.1.le, Outcome.ok_bind, S.index_linkCounts ho,
    S.layerSlot_eq layer ho.1.le, copyIntoLinks]
  rw [overwrite_eq hspan]
  simp only [Outcome.ok_bind, pure, Except.pure, S.storeCount_eq _ _ ho]

end Slots

namespace Layout

variable {h : Hnsw} (L : Layout h)
include L

/-- Writing inside one slot run and setting its count changes that one list. -/
theorem relink {id layer c : Nat} {links : List Nat} (ho : h.Owns id layer)
    (hlen : links.length = h.links.length) (hc : c ≤ h.slotWidth layer)
    (hframe : ∀ s k, s + k ≤ h.slotAt id layer ∨ h.slotAt id layer + h.slotWidth layer ≤ s →
      window links s k = window h.links s k) :
    Relinked (Only id layer) h (h.withLinks links (h.linkCounts.set (h.base id + layer) c)) ∧
      (h.withLinks links (h.linkCounts.set (h.base id + layer) c)).nbrs id layer =
        window links (h.slotAt id layer) c := by
  set h' := h.withLinks links (h.linkCounts.set (h.base id + layer) c) with hh'
  have hcount : ∀ a l, h.Owns a l →
      h'.countOf a l = if a = id ∧ l = layer then c else h.countOf a l :=
    fun a l ha => L.slots.countOf_set links c ho ha
  have S := L.slots.relist ho hlen hc
  refine ⟨⟨rfl, ?_, ?_⟩, ?_⟩
  · exact { L with
      counts_len := S.counts_len
      counts_le := S.counts_le
      links_len := S.links_len }
  · intro a l hn
    by_cases ha : h.Owns a l
    · have hself : h'.nbrs a l = window links (h.slotAt a l) (h'.countOf a l) := if_pos ha
      have hold : h.nbrs a l = window h.links (h.slotAt a l) (h.countOf a l) := if_pos ha
      rw [hself, hold, hcount a l ha, if_neg (show ¬ (a = id ∧ l = layer) from hn)]
      exact L.slots.window_frame ho hframe ha hn
    · rw [nbrs_of_not_owns (show ¬ h'.Owns a l from ha), nbrs_of_not_owns ha]
  · have hself : h'.nbrs id layer = window links (h.slotAt id layer) (h'.countOf id layer) :=
      if_pos ho
    rw [hself, hcount id layer ho, if_pos ⟨rfl, rfl⟩]

/-- `set_neighbors` replaces one list. -/
theorem setNeighbors_spec {id layer : Nat} {ids : List Nat} (ho : h.Owns id layer)
    (hfit : ids.length ≤ h.slotWidth layer) :
    Ensures (h.setNeighbors id layer ids) fun h' =>
      Relinked (Only id layer) h h' ∧ h'.nbrs id layer = ids.take (asU32 ids.length) := by
  have hslot := L.slot_fits ho
  have hspan : h.slotAt id layer + ids.length ≤ h.links.length := by omega
  have hle : asU32 ids.length ≤ ids.length := Nat.mod_le ..
  rw [L.slots.setNeighbors_eq ho hfit, Outcome.ensures_ok]
  have hrel := L.relink (c := asU32 ids.length) ho (splice_length hspan) (hle.trans hfit)
    (fun s k hd => window_splice_of_disjoint hspan (by omega))
  exact ⟨hrel.1, hrel.2.trans (window_splice_self hspan hle)⟩

/-- `push_neighbor` appends to one list that is not over its cap. -/
theorem pushNeighbor_spec {id layer x : Nat} (ho : h.Owns id layer)
    (hcap : (h.nbrs id layer).length ≤ h.maxDegree layer) :
    Ensures (h.pushNeighbor id layer x) fun r =>
      Relinked (Only id layer) h r.1 ∧ r.2 = (h.nbrs id layer).length + 1 ∧
        r.1.nbrs id layer =
          (h.nbrs id layer ++ [x]).take (asU32 ((h.nbrs id layer).length + 1)) := by
  have hslot := L.slot_fits ho
  have hold : h.nbrs id layer = window h.links (h.slotAt id layer) (h.countOf id layer) :=
    if_pos ho
  rw [L.nbrs_length ho] at hcap ⊢
  rw [L.slots.pushNeighbor_eq ho hcap, Outcome.ensures_ok]
  set c := h.countOf id layer
  have hwidth : c + 1 ≤ h.slotWidth layer := Nat.succ_le_succ hcap
  have hspan : h.slotAt id layer + c + [x].length ≤ h.links.length := by
    rw [List.length_singleton]
    omega
  have hle : asU32 (c + 1) ≤ c + 1 := Nat.mod_le ..
  have hrel := L.relink (c := asU32 (c + 1)) ho (splice_length hspan) (hle.trans hwidth)
    (fun s k hd => window_splice_of_disjoint hspan (by rw [List.length_singleton]; omega))
  refine ⟨hrel.1, rfl, ?_⟩
  rw [hrel.2, ← window_take hle, window_splice_snoc (by omega), hold]

end Layout

/-! ## Storing a node -/

/-- `h` with one more node, of `levels` empty lists. -/
def withNode (h : Hnsw) (vector : List F32) (attrs : List AttrValue) (levels : Nat) : Hnsw :=
  { h with
    vectors := h.vectors ++ vector
    attrs := h.attrs ++ [attrs]
    deleted := h.deleted ++ [false]
    layerBase := h.layerBase ++ [h.base h.n + levels]
    linkCounts := h.linkCounts ++ List.replicate levels 0
    links := h.links ++ List.replicate (h.slotWidth 0 + (levels - 1) * h.slotWidth 1) 0
    n := h.n + 1 }

namespace Layout

variable {h : Hnsw} (L : Layout h) (vector : List F32) (attrs : List AttrValue) {levels : Nat}
include L

/-- `push_node` stores a node whose layers fit: the ids are not used up before the layers. -/
theorem pushNode_eq (hpos : 0 < levels) (hfit : h.base h.n + levels < 2 ^ 32) :
    h.pushNode vector attrs levels = .ok (h.withNode vector attrs levels, h.n) := by
  have hn := L.le_base le_rfl
  have hlevels : asU32 levels = levels := Nat.mod_eq_of_lt (by omega)
  have hsum : asU32 (h.base h.n + levels) = h.base h.n + levels := Nat.mod_eq_of_lt hfit
  have hroom : ¬ h.n ≥ maxNodes := by
    unfold maxNodes
    omega
  simp only [pushNode, if_neg hroom, L.index_layerBase le_rfl, Outcome.ok_bind, hlevels, hsum]
  rfl

/-- The offsets of the nodes before it stay. -/
theorem withNode_base {id : Nat} (hid : id ≤ h.n) :
    (h.withNode vector attrs levels).base id = h.base id := by
  have hlt : id < h.layerBase.length := by
    rw [L.base_len]
    omega
  simp only [base, withNode, List.getD_eq_getElem?_getD, List.getElem?_append_left hlt]

/-- The new last offset counts its layers. -/
theorem withNode_base_last :
    (h.withNode vector attrs levels).base (h.n + 1) = h.base h.n + levels := by
  have hlen : h.n + 1 = h.layerBase.length := L.base_len.symm
  have hlast : (h.withNode vector attrs levels).base (h.n + 1) =
      (h.layerBase ++ [h.base h.n + levels]).getD h.layerBase.length 0 := by
    rw [hlen]
    rfl
  rw [hlast, List.getD_eq_getElem?_getD, List.getElem?_concat_length]
  rfl

theorem withNode_levelsOf {id : Nat} (hid : id < h.n) :
    (h.withNode vector attrs levels).levelsOf id = h.levelsOf id := by
  unfold levelsOf
  rw [L.withNode_base vector attrs hid.le,
    L.withNode_base vector attrs (show id + 1 ≤ h.n from hid)]

theorem withNode_levelsOf_last :
    (h.withNode vector attrs levels).levelsOf h.n = levels := by
  unfold levelsOf
  rw [L.withNode_base vector attrs le_rfl, L.withNode_base_last vector attrs]
  omega

/-- The new node has its own layers, and the others theirs. -/
theorem withNode_owns (id layer : Nat) :
    (h.withNode vector attrs levels).Owns id layer ↔
      h.Owns id layer ∨ (id = h.n ∧ layer < levels) := by
  have hn : (h.withNode vector attrs levels).n = h.n + 1 := rfl
  unfold Owns
  rw [hn]
  rcases Nat.lt_trichotomy id h.n with hlt | rfl | hgt
  · rw [L.withNode_levelsOf vector attrs hlt]
    constructor
    · exact fun ho => Or.inl ⟨hlt, ho.2⟩
    · rintro (ho | ho)
      · exact ⟨by omega, ho.2⟩
      · omega
  · rw [L.withNode_levelsOf_last vector attrs]
    constructor
    · exact fun ho => Or.inr ⟨rfl, ho.2⟩
    · rintro (ho | ho)
      · omega
      · exact ⟨by omega, ho.2⟩
  · constructor
    · intro ho
      omega
    · rintro (ho | ho) <;> omega

theorem withNode_runStart {id : Nat} (hid : id ≤ h.n) :
    (h.withNode vector attrs levels).runStart id = h.runStart id := by
  unfold runStart
  rw [L.withNode_base vector attrs hid]
  rfl

/-- Counts are appended behind those there are. -/
theorem withNode_countOf {id layer : Nat} (ho : h.Owns id layer) :
    (h.withNode vector attrs levels).countOf id layer = h.countOf id layer := by
  unfold countOf
  rw [L.withNode_base vector attrs ho.1.le]
  simp only [withNode, List.getD_eq_getElem?_getD,
    List.getElem?_append_left (L.count_lt ho)]

/-- The new node's counts are zero. -/
theorem withNode_countOf_last (layer : Nat) :
    (h.withNode vector attrs levels).countOf h.n layer = 0 := by
  unfold countOf
  rw [L.withNode_base vector attrs le_rfl]
  simp only [withNode, List.getD_eq_getElem?_getD, List.getElem?_append, L.counts_len]
  rw [if_neg (by omega), List.getElem?_replicate]
  split_ifs <;> rfl

/-- Storing a node leaves every neighbor list as it was; the new node's are empty. -/
theorem withNode_nbrs (id layer : Nat) :
    (h.withNode vector attrs levels).nbrs id layer = h.nbrs id layer := by
  by_cases ho : h.Owns id layer
  · have hslot : (h.withNode vector attrs levels).slotAt id layer = h.slotAt id layer := by
      unfold slotAt
      rw [L.withNode_runStart vector attrs ho.1.le]
      rfl
    have hnew : (h.withNode vector attrs levels).Owns id layer :=
      (L.withNode_owns vector attrs id layer).mpr (Or.inl ho)
    unfold nbrs
    rw [if_pos ho, if_pos hnew, hslot, L.withNode_countOf vector attrs ho]
    exact window_append_left (L.window_fits ho)
  · rw [nbrs_of_not_owns ho]
    unfold nbrs
    split_ifs with hnew
    · rcases (L.withNode_owns vector attrs id layer).mp hnew with ho' | ⟨rfl, -⟩
      · exact absurd ho' ho
      · rw [L.withNode_countOf_last vector attrs, window_zero]
    · rfl

omit L in
theorem withNode_isDeleted (h : Hnsw) (id : Nat) :
    (h.withNode vector attrs levels).isDeleted id = h.isDeleted id := by
  simp only [isDeleted, withNode, List.getD_eq_getElem?_getD, List.getElem?_append]
  by_cases hid : id < h.deleted.length
  · rw [if_pos hid]
  · rw [if_neg hid, List.getElem?_eq_none (by omega : h.deleted.length ≤ id),
      List.getElem?_singleton]
    split_ifs <;> rfl

/-- A stored node is live. -/
theorem withNode_live (id : Nat) :
    (h.withNode vector attrs levels).Live id ↔ h.Live id ∨ id = h.n := by
  have hlast : h.isDeleted h.n = false := by
    unfold isDeleted
    rw [List.getD_eq_getElem?_getD, List.getElem?_eq_none (by rw [L.deleted_len])]
    rfl
  have hn : (h.withNode vector attrs levels).n = h.n + 1 := rfl
  unfold Live
  rw [withNode_isDeleted vector attrs, hn]
  constructor
  · rintro ⟨hid, hlive⟩
    rcases Nat.lt_or_ge id h.n with hlt | hge
    · exact Or.inl ⟨hlt, hlive⟩
    · exact Or.inr (by omega)
  · rintro (⟨hid, hlive⟩ | rfl)
    · exact ⟨by omega, hlive⟩
    · exact ⟨by omega, hlast⟩

theorem withNode_attrsOf {id : Nat} (hid : id < h.n) :
    (h.withNode vector attrs levels).attrsOf id = h.attrsOf id := by
  have hlt : id < h.attrs.length := by
    rw [L.attrs_len]
    exact hid
  simp only [attrsOf, withNode, List.getD_eq_getElem?_getD, List.getElem?_append_left hlt]

theorem withNode_attrsOf_last : (h.withNode vector attrs levels).attrsOf h.n = attrs := by
  have hlen : h.n = h.attrs.length := L.attrs_len.symm
  have hlast : (h.withNode vector attrs levels).attrsOf h.n =
      (h.attrs ++ [attrs]).getD h.attrs.length [] := by
    rw [← hlen]
    rfl
  rw [hlast, List.getD_eq_getElem?_getD, List.getElem?_concat_length]
  rfl

theorem withNode_vec {id : Nat} (hid : id < h.n) :
    (h.withNode vector attrs levels).vec id = h.vec id :=
  window_append_left (L.vector_fits hid)

/-- The new node's vector is the one given. -/
theorem withNode_vec_last (hdim : vector.length = h.dim) :
    (h.withNode vector attrs levels).vec h.n = vector := by
  show window (h.vectors ++ vector) (h.n * h.dim) h.dim = vector
  rw [← L.vectors_len, ← hdim]
  exact window_append_right

/-- **Storing a node** whose layers fit leaves a laid-out graph. -/
theorem withNode (hdim : vector.length = h.dim) (hpos : 0 < levels)
    (hfit : h.base h.n + levels < 2 ^ 32) : Layout (h.withNode vector attrs levels) where
  base_len := by
    have hlen := L.base_len
    simp only [Hnsw.withNode, List.length_append, List.length_singleton]
    omega
  base_zero := (L.withNode_base vector attrs (Nat.zero_le _)).trans L.base_zero
  base_lt id hid := by
    rcases Nat.lt_or_ge id h.n with hlt | hge
    · rw [L.withNode_base vector attrs hlt.le,
        L.withNode_base vector attrs (show id + 1 ≤ h.n from hlt)]
      exact L.base_lt id hlt
    · obtain rfl : id = h.n := Nat.le_antisymm (Nat.le_of_lt_succ hid) hge
      rw [L.withNode_base vector attrs le_rfl, L.withNode_base_last vector attrs]
      omega
  fits := (L.withNode_base_last vector attrs).trans_lt hfit
  counts_len := by
    refine Eq.trans ?_ (L.withNode_base_last vector attrs).symm
    simp only [Hnsw.withNode, List.length_append, List.length_replicate, L.counts_len]
  counts_le id layer ho := by
    rcases (L.withNode_owns vector attrs id layer).mp ho with ho' | ⟨rfl, -⟩
    · rw [L.withNode_countOf vector attrs ho']
      exact L.counts_le id layer ho'
    · rw [L.withNode_countOf_last vector attrs]
      exact Nat.zero_le _
  links_len := by
    have hsucc : (h.withNode vector attrs levels).runStart (h.n + 1) =
        h.runStart h.n + (h.slotWidth 0 + (levels - 1) * h.slotWidth 1) := by
      have hle := L.le_base le_rfl
      have hupper : h.base h.n + levels - (h.n + 1) = (h.base h.n - h.n) + (levels - 1) := by
        omega
      have hrun : (h.withNode vector attrs levels).runStart (h.n + 1) =
          (h.n + 1) * h.slotWidth 0 +
            ((h.withNode vector attrs levels).base (h.n + 1) - (h.n + 1)) * h.slotWidth 1 := rfl
      rw [hrun, L.withNode_base_last vector attrs, hupper]
      unfold runStart
      rw [Nat.add_mul, Nat.add_mul]
      omega
    refine Eq.trans ?_ hsucc.symm
    simp only [Hnsw.withNode, List.length_append, List.length_replicate, L.links_len]
  vectors_len := by
    have hsum : (h.n + 1) * h.dim = h.n * h.dim + h.dim := Nat.add_one_mul ..
    simp only [Hnsw.withNode, List.length_append, L.vectors_len, hdim]
    omega
  attrs_len := by
    simp only [Hnsw.withNode, List.length_append, List.length_singleton, L.attrs_len]
  deleted_len := by
    simp only [Hnsw.withNode, List.length_append, List.length_singleton, L.deleted_len]

end Layout

end Hnsw

end Brindle
