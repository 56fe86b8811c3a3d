/-
# Brindle.Hnsw.WellFormed — the structural invariant, and that every operation keeps it.

`Sound h` is what an insert needs of the graph it is given: laid out, links in range, no list over
its cap, a usable entry point. `WellFormed h` is the full structural invariant of a graph the index
builds itself: lists free of duplicates and self-links, every neighbor owning the layer it is linked
at, and the entry point on the top layer. `insert`, `delete` and `compact` keep it, whatever levels
are drawn.
-/
import Brindle.Hnsw.InsertSpec
import Brindle.Lib.Run

namespace Brindle

open Outcome (Ensures ensures_ok ensures_pure ensures_foldlM ensures_foldlM_const)

namespace Hnsw

/-- What the insert path relies on. -/
structure Sound (h : Hnsw) : Prop extends InRange h where
  capped : Capped h
  dim_pos : 0 < h.n → 0 < h.dim
  dim_le : h.dim ≤ HnswParams.maxDim
  entry_lt : ∀ e, h.entryPoint = some e → e < h.n

/-- The structural invariant. -/
structure WellFormed (h : Hnsw) : Prop extends Sound h where
  nodup : ∀ id layer, (h.nbrs id layer).Nodup
  irrefl : ∀ id layer, id ∉ h.nbrs id layer
  owned : ∀ id layer, ∀ x ∈ h.nbrs id layer, h.Owns x layer
  empty : h.n = 0 → h.entryPoint = none ∧ h.maxLayer = 0
  entry : 0 < h.n → ∃ e, h.entryPoint = some e ∧ e < h.n ∧ h.levelsOf e = h.maxLayer + 1
  top : ∀ id < h.n, h.levelsOf id ≤ h.maxLayer + 1

/-- The entry point has lists at every layer. -/
theorem WellFormed.entry_owns {h : Hnsw} (W : WellFormed h) {e : Nat} (he : h.entryPoint = some e) :
    h.Owns e h.maxLayer := by
  obtain ⟨e', he', hlt, htop⟩ := W.entry (Nat.zero_lt_of_lt (W.entry_lt e he))
  obtain rfl : e = e' := Option.some.inj (he.symm.trans he')
  refine ⟨hlt, ?_⟩
  rw [htop]
  exact Nat.lt_succ_self _

/-! ## The empty graph -/

theorem nbrs_of_n_zero {h : Hnsw} (hn : h.n = 0) (id layer : Nat) : h.nbrs id layer = [] :=
  Layout.nbrs_of_not_owns fun ho => by
    have := ho.1
    omega

theorem WellFormed.new [Arith] (params : HnswParams) : WellFormed (Hnsw.new params) := by
  have hn : (Hnsw.new params).n = 0 := rfl
  have hnbrs := nbrs_of_n_zero hn
  have hlevels : ∀ id < (Hnsw.new params).n, False := fun id hid => by omega
  exact
    { base_len := rfl
      base_zero := rfl
      base_lt := fun id hid => (hlevels id hid).elim
      fits := Nat.two_pow_pos 32
      counts_len := rfl
      counts_le := fun id _ ho => (hlevels id ho.1).elim
      links_len := by simp [Hnsw.new, runStart, base]
      vectors_len := rfl
      attrs_len := rfl
      deleted_len := rfl
      links_lt := fun id layer x hx => by rw [hnbrs] at hx; cases hx
      capped := fun id layer => by rw [hnbrs]; exact Nat.zero_le _
      dim_pos := fun hpos => (hlevels 0 hpos).elim
      dim_le := Nat.zero_le _
      entry_lt := nofun
      nodup := fun id layer => by rw [hnbrs]; exact List.nodup_nil
      irrefl := fun id layer => by rw [hnbrs]; exact List.not_mem_nil
      owned := fun id layer x hx => by rw [hnbrs] at hx; cases hx
      empty := fun _ => ⟨rfl, rfl⟩
      entry := fun hpos => (hlevels 0 hpos).elim
      top := fun id hid => (hlevels id hid).elim }

/-! ## Deletion -/

theorem delete_eq {h h' : Hnsw} {id : Nat} (hdel : h.delete id = .ok h') :
    id < h.deleted.length ∧ h' = { h with deleted := h.deleted.set id true } := by
  unfold delete at hdel
  split_ifs at hdel with hid
  cases hdel
  exact ⟨by omega, rfl⟩

/-- A delete tombstones its row and no other. -/
theorem delete_live {h g : Hnsw} {id : Nat} (hdel : h.delete id = .ok g) (x : Nat) :
    g.Live x ↔ x ≠ id ∧ h.Live x := by
  obtain ⟨hid, hset⟩ := delete_eq hdel
  have hget : g.isDeleted x = if x = id then true else h.isDeleted x := by
    rw [hset, isDeleted, List.getD_eq_getElem?_getD, List.getElem?_set]
    by_cases hx : x = id
    · simp [hx, hid]
    · simp [hx, Ne.symm hx, isDeleted, List.getD_eq_getElem?_getD]
  have hn : g.n = h.n := by rw [hset]
  unfold Live
  rw [hget, hn]
  by_cases hx : x = id <;> simp [hx]

theorem delete_eq_ok {h : Hnsw} {id : Nat} (hid : id < h.deleted.length) :
    h.delete id = .ok { h with deleted := h.deleted.set id true } := by
  unfold delete
  exact if_neg (by omega)

theorem InRange.setDeleted {h : Hnsw} (H : InRange h) {deleted : List Bool}
    (hlen : deleted.length = h.deleted.length) : InRange { h with deleted } :=
  { H with deleted_len := hlen.trans H.deleted_len }

theorem WellFormed.delete {h h' : Hnsw} {id : Nat} (W : WellFormed h)
    (hdel : h.delete id = .ok h') : WellFormed h' := by
  obtain ⟨-, rfl⟩ := delete_eq hdel
  exact { W with toInRange := W.toInRange.setDeleted (List.length_set ..) }

/-! ## Insertion -/

/-- `h` with the checks passed and the generator advanced. -/
def prepared (h : Hnsw) (vector : List F32) : Hnsw :=
  { h with dim := vector.length, rng := xorshift64 h.rng }

/-- `h` with the new node stored and not yet linked. -/
def stored (h : Hnsw) (vector : List F32) (attrs : List AttrValue) (level : Nat) : Hnsw :=
  (h.prepared vector).withNode vector attrs (level + 1)

/-- The vector is one an insert accepts. -/
def Accepts (h : Hnsw) (vector : List F32) : Prop :=
  vector ≠ [] ∧ vector.length ≤ HnswParams.maxDim ∧ (h.dim = 0 ∨ h.dim = vector.length)

theorem acceptVector_ok {h : Hnsw} {vector : List F32} (ha : h.Accepts vector) :
    h.acceptVector vector = .ok { h with dim := vector.length } := by
  obtain ⟨hne, hle, hdim⟩ := ha
  have hempty : vector.isEmpty = false := by simpa using hne
  unfold acceptVector
  rw [hempty, if_neg Bool.false_ne_true, if_neg (by omega)]
  split_ifs with hzero hmismatch
  · rfl
  · omega
  · rw [show vector.length = h.dim by omega]

theorem acceptVector_error {h : Hnsw} {vector : List F32} (ha : ¬ h.Accepts vector) :
    ∃ e, h.acceptVector vector = .error e := by
  unfold acceptVector
  split_ifs with hempty hlong hzero hmismatch
  · exact ⟨_, rfl⟩
  · exact ⟨_, rfl⟩
  · refine absurd ⟨?_, by omega, Or.inl hzero⟩ ha
    simpa using hempty
  · exact ⟨_, rfl⟩
  · refine absurd ⟨?_, by omega, Or.inr (by omega)⟩ ha
    simpa using hempty

section Insertion

variable {h : Hnsw} (S : Sound h) {vector : List F32} (ha : h.Accepts vector)
  (attrs : List AttrValue) {level : Nat} (hfit : h.base h.n + (level + 1) < 2 ^ 32)
include S ha

theorem Sound.prepared_layout : Layout (h.prepared vector) := by
  refine { S.toLayout with vectors_len := ?_ }
  rcases Nat.eq_zero_or_pos h.n with hn | hn
  · have hlen := S.vectors_len
    rw [hn, Nat.zero_mul] at hlen
    show h.vectors.length = h.n * vector.length
    rw [hn, Nat.zero_mul, hlen]
  · have hdim := S.dim_pos hn
    have hsame : h.dim = vector.length := by
      rcases ha.2.2 with hzero | hsame
      · omega
      · exact hsame
    exact S.vectors_len.trans (congrArg (h.n * ·) hsame)

include hfit in
theorem Sound.stored_layout : Layout (h.stored vector attrs level) :=
  (S.prepared_layout ha).withNode vector attrs rfl (Nat.succ_pos _) hfit

theorem Sound.stored_nbrs (id layer : Nat) :
    (h.stored vector attrs level).nbrs id layer = h.nbrs id layer :=
  (S.prepared_layout ha).withNode_nbrs vector attrs id layer

theorem Sound.stored_owns (id layer : Nat) :
    (h.stored vector attrs level).Owns id layer ↔
      h.Owns id layer ∨ (id = h.n ∧ layer < level + 1) :=
  (S.prepared_layout ha).withNode_owns vector attrs id layer

theorem Sound.stored_levelsOf {id : Nat} (hid : id < h.n) :
    (h.stored vector attrs level).levelsOf id = h.levelsOf id :=
  (S.prepared_layout ha).withNode_levelsOf vector attrs hid

theorem Sound.stored_levelsOf_last :
    (h.stored vector attrs level).levelsOf h.n = level + 1 :=
  (S.prepared_layout ha).withNode_levelsOf_last vector attrs

theorem Sound.stored_live (id : Nat) :
    (h.stored vector attrs level).Live id ↔ h.Live id ∨ id = h.n :=
  (S.prepared_layout ha).withNode_live vector attrs id

include hfit in
theorem Sound.stored_inRange : InRange (h.stored vector attrs level) where
  toLayout := S.stored_layout ha attrs hfit
  links_lt id layer x hx := by
    rw [S.stored_nbrs ha attrs] at hx
    exact (S.links_lt id layer x hx).trans (Nat.lt_succ_self _)

theorem Sound.stored_capped : Capped (h.stored vector attrs level) := fun id layer => by
  rw [S.stored_nbrs ha attrs]
  exact S.capped id layer

/-- The new node is in no list yet. -/
theorem Sound.stored_fresh (id layer : Nat) :
    h.n ∉ (h.stored vector attrs level).nbrs id layer := fun hmem => by
  rw [S.stored_nbrs ha attrs] at hmem
  exact Nat.lt_irrefl _ (S.links_lt id layer h.n hmem)

variable [Arith]

include hfit in
/-- An accepted insert stores its node and links it. -/
theorem insertDrawn_accepted :
    h.insertDrawn vector attrs level = (do
      let h' ← (h.stored vector attrs level).linkNode h.n level
      return (h', .ok h.n)) := by
  have hpush : (h.prepared vector).pushNode vector attrs (level + 1) =
      .ok (h.stored vector attrs level, h.n) :=
    (S.prepared_layout ha).pushNode_eq vector attrs (Nat.succ_pos _) hfit
  unfold insertDrawn
  rw [acceptVector_ok ha]
  unfold prepared at hpush
  dsimp only [storeAndLink]
  rw [hpush]

omit [Arith] in
/-- The new node owns its layers, and the entry point is another node. -/
theorem Sound.stored_links :
    (∀ l ≤ level, (h.stored vector attrs level).Owns h.n l) ∧
      ∀ e, (h.stored vector attrs level).entryPoint = some e →
        e < (h.stored vector attrs level).n ∧ e ≠ h.n := by
  refine ⟨fun l hl => (S.stored_owns ha attrs h.n l).mpr (Or.inr ⟨rfl, Nat.lt_succ_of_le hl⟩),
    fun e he => ?_⟩
  have hlt : e < h.n := S.entry_lt e he
  exact ⟨hlt.trans (Nat.lt_succ_self _), hlt.ne⟩

include hfit in
/-- **An accepted insert.** The searches of the insert link the new node to a plan; when every node
of it owns the layer it is linked at, the insert returns the graph wired by that plan. -/
theorem insertDrawn_spec
    (howned : ∀ plan, (h.stored vector attrs level).linkPlan h.n level = .ok plan →
      ∀ p ∈ plan, ∀ x ∈ p.2, (h.stored vector attrs level).Owns x p.1) :
    Ensures (h.insertDrawn vector attrs level) fun r => r.2 = .ok h.n ∧ ∃ plan g,
      (h.stored vector attrs level).linkPlan h.n level = .ok plan ∧
      PlanOk (h.stored vector attrs level) h.n plan ∧
      Wired (h.stored vector attrs level) g h.n plan ∧ r.1 = settleEntry g h.n level := by
  rw [insertDrawn_accepted S ha attrs hfit]
  obtain ⟨hid, hentry⟩ := S.stored_links ha attrs
  refine (linkNode_spec (S.stored_inRange ha attrs hfit) (S.stored_capped ha attrs) hid
    (S.stored_fresh ha attrs) hentry howned).bind ?_
  rintro h' ⟨plan, g, hplan, hok, W, rfl⟩
  exact ensures_pure.mpr ⟨rfl, plan, g, hplan, hok, W, rfl⟩

end Insertion

/-! ## The entry point moves last -/

section Settle

variable (g : Hnsw) (id level : Nat)

/-- Only the entry point and the top layer change. -/
theorem settleEntry_field {β : Type} (f : Hnsw → β)
    (hf : ∀ e t, f { g with entryPoint := e, maxLayer := t } = f g) :
    f (settleEntry g id level) = f g := by
  unfold settleEntry
  split
  · exact hf _ _
  · split_ifs
    · exact hf _ _
    · rfl

theorem settleEntry_nbrs (a l : Nat) : (settleEntry g id level).nbrs a l = g.nbrs a l :=
  settleEntry_field g id level (fun g => g.nbrs a l) fun _ _ => rfl

theorem settleEntry_n : (settleEntry g id level).n = g.n :=
  settleEntry_field g id level Hnsw.n fun _ _ => rfl

theorem settleEntry_dim : (settleEntry g id level).dim = g.dim :=
  settleEntry_field g id level Hnsw.dim fun _ _ => rfl

theorem settleEntry_levelsOf (a : Nat) : (settleEntry g id level).levelsOf a = g.levelsOf a :=
  settleEntry_field g id level (fun g => g.levelsOf a) fun _ _ => rfl

theorem settleEntry_maxDegree (l : Nat) : (settleEntry g id level).maxDegree l = g.maxDegree l :=
  settleEntry_field g id level (fun g => g.maxDegree l) fun _ _ => rfl

theorem settleEntry_owns (a l : Nat) : (settleEntry g id level).Owns a l ↔ g.Owns a l := by
  unfold Owns
  rw [settleEntry_n, settleEntry_levelsOf]

theorem settleEntry_live (a : Nat) : (settleEntry g id level).Live a ↔ g.Live a := by
  unfold Live
  rw [settleEntry_n, settleEntry_field g id level (fun g => g.isDeleted a) fun _ _ => rfl]

theorem settleEntry_base (a : Nat) : (settleEntry g id level).base a = g.base a :=
  settleEntry_field g id level (fun g => g.base a) fun _ _ => rfl

variable {g}

theorem InRange.settleEntry (G : InRange g) : InRange (settleEntry g id level) := by
  have hset : ∀ e t, InRange { g with entryPoint := e, maxLayer := t } :=
    fun _ _ => { G with }
  unfold Hnsw.settleEntry
  split
  · exact hset _ _
  · split_ifs
    · exact hset _ _
    · exact G

theorem settleEntry_none (he : g.entryPoint = none) :
    (settleEntry g id level).entryPoint = some id ∧ (settleEntry g id level).maxLayer = level := by
  simp only [settleEntry, he, and_self]

theorem settleEntry_some {e : Nat} (he : g.entryPoint = some e) :
    (level ≤ g.maxLayer ∧ (settleEntry g id level).entryPoint = some e ∧
        (settleEntry g id level).maxLayer = g.maxLayer) ∨
      (g.maxLayer < level ∧ (settleEntry g id level).entryPoint = some id ∧
        (settleEntry g id level).maxLayer = level) := by
  simp only [settleEntry, he]
  split_ifs with hup
  · exact Or.inr ⟨hup, rfl, rfl⟩
  · exact Or.inl ⟨not_lt.mp hup, he, rfl⟩

end Settle

/-- What one list of a wired graph is. -/
theorem Wired.cases {h g : Hnsw} {id : Nat} {plan : List (Nat × List Nat)} (W : Wired h g id plan)
    (a l : Nat) : (∃ p ∈ plan, p.1 = l ∧ a = id ∧ g.nbrs a l = p.2) ∨
      (∃ p ∈ plan, p.1 = l ∧ a ∈ p.2 ∧ Gained h g id l a) ∨ g.nbrs a l = h.nbrs a l := by
  by_cases ht : PlanTouches plan id a l
  · obtain ⟨selected, hmem, rfl | ha⟩ := ht
    · exact Or.inl ⟨(l, selected), hmem, rfl, rfl, W.own (l, selected) hmem⟩
    · exact Or.inr (Or.inl ⟨(l, selected), hmem, rfl, ha, W.gained (l, selected) hmem a ha⟩)
  · exact Or.inr (Or.inr (W.relinked.frame a l ht))

section InsertKeeps

variable [Arith] {h : Hnsw} {vector : List F32} (attrs : List AttrValue) {level : Nat}

/-- Every node an insert finds while descending owns the layer it is found at. -/
theorem WellFormed.plan_owned (W : WellFormed h) (ha : h.Accepts vector)
    (hfit : h.base h.n + (level + 1) < 2 ^ 32) :
    Ensures ((h.stored vector attrs level).linkPlan h.n level) fun plan => ∀ p ∈ plan,
      p.1 ≤ min level h.maxLayer ∧ ∀ x ∈ p.2, (h.stored vector attrs level).Owns x p.1 := by
  have S := W.toSound
  have hown : ∀ a l, (h.stored vector attrs level).Owns a l ↔ _ := S.stored_owns ha attrs
  have hguides : Guides (h.stored vector attrs level)
      fun l x => (h.stored vector attrs level).Owns x l := by
    refine ⟨fun l a _ x hx => ?_, fun hle ho => ⟨ho.1, hle.trans_lt ho.2⟩⟩
    rw [S.stored_nbrs ha attrs] at hx
    exact (hown x l).mpr (Or.inl (W.owned a l x hx))
  have hentry : ∀ e, (h.stored vector attrs level).entryPoint = some e →
      e < (h.stored vector attrs level).n ∧
        (h.stored vector attrs level).Owns e (h.stored vector attrs level).maxLayer := by
    intro e he
    have hlt : e < h.n := S.entry_lt e he
    exact ⟨hlt.trans (Nat.lt_succ_self _), (hown e _).mpr (Or.inl (W.entry_owns he))⟩
  have hn : h.n < (h.stored vector attrs level).n := Nat.lt_succ_self _
  refine (linkPlan_spec (S.stored_inRange ha attrs hfit) hguides level hn hentry).mono ?_
  exact fun plan hall p hp => ⟨(hall p hp).1, (hall p hp).2.2⟩

section Wired

variable (W : WellFormed h) (ha : h.Accepts vector) {plan : List (Nat × List Nat)} {g : Hnsw}
  (hok : PlanOk (h.stored vector attrs level) h.n plan)
  (hw : Wired (h.stored vector attrs level) g h.n plan)
include W ha hok hw

omit [Arith] in
theorem WellFormed.wired_capped (a l : Nat) : (g.nbrs a l).length ≤ g.maxDegree l := by
  rw [hw.relinked.maxDegree_eq]
  rcases hw.cases a l with ⟨p, hp, rfl, -, heq⟩ | ⟨p, hp, rfl, -, hgain⟩ | heq
  · rw [heq]
    exact (hok.choice p hp).length_le
  · exact hgain.capped
  · rw [heq]
    exact W.toSound.stored_capped ha attrs a l

omit [Arith] in
theorem WellFormed.wired_nodup (a l : Nat) : (g.nbrs a l).Nodup := by
  rcases hw.cases a l with ⟨p, hp, rfl, -, heq⟩ | ⟨p, hp, rfl, -, hgain⟩ | heq
  · rw [heq]
    exact (hok.choice p hp).nodup
  · refine hgain.nodup ?_ (W.toSound.stored_fresh ha attrs a p.1)
    rw [W.toSound.stored_nbrs ha attrs]
    exact W.nodup a p.1
  · rw [heq, W.toSound.stored_nbrs ha attrs]
    exact W.nodup a l

omit [Arith] in
theorem WellFormed.wired_irrefl (a l : Nat) : a ∉ g.nbrs a l := by
  intro hmem
  rcases hw.cases a l with ⟨p, hp, rfl, rfl, heq⟩ | ⟨p, hp, rfl, hsel, hgain⟩ | heq
  · rw [heq] at hmem
    exact hok.fresh p hp hmem
  · rcases hgain.sub a hmem with rfl | hold
    · exact hok.fresh p hp hsel
    · rw [W.toSound.stored_nbrs ha attrs] at hold
      exact W.irrefl a p.1 hold
  · rw [heq, W.toSound.stored_nbrs ha attrs] at hmem
    exact W.irrefl a l hmem

omit [Arith] in
theorem WellFormed.wired_owned (hlevel : ∀ p ∈ plan, p.1 ≤ min level h.maxLayer) (a l : Nat) :
    ∀ x ∈ g.nbrs a l, g.Owns x l := by
  have hown : ∀ a l, (h.stored vector attrs level).Owns a l ↔ _ := W.toSound.stored_owns ha attrs
  intro x hx
  rw [hw.relinked.owns_iff]
  rcases hw.cases a l with ⟨p, hp, rfl, -, heq⟩ | ⟨p, hp, rfl, -, hgain⟩ | heq
  · rw [heq] at hx
    exact hok.owned p hp x hx
  · rcases hgain.sub x hx with rfl | hold
    · have hle := Nat.le_min.mp (hlevel p hp)
      exact (hown h.n p.1).mpr (Or.inr ⟨rfl, Nat.lt_succ_of_le hle.1⟩)
    · rw [W.toSound.stored_nbrs ha attrs] at hold
      exact (hown x p.1).mpr (Or.inl (W.owned a p.1 x hold))
  · rw [heq, W.toSound.stored_nbrs ha attrs] at hx
    exact (hown x l).mpr (Or.inl (W.owned a l x hx))

omit [Arith] hok in
/-- The entry point and the top layer, by what the insert did with them. -/
theorem WellFormed.wired_entry :
    ∃ e, (settleEntry g h.n level).entryPoint = some e ∧ e < g.n ∧
      g.levelsOf e = (settleEntry g h.n level).maxLayer + 1 ∧
      ∀ a < g.n, g.levelsOf a ≤ (settleEntry g h.n level).maxLayer + 1 := by
  have R := hw.relinked
  have hgn : g.n = h.n + 1 := R.n_eq
  have hge : g.entryPoint = h.entryPoint := R.entryPoint_eq
  have hgm : g.maxLayer = h.maxLayer := R.maxLayer_eq
  have hlevels : ∀ a < h.n, g.levelsOf a = h.levelsOf a := fun a hlt =>
    (R.levelsOf_eq a).trans (W.toSound.stored_levelsOf ha attrs hlt)
  have hlast : g.levelsOf h.n = level + 1 :=
    (R.levelsOf_eq h.n).trans (W.toSound.stored_levelsOf_last ha attrs)
  have hbound : ∀ t, level ≤ t → h.maxLayer ≤ t ∨ h.n = 0 → ∀ a < g.n, g.levelsOf a ≤ t + 1 := by
    intro t hl hm a halt
    rcases Nat.lt_or_ge a h.n with hold | hnew
    · rw [hlevels a hold]
      have := W.top a hold
      omega
    · obtain rfl : a = h.n := by omega
      rw [hlast]
      omega
  rcases Nat.eq_zero_or_pos h.n with hn | hn
  · -- the first node is the entry point
    obtain ⟨he, hm⟩ := settleEntry_none h.n level (hge.trans (W.empty hn).1)
    refine ⟨h.n, he, by omega, by rw [hlast, hm], ?_⟩
    rw [hm]
    exact hbound level le_rfl (Or.inr hn)
  · obtain ⟨e, he, helt, htop⟩ := W.entry hn
    rcases settleEntry_some h.n level (hge.trans he) with ⟨hle, he', hm⟩ | ⟨hlt', he', hm⟩
    · rw [hgm] at hle hm
      refine ⟨e, he', by omega, by rw [hlevels e helt, hm, htop], ?_⟩
      rw [hm]
      exact hbound h.maxLayer hle (Or.inl le_rfl)
    · -- a node above the top layer takes over
      rw [hgm] at hlt'
      refine ⟨h.n, he', by omega, by rw [hlast, hm], ?_⟩
      rw [hm]
      exact hbound level le_rfl (Or.inl hlt'.le)

omit [Arith] in
/-- Wiring a new node into a well-formed graph gives a well-formed graph. -/
theorem WellFormed.wired (hfit : h.base h.n + (level + 1) < 2 ^ 32)
    (hlevel : ∀ p ∈ plan, p.1 ≤ min level h.maxLayer) : WellFormed (settleEntry g h.n level) := by
  have R := hw.relinked
  have hlt : ∀ p ∈ plan, ∀ x ∈ p.2, x < (h.stored vector attrs level).n :=
    fun p hp x hx => (hok.owned p hp x hx).1
  have G : InRange g :=
    hw.inRange (W.toSound.stored_inRange ha attrs hfit) (Nat.lt_succ_self _) hlt
  obtain ⟨e, he, helt, hetop, htop⟩ := W.wired_entry attrs ha hw
  have hdim : (settleEntry g h.n level).dim = vector.length :=
    (settleEntry_dim g h.n level).trans R.dim_eq
  exact
    { toInRange := G.settleEntry h.n level
      capped := fun a l => by
        rw [settleEntry_nbrs, settleEntry_maxDegree]
        exact W.wired_capped attrs ha hok hw a l
      dim_pos := fun _ => by
        rw [hdim]
        exact List.length_pos_iff.mpr ha.1
      dim_le := hdim ▸ ha.2.1
      entry_lt := fun e' he' => by
        rw [he] at he'
        cases he'
        rw [settleEntry_n]
        exact helt
      nodup := fun a l => by
        rw [settleEntry_nbrs]
        exact W.wired_nodup attrs ha hok hw a l
      irrefl := fun a l => by
        rw [settleEntry_nbrs]
        exact W.wired_irrefl attrs ha hok hw a l
      owned := fun a l x hx => by
        rw [settleEntry_nbrs] at hx
        exact (settleEntry_owns g h.n level x l).mpr (W.wired_owned attrs ha hok hw hlevel a l x hx)
      empty := fun hn => by
        rw [settleEntry_n, show g.n = h.n + 1 from R.n_eq] at hn
        cases hn
      entry := fun _ => ⟨e, he, by rw [settleEntry_n]; exact helt,
        by rw [settleEntry_levelsOf]; exact hetop⟩
      top := fun a halt => by
        rw [settleEntry_n] at halt
        rw [settleEntry_levelsOf]
        exact htop a halt }

end Wired

/-- An accepted insert into a well-formed graph wires the new node by a plan that links nodes at
layers they own, none above the top one. -/
theorem WellFormed.insertDrawn_wired (W : WellFormed h) (ha : h.Accepts vector)
    (hfit : h.base h.n + (level + 1) < 2 ^ 32) :
    Ensures (h.insertDrawn vector attrs level) fun r => r.2 = .ok h.n ∧ ∃ plan g,
      (∀ p ∈ plan, p.1 ≤ min level h.maxLayer) ∧
      PlanOk (h.stored vector attrs level) h.n plan ∧
      Wired (h.stored vector attrs level) g h.n plan ∧ r.1 = settleEntry g h.n level := by
  obtain ⟨plan, hplan, hall⟩ := W.plan_owned attrs ha hfit
  have howned : ∀ plan', (h.stored vector attrs level).linkPlan h.n level = .ok plan' →
      ∀ p ∈ plan', ∀ x ∈ p.2, (h.stored vector attrs level).Owns x p.1 := by
    intro plan' hplan' p hp
    rw [hplan] at hplan'
    cases hplan'
    exact (hall p hp).2
  refine (insertDrawn_spec W.toSound ha attrs hfit howned).mono ?_
  rintro r ⟨hr, plan', g, hplan', hok, hw, hset⟩
  rw [hplan] at hplan'
  cases hplan'
  exact ⟨hr, plan, g, fun p hp => (hall p hp).1, hok, hw, hset⟩

/-- **An insert into a well-formed graph** whose layer total fits a `u32`: it returns, the graph is
well formed, and an accepted vector got the next id. -/
theorem WellFormed.insertDrawn (W : WellFormed h) (vector : List F32)
    (hfit : h.base h.n + (level + 1) < 2 ^ 32) :
    Ensures (h.insertDrawn vector attrs level) fun r => WellFormed r.1 ∧
      (h.Accepts vector → r.2 = .ok h.n ∧ r.1.n = h.n + 1 ∧ r.1.dim = vector.length ∧
        r.1.base r.1.n = h.base h.n + (level + 1)) := by
  by_cases ha : h.Accepts vector
  · refine (W.insertDrawn_wired attrs ha hfit).mono ?_
    rintro ⟨h', r⟩ ⟨hr, plan, g, hlevel, hok, hw, hset⟩
    dsimp only at hr hset ⊢
    subst hset
    have hn : (settleEntry g h.n level).n = h.n + 1 :=
      (settleEntry_n g h.n level).trans hw.relinked.n_eq
    refine ⟨W.wired attrs ha hok hw hfit hlevel, fun _ =>
      ⟨hr, hn, (settleEntry_dim g h.n level).trans hw.relinked.dim_eq, ?_⟩⟩
    rw [hn, settleEntry_base, hw.relinked.base_eq]
    exact (W.toSound.prepared_layout ha).withNode_base_last vector attrs
  · obtain ⟨e, he⟩ := acceptVector_error ha
    unfold Hnsw.insertDrawn
    rw [he]
    exact ensures_ok.mpr ⟨W, fun ha' => absurd ha' ha⟩

end InsertKeeps

/-! ## Compaction -/

section Compaction

variable [Arith] {h : Hnsw}

omit [Arith] in
theorem Layout.attrsOf_mem (L : Layout h) {id : Nat} (hid : id < h.n) : h.attrsOf id ∈ h.attrs := by
  have hlt : id < h.attrs.length := by
    rw [L.attrs_len]
    exact hid
  unfold attrsOf
  rw [List.getD_eq_getElem?_getD, List.getElem?_eq_getElem hlt]
  exact List.getElem_mem hlt

omit [Arith] in
theorem liveRows_spec (L : Layout h) :
    Ensures h.liveRows fun rows =>
      ∀ row ∈ rows, 0 < h.n ∧ row.1.length = h.dim ∧ row.2 ∈ h.attrs := by
  unfold liveRows
  refine ensures_foldlM_const (fun rows : List (List F32 × List AttrValue) =>
    ∀ row ∈ rows, 0 < h.n ∧ row.1.length = h.dim ∧ row.2 ∈ h.attrs) _ ?_ nofun
  intro id hid rows hrows
  have hlt : id < h.n := by
    rw [L.deleted_len] at hid
    exact List.mem_range.mp hid
  simp only [L.index_deleted hlt, L.vector_eq hlt, L.index_attrs hlt, Outcome.ok_bind]
  split_ifs
  · exact ensures_pure.mpr hrows
  · refine ensures_pure.mpr fun row hrow => ?_
    rcases List.mem_append.mp hrow with hrow | hrow
    · exact hrows row hrow
    · rw [List.mem_singleton.mp hrow]
      exact ⟨by omega, L.vec_length hlt, L.attrsOf_mem hlt⟩

omit [Arith] in
/-- The layers a list of rows takes up when row `i` draws level `draws[i]`. -/
def drawnLayers {β : Type} (rows : List (β × Nat)) (draws : List Nat) : Nat :=
  (rows.map fun row => draws.getD row.2 0 + 1).sum

/-- **Compaction.** Whatever levels its inserts draw, it rebuilds a well-formed graph of the live
rows, and no insert of it is refused. -/
theorem WellFormed.compactDrawn (W : WellFormed h) (draws : List Nat)
    (hfit : ∀ rows, h.liveRows = .ok rows → drawnLayers rows.zipIdx draws < 2 ^ 32) :
    Ensures (h.compactDrawn draws) fun r => WellFormed r.1 := by
  obtain ⟨rows, hrows, hdims⟩ := liveRows_spec W.toLayout
  have hbound := hfit rows hrows
  simp only [Hnsw.compactDrawn, hrows, Outcome.ok_bind]
  refine Ensures.bind (P := WellFormed) ?_ fun g hg => ensures_pure.mpr hg
  refine (ensures_foldlM (fun done (g : Hnsw) => WellFormed g ∧
    g.base g.n = drawnLayers done draws ∧ (g.dim = 0 ∨ g.dim = h.dim)) _ ?_ ?_).mono
    fun g hg => hg.1
  · rintro done ⟨row, i⟩ rest g hsplit ⟨hg, hbase, hdim⟩
    have hmem : row ∈ rows := by
      have hin : (row, i) ∈ rows.zipIdx := by simp [hsplit]
      obtain ⟨_, hlt, hget⟩ := List.mem_zipIdx hin
      exact hget ▸ List.getElem_mem _
    obtain ⟨hpos, hlen, -⟩ := hdims row hmem
    have ha : g.Accepts row.1 := by
      refine ⟨?_, hlen ▸ W.dim_le, hlen ▸ hdim⟩
      have := W.dim_pos hpos
      exact List.ne_nil_of_length_pos (by omega)
    have hfits : g.base g.n + (draws.getD i 0 + 1) < 2 ^ 32 := by
      have hsum : drawnLayers rows.zipIdx draws =
          drawnLayers done draws + (draws.getD i 0 + 1 + drawnLayers rest draws) := by
        simp only [drawnLayers, hsplit, List.map_append, List.sum_append, List.map_cons,
          List.sum_cons]
      omega
    refine (hg.insertDrawn row.2 row.1 hfits).bind ?_
    rintro ⟨g', r⟩ ⟨hg', hr⟩
    obtain ⟨rfl, -, hdim', hbase'⟩ := hr ha
    refine ensures_pure.mpr ⟨hg', ?_, Or.inr (hdim'.trans hlen)⟩
    rw [hbase', hbase]
    simp only [drawnLayers, List.map_append, List.sum_append, List.map_cons, List.map_nil,
      List.sum_cons, List.sum_nil, Nat.add_zero]
  · exact ⟨WellFormed.new _, rfl, Or.inl rfl⟩

end Compaction

end Hnsw

end Brindle
