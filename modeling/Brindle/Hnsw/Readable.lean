/-
# Brindle.Hnsw.Readable — which graphs the decoder takes back.

Of all the decoder's checks, only one can refuse a graph built by inserts and deletes under legal
parameters: the ceiling on reserved link slots, which allows one slot per byte of node records and
`2^22` more. A node reserves its slots by its layers and the caps, and spends bytes on the links it
has, so nodes inserted while nothing is live, whose lists stay empty, reserve far more than they
spend. `readable_run` is the exact condition; `graveyard` is a run that fails it.
-/
import Brindle.Hnsw.Configured
import Brindle.Hnsw.Findable

namespace Brindle

open Outcome (Ensures ensures_ok ensures_pure)
open Run (run Along After)

/-! ## The size of an encoding -/

/-- Bytes an attribute value takes up. -/
def AttrValue.size : AttrValue → Nat
  | .null => 1
  | .int _ | .float _ => 9

namespace Hnsw

/-- Bytes the record of node `id` takes up. -/
def recordSize (h : Hnsw) (id : Nat) : Nat :=
  9 + 4 * h.dim + ((List.range (h.levelsOf id)).map fun l => 8 + 8 * (h.nbrs id l).length).sum
    + (8 + ((h.attrsOf id).map AttrValue.size).sum)

/-- Link slots the layers of all nodes reserve. -/
def reservedSlots (h : Hnsw) : Nat := h.runStart h.n

/-- The slots are within the ceiling: one for each byte of the records, and `2^22`. -/
def SlotsFit (h : Hnsw) : Prop :=
  h.reservedSlots ≤ maxSlots ((List.range h.n).map h.recordSize).sum

theorem writeNeighborList_length (ids : List Nat) :
    (writeNeighborList ids).length = 8 + 8 * ids.length := by
  simp [writeNeighborList, List.length_flatMap, Nat.mul_comm]

theorem writeAttrRow_length (row : List AttrValue) :
    (writeAttrRow row).length = 8 + (row.map AttrValue.size).sum := by
  have hvalue : (fun v => (writeAttrValue v).length) = AttrValue.size := by
    funext v
    cases v <;> simp [writeAttrValue, AttrValue.size]
  simp [writeAttrRow, List.length_flatMap, hvalue]

theorem Layout.nodeBytes_length {h : Hnsw} (L : Layout h) {id : Nat} (hid : id < h.n) :
    (h.nodeBytes id).length = h.recordSize id := by
  have hlists : ((List.range (h.levelsOf id)).map (h.nbrs id)).flatMap writeNeighborList =
      (List.range (h.levelsOf id)).flatMap fun l => writeNeighborList (h.nbrs id l) :=
    List.flatMap_map ..
  simp only [nodeBytes, recordSize, List.length_append, List.length_cons, Bytes.leBytes_length,
    writeVector_length, L.vec_length hid, hlists, List.length_flatMap, writeNeighborList_length,
    writeAttrRow_length]
  omega

variable [Arith]

/-- A configured, well-formed graph within the decoder's limits on degrees and layers reads back
exactly when its slots fit. -/
theorem WellFormed.readable_iff {h : Hnsw} (W : WellFormed h) (C : Configured h)
    (A : Admissible h) :
    ∃ bytes, h.toBytes = .ok bytes ∧ ((∃ g, Hnsw.fromBytes bytes = .ok g) ↔ h.SlotsFit) := by
  obtain ⟨bytes, hbytes, hiff, -⟩ := decode_encode W C
  refine ⟨bytes, hbytes, hiff.trans ?_⟩
  have hlen : bytes.length - 76 = ((List.range h.n).map h.recordSize).sum := by
    rw [W.toBytes_eq] at hbytes
    cases hbytes
    have hrecords : (List.range h.n).map (fun id => (h.nodeBytes id).length) =
        (List.range h.n).map h.recordSize :=
      List.map_congr_left fun id hid => W.nodeBytes_length (List.mem_range.mp hid)
    rw [List.length_append, writeHeader_length, List.length_flatMap, hrecords]
    omega
  rw [hlen, W.links_len]
  exact and_iff_right A

/-! ## Every run -/

omit [Arith] in
/-- The change is one the source's types and the generator can produce, and its layers fit. -/
def EditLegal (h : Hnsw) (edit : Edit) : Prop :=
  h.EditFits edit ∧ match edit with
    | .insert _ attrs level => attrs.length < 2 ^ 64 ∧ level ≤ HnswParams.maxLayer
    | .delete _ => True

omit [Arith] in
instance (h : Hnsw) : ∀ edit, Decidable (h.EditLegal edit)
  | .insert vector attrs level =>
    inferInstanceAs (Decidable (h.EditFits (.insert vector attrs level) ∧
      attrs.length < 2 ^ 64 ∧ level ≤ HnswParams.maxLayer))
  | .delete id => inferInstanceAs (Decidable (h.EditFits (.delete id) ∧ True))

/-- Parameters an index can be created with. -/
def Legal (params : HnswParams) : Prop :=
  2 ≤ params.m ∧ params.m ≤ HnswParams.maxM ∧ params.efConstruction < 2 ^ 64 ∧
    (Hnsw.new params).m0Cap ≤ HnswParams.maxLayer0Degree

instance (params : HnswParams) : Decidable (Legal params) :=
  inferInstanceAs (Decidable (_ ∧ _ ∧ _ ∧ _))

/-- What every legal run keeps. -/
structure Encodable (h : Hnsw) : Prop where
  wellFormed : WellFormed h
  configured : Configured h
  admissible : Admissible h

theorem Encodable.new {params : HnswParams} (hp : Legal params) : Encodable (Hnsw.new params) := by
  obtain ⟨hlow, hm, hef, hcap⟩ := hp
  have hword : params.m < 2 ^ 64 := by
    unfold HnswParams.maxM at hm
    omega
  refine ⟨WellFormed.new params, Configured.new hword hef, ?_, hcap, Nat.zero_le _⟩
  exact max_le hm (by decide)

theorem Encodable.editStep {h : Hnsw} (E : Encodable h) (edit : Edit) (hl : h.EditLegal edit) :
    Ensures (h.editStep edit) Encodable := by
  obtain ⟨W, C, hm, hcap, htop⟩ := E
  cases edit with
  | insert vector attrs level =>
    obtain ⟨hfit, hrow, hlevel⟩ := hl
    refine (W.insertDrawn_keeps C vector hrow hfit).bind ?_
    rintro ⟨h', r⟩ K
    refine ensures_pure.mpr ⟨K.wellFormed, K.configured, ?_, ?_, ?_⟩
    · rw [K.m_eq]
      exact hm
    · rw [K.m0Cap_eq]
      exact hcap
    · exact K.top_le.trans (max_le htop hlevel)
  | delete id =>
    cases hdel : h.delete id with
    | error e =>
      simp only [Hnsw.editStep, hdel]
      exact ensures_pure.mpr ⟨W, C, hm, hcap, htop⟩
    | ok h' =>
      simp only [Hnsw.editStep, hdel]
      obtain ⟨-, hset⟩ := delete_eq hdel
      refine ensures_pure.mpr ⟨W.delete hdel, C.delete hdel, ?_⟩
      subst hset
      exact ⟨hm, hcap, htop⟩

/-- **When a graph is readable back.** Under legal parameters, a run of inserts and deletes gives a
graph that encodes, and whose encoding decodes iff its reserved slots are within the ceiling. -/
theorem readable_run (params : HnswParams) (hp : Legal params) (edits : List Edit)
    (hl : Along editStep EditLegal (Hnsw.new params) edits) :
    Ensures (run editStep (Hnsw.new params) edits) fun h =>
      ∃ bytes, h.toBytes = .ok bytes ∧ ((∃ g, Hnsw.fromBytes bytes = .ok g) ↔ h.SlotsFit) :=
  (Run.ensures_run (fun _ edit E hl => Encodable.editStep E edit hl) (Encodable.new hp) hl).mono
    fun _ E => E.wellFormed.readable_iff E.configured E.admissible

omit [Arith] in
theorem readable_run_orphan :
    Ensures (@run _ _ _ (@editStep Arith.ieee) (@Hnsw.new Arith.ieee HnswParams.default)
      orphanEdits) fun h => ∃ bytes, h.toBytes = .ok bytes ∧
        ((∃ g, @Hnsw.fromBytes Arith.ieee bytes = .ok g) ↔ h.SlotsFit) :=
  @readable_run Arith.ieee HnswParams.default (by decide +kernel) orphanEdits (by decide +kernel)

/-! ## A run that is not readable -/

/-- The first `k` rows of the top level, each deleted before the next. -/
def graveyard : Nat → List Edit
  | 0 => []
  | k + 1 => graveyard k ++ [.insert [F32.one] [] 64, .delete k]

/-- `2 * m * gamma` is the most the decoder admits. -/
def denseParams : HnswParams := { HnswParams.default with m := 2, gamma := ⟨0x44000000⟩ }

/-- What `k` rounds of `graveyard` leave behind: `k` dead nodes of 65 layers, no link anywhere. -/
structure Buried (k : Nat) (h : Hnsw) : Prop extends Encodable h where
  n_eq : h.n = k
  dim_le_one : h.dim ≤ 1
  caps : h.m0Cap = 2048 ∧ h.mCap = 1024
  dead : ¬ ∃ x, h.Live x
  unlinked : ∀ a l, h.nbrs a l = []
  levels : ∀ a < k, h.levelsOf a = 65
  base : h.base k = 65 * k
  attrless : ∀ a < k, h.attrsOf a = []

theorem Buried.not_slotsFit {h : Hnsw} (B : Buried 63 h) : ¬ h.SlotsFit := by
  have hrecord : ∀ id ∈ List.range h.n, h.recordSize id = 537 + 4 * h.dim := by
    intro id hid
    rw [List.mem_range, B.n_eq] at hid
    have hsum : ((List.range 65).map fun l => 8 + 8 * (h.nbrs id l).length).sum = 520 := by
      simp [B.unlinked]
    unfold recordSize
    rw [B.levels id hid, B.attrless id hid, hsum]
    simp only [List.map_nil, List.sum_nil]
    omega
  have hbytes : ((List.range h.n).map h.recordSize).sum = 63 * (537 + 4 * h.dim) := by
    rw [List.map_congr_left hrecord, List.map_const', List.sum_replicate_nat, List.length_range,
      B.n_eq]
  have hslots : h.reservedSlots = 63 * 2049 + (65 * 63 - 63) * 1025 := by
    unfold reservedSlots runStart slotWidth maxDegree
    rw [B.n_eq, B.base, if_pos rfl, if_neg Nat.one_ne_zero, B.caps.1, B.caps.2]
  have hdim := B.dim_le_one
  unfold SlotsFit maxSlots
  rw [hslots, hbytes]
  omega

/-- With nothing live to link to, a round adds a dead node and no link. -/
theorem Buried.round {h : Hnsw} {k : Nat} (B : Buried k h) (hk : k < 2 ^ 20) :
    h.EditLegal (.insert [F32.one] [] 64) ∧
      Ensures (h.editStep (.insert [F32.one] [] 64)) fun h' => h'.EditLegal (.delete k) ∧
        Ensures (h'.editStep (.delete k)) (Buried (k + 1)) := by
  have W := B.wellFormed
  have S := W.toSound
  have hfit : h.base h.n + (64 + 1) < 2 ^ 32 := by
    rw [B.n_eq, B.base]
    omega
  have hlegal : h.EditLegal (.insert [F32.one] [] 64) := ⟨hfit, by decide, by decide⟩
  have ha : h.Accepts [F32.one] := by
    have hdim := B.dim_le_one
    refine ⟨by simp, by decide, ?_⟩
    show h.dim = 0 ∨ h.dim = 1
    omega
  refine ⟨hlegal, ?_⟩
  obtain ⟨⟨h', r⟩, hrun, -, plan, g, -, hok, hw, rfl⟩ := W.insertDrawn_wired [] ha hfit
  obtain ⟨h₁, hstep, E₁⟩ := B.toEncodable.editStep _ hlegal
  rw [editStep_insert hrun] at hstep ⊢
  cases hstep
  refine ensures_ok.mpr ⟨⟨trivial, trivial⟩, ?_⟩
  have R := hw.relinked
  have hn : (settleEntry g h.n 64).n = k + 1 := by
    rw [settleEntry_n, R.n_eq, ← B.n_eq]
    rfl
  have hlen : k < (settleEntry g h.n 64).deleted.length := by
    rw [E₁.wellFormed.deleted_len, hn]
    exact Nat.lt_succ_self k
  have hdel := delete_eq_ok hlen
  have hlive := fun x => delete_live hdel x
  obtain ⟨h₂, hstep₂, E₂⟩ := E₁.editStep (.delete k) ⟨trivial, trivial⟩
  rw [editStep_delete hdel] at hstep₂ ⊢
  cases hstep₂
  -- only live nodes are linked to, and there is none
  have hplan : ∀ p ∈ plan, p.2 = [] := by
    intro p hp
    rw [List.eq_nil_iff_forall_not_mem]
    intro x hx
    rcases (S.stored_live ha [] x).mp ((hok.choice p hp).live x hx) with hold | rfl
    · exact B.dead ⟨x, hold⟩
    · exact hok.fresh p hp hx
  refine ensures_ok.mpr { E₂ with
    n_eq := hn
    dim_le_one := (settleEntry_dim g h.n 64).le.trans R.dim_eq.le
    caps := ?_
    dead := ?_
    unlinked := fun a l => ?_
    levels := fun a halt => ?_
    base := ?_
    attrless := fun a halt => ?_ }
  · have hm0 : (settleEntry g h.n 64).m0Cap = h.m0Cap :=
      (settleEntry_field g h.n 64 Hnsw.m0Cap fun _ _ => rfl).trans (R.field Hnsw.m0Cap fun _ _ => rfl)
    have hm : (settleEntry g h.n 64).mCap = h.mCap :=
      (settleEntry_field g h.n 64 Hnsw.mCap fun _ _ => rfl).trans (R.field Hnsw.mCap fun _ _ => rfl)
    exact ⟨hm0.trans B.caps.1, hm.trans B.caps.2⟩
  · rintro ⟨x, hx⟩
    obtain ⟨hne, hx'⟩ := (hlive x).mp hx
    rcases (W.settled_live ha hw x).mp hx' with hold | rfl
    · exact B.dead ⟨x, hold⟩
    · exact hne B.n_eq
  · show (settleEntry g h.n 64).nbrs a l = []
    rw [settleEntry_nbrs]
    rcases hw.cases a l with ⟨p, hp, -, -, heq⟩ | ⟨p, hp, -, hsel, -⟩ | heq
    · exact heq.trans (hplan p hp)
    · rw [hplan p hp] at hsel
      cases hsel
    · rw [heq, S.stored_nbrs ha]
      exact B.unlinked a l
  · show (settleEntry g h.n 64).levelsOf a = 65
    rw [settleEntry_levelsOf, R.levelsOf_eq]
    rcases Nat.lt_succ_iff_lt_or_eq.mp halt with hlt | rfl
    · rw [S.stored_levelsOf ha [] (B.n_eq ▸ hlt)]
      exact B.levels a hlt
    · rw [← B.n_eq]
      exact S.stored_levelsOf_last ha []
  · show (settleEntry g h.n 64).base (k + 1) = 65 * (k + 1)
    have hlast : (h.stored [F32.one] [] 64).base (h.n + 1) = h.base h.n + 65 :=
      (S.prepared_layout ha).withNode_base_last [F32.one] []
    rw [settleEntry_base, R.base_eq, ← B.n_eq, hlast, B.n_eq, B.base]
    omega
  · show (settleEntry g h.n 64).attrsOf a = []
    rw [settleEntry_field g h.n 64 (fun g => g.attrsOf a) fun _ _ => rfl, R.attrsOf_eq]
    rcases Nat.lt_succ_iff_lt_or_eq.mp halt with hlt | rfl
    · have hold : (h.stored [F32.one] [] 64).attrsOf a = h.attrsOf a :=
        (S.prepared_layout ha).withNode_attrsOf [F32.one] [] (B.n_eq ▸ hlt)
      exact hold.trans (B.attrless a hlt)
    · have hlast : (h.stored [F32.one] [] 64).attrsOf h.n = [] :=
        (S.prepared_layout ha).withNode_attrsOf_last [F32.one] []
      rw [← B.n_eq]
      exact hlast

/-- The runs are legal, and bury one node a round. -/
theorem graveyard_buries {h : Hnsw} (B : Buried 0 h) :
    ∀ k ≤ 2 ^ 20, Along editStep EditLegal h (graveyard k) ∧
      Ensures (run editStep h (graveyard k)) (Buried k)
  | 0, _ => ⟨trivial, ensures_pure.mpr B⟩
  | k + 1, hk => by
    obtain ⟨halong, h₁, hrun, B₁⟩ := graveyard_buries B k (by omega)
    obtain ⟨hlegal, h₂, hins, hlegal', h₃, hdel, B₃⟩ := B₁.round (by omega)
    have htail : run editStep h₁ [.insert [F32.one] [] 64, .delete k] = .ok h₃ := by
      simp only [run, List.foldlM_cons, List.foldlM_nil, hins, hdel, Outcome.ok_bind]
      rfl
    refine ⟨Run.along_append halong hrun ⟨hlegal, ?_⟩, h₃, ?_, B₃⟩
    · rw [hins]
      refine ⟨hlegal', ?_⟩
      rw [hdel]
      trivial
    · rw [graveyard, Run.run_append, hrun, Outcome.ok_bind, htail]

theorem graveyard_unread (hp : Legal denseParams)
    (hcaps : (Hnsw.new denseParams).m0Cap = 2048 ∧ (Hnsw.new denseParams).mCap = 1024) :
    Along editStep EditLegal (Hnsw.new denseParams) (graveyard 63) ∧
      Ensures (run editStep (Hnsw.new denseParams) (graveyard 63)) fun h =>
        ∃ bytes, h.toBytes = .ok bytes ∧ ¬ ∃ g, Hnsw.fromBytes bytes = .ok g := by
  have B : Buried 0 (Hnsw.new denseParams) :=
    { Encodable.new hp with
      n_eq := rfl
      dim_le_one := Nat.zero_le _
      caps := hcaps
      dead := fun ⟨_, hx, _⟩ => absurd hx (Nat.not_lt_zero _)
      unlinked := fun a l => nbrs_of_n_zero rfl a l
      levels := nofun
      base := rfl
      attrless := nofun }
  obtain ⟨halong, h, hrun, B'⟩ := graveyard_buries B 63 (by decide)
  obtain ⟨bytes, hbytes, hiff⟩ :=
    B'.wellFormed.readable_iff B'.configured B'.admissible
  exact ⟨halong, h, hrun, bytes, hbytes, fun hread => B'.not_slotsFit (hiff.mp hread)⟩

omit [Arith] in
/-- **An unreadable graph.** 63 rounds under the densest legal parameters are a legal run, and the
graph they leave encodes to bytes the decoder refuses. -/
theorem graveyard_unreadable :
    @Legal Arith.ieee denseParams ∧
      Along (@editStep Arith.ieee) EditLegal (@Hnsw.new Arith.ieee denseParams) (graveyard 63) ∧
      Ensures (@run _ _ _ (@editStep Arith.ieee) (@Hnsw.new Arith.ieee denseParams)
        (graveyard 63)) fun h => ∃ bytes, h.toBytes = .ok bytes ∧
          ¬ ∃ g, @Hnsw.fromBytes Arith.ieee bytes = .ok g := by
  have hp : @Legal Arith.ieee denseParams := by decide +kernel
  exact ⟨hp, @graveyard_unread Arith.ieee hp (by decide +kernel)⟩

end Hnsw

end Brindle
