/-
# Brindle.Hnsw.BuildBeam — inserting into a decoded graph, and how wide its beams may be.

The decoder checks every header field that sizes an array on both sides but one: `ef_construction` has
a floor and no ceiling, and the insert path reserves eight slots for each unit of it. Up to the widest
beam an index can be created with, every size that any later insert computes fits its word
(`edits_sized`); past it the first insert that links a node already asks for more, and near `2 ^ 61`
the product leaves the word.
-/
import Brindle.Hnsw.Canonical
import Brindle.Hnsw.Sized

namespace Brindle

open Bytes (leBytes ofLe)
open Outcome (Ensures fail)
open Reader (Yields)
open Run (Along After)
open Decoder
open Sized (Stops Tracks lift size_ok)

/-! ## What the decoder stores fits 32 bits -/

/-- The tables hold 32-bit ids and counts. -/
def NodeTables.Narrow (tables : NodeTables) : Prop :=
  (∀ x ∈ tables.links, x < 2 ^ 32) ∧ ∀ c ∈ tables.linkCounts, c < 2 ^ 32

theorem yields_layers_narrow {hdr : GraphHeader} {nodeStart levels : Nat}
    {links linkCounts : List Nat} (hlinks : ∀ x ∈ links, x < 2 ^ 32)
    (hcounts : ∀ c ∈ linkCounts, c < 2 ^ 32) :
    Yields (readLayers hdr nodeStart levels links linkCounts : Decoder (List UInt8) _) fun r =>
      (∀ x ∈ r.1, x < 2 ^ 32) ∧ ∀ c ∈ r.2, c < 2 ^ 32 := by
  unfold readLayers
  refine Yields.foldlM (fun _ (r : List Nat × List Nat) =>
    (∀ x ∈ r.1, x < 2 ^ 32) ∧ ∀ c ∈ r.2, c < 2 ^ 32) _ ?_ ⟨hlinks, hcounts⟩
  rintro done layer rest ⟨links, counts⟩ - ⟨hlinks, hcounts⟩
  refine (Yields.any _).bind fun ids _ => ?_
  have hwritten : ∀ start, Yields (checked (Outcome.overwrite links start (ids.map asU32)) :
      Decoder (List UInt8) _) fun links => ∀ x ∈ links, x < 2 ^ 32 := by
    intro start s written s' h
    unfold checked Outcome.overwrite at h
    split_ifs at h with hfit
    · cases h
      intro x hx
      rcases List.mem_append.mp hx with hx | hx
      · rcases List.mem_append.mp hx with hx | hx
        · exact hlinks x (List.mem_of_mem_take hx)
        · exact Hnsw.Measured.asU32_lt x hx
      · exact hlinks x (List.mem_of_mem_drop hx)
    · cases h
  refine (hwritten _).bind fun links hlinks => Yields.pure ⟨hlinks, fun c hc => ?_⟩
  rcases List.mem_append.mp hc with hc | hc
  · exact hcounts c hc
  · rw [List.mem_singleton.mp hc]
    exact Nat.mod_lt _ (Nat.two_pow_pos 32)

theorem yields_node_narrow {hdr : GraphHeader} {ceiling : Nat} {tables : NodeTables}
    (T : tables.Narrow) :
    Yields (readNode hdr ceiling tables : Decoder (List UInt8) _) NodeTables.Narrow := by
  unfold readNode
  refine (Yields.any _).bind fun _ _ => (Yields.any _).bind fun _ _ => ?_
  refine (Yields.any _).bind fun _ _ => (Yields.any _).bind fun _ _ => ?_
  refine (Yields.any _).bind fun _ _ => (Yields.any _).bind fun _ _ => ?_
  refine (Yields.any _).bind fun _ _ => (Yields.any _).bind fun _ _ => ?_
  refine (Yields.any _).bind fun _ _ => (yields_layers_narrow ?_ T.2).bind ?_
  · intro x hx
    rcases List.mem_append.mp hx with hx | hx
    · exact T.1 x hx
    · rw [List.eq_of_mem_replicate hx]
      exact Nat.two_pow_pos 32
  rintro ⟨links, counts⟩ R
  exact (Yields.any _).bind fun attrs _ => Yields.pure R

theorem yields_nodes_narrow (hdr : GraphHeader) (ceiling count : Nat) {tables : NodeTables}
    (T : tables.Narrow) :
    Yields (readNodes hdr ceiling count tables : Decoder (List UInt8) _) NodeTables.Narrow := by
  induction count generalizing tables with
  | zero => exact Yields.pure T
  | succ count ih =>
    rw [readNodes]
    exact (yields_node_narrow T).bind fun tables' T' => ih T'

namespace Hnsw

variable [Arith] [Arith.Rounds]

/-- Whatever is accepted has a shape whose sizes fit, the width of its beams aside. -/
theorem fromBytes_measured {bytes : List UInt8} {h : Hnsw} (hdec : fromBytes bytes = .ok h) :
    Measured h.efConstruction h := by
  have S := fromBytes_sound hdec
  have hyields : Yields (fromGraphBytes : Decoder (List UInt8) Hnsw) fun h =>
      h.m0Cap ≤ HnswParams.maxLayer0Degree ∧ h.mCap ≤ h.m0Cap ∧
        h.maxLayer ≤ HnswParams.maxLayer ∧ (∀ c ∈ h.linkCounts, c < 2 ^ 32) ∧
        ∀ x ∈ h.links, x < 2 ^ 32 := by
    have hheader : Yields (readHeader : Decoder (List UInt8) GraphHeader) HeaderBounds :=
      fun s hdr s' hrun => (handles_header.post s hdr s' hrun).1
    have hnone : ({} : NodeTables).Narrow :=
      ⟨fun x hx => absurd hx List.not_mem_nil, fun c hc => absurd hc List.not_mem_nil⟩
    unfold fromGraphBytes
    refine hheader.bind fun hdr H => (Yields.any _).bind fun _ _ => ?_
    refine (yields_nodes_narrow hdr _ hdr.n hnone).bind fun tables T => ?_
    refine (Yields.any _).bind fun _ _ => (Yields.any _).bind fun _ _ => ?_
    refine (Yields.any _).bind fun _ _ => Yields.pure ⟨H.m0Cap_le, ?_, H.top_le, T.2, T.1⟩
    show hdr.derived.mCap ≤ hdr.derived.m0Cap
    rw [H.derived_eq]
    exact derivedParams_mCap_le hdr.m hdr.gamma
  obtain ⟨hm0, hm, htop, hcounts, hlinks⟩ := fromBytes_yields hyields hdec
  have hn := S.n_lt_u32
  exact
    { shape :=
        { S.toLayout with
          counts_len := (List.length_replicate ..).trans S.counts_len
          counts_le := fun id layer _ => by
            have hzero : (List.replicate h.linkCounts.length 0).getD (h.base id + layer) 0 = 0 := by
              rw [List.getD_eq_getElem?_getD, List.getElem?_replicate]
              split_ifs <;> rfl
            exact hzero.trans_le (Nat.zero_le _) }
      m0Cap_le := hm0
      mCap_le := hm.trans hm0
      dim_le := S.dim_le
      dim_pos := S.dim_pos
      counts_lt := hcounts
      links_lt := hlinks
      entry_lt := fun e he => (S.entry_lt e he).trans hn
      top_lt := htop.trans_lt (by decide)
      ef_eq := rfl }

/-! ## The field of the blob -/

omit [Arith] [Arith.Rounds] in
/-- The `ef_construction` field of a blob, eight bytes at offset 20. -/
def efField (bytes : List UInt8) : Nat := ofLe ((bytes.drop 20).take 8)

omit [Arith] [Arith.Rounds] in
theorem efField_writeHeader (h : Hnsw) (rest : List UInt8) :
    efField (h.writeHeader ++ rest) = h.efConstruction % 2 ^ 64 := by
  have hfield : ((h.writeHeader ++ rest).drop 20).take 8 = leBytes 8 h.efConstruction := by
    unfold writeHeader
    simp only [List.append_assoc]
    rfl
  unfold efField
  rw [hfield, Bytes.ofLe_leBytes]
  rfl

/-- The decoder keeps the field as it is. -/
theorem fromBytes_ef {bytes : List UInt8} {h : Hnsw} (hdec : fromBytes bytes = .ok h) :
    h.efConstruction = efField bytes := by
  have C := fromBytes_configured hdec
  unfold fromBytes at hdec
  obtain ⟨⟨h', rest⟩, hrun, hret⟩ := Outcome.bind_eq_ok.mp hdec
  cases hret
  have hspelled := (fromGraphBytes_spelled hrun).2
  have hset : efField (bytes.set reservedOffset 0) = efField bytes := by
    unfold efField
    rw [List.drop_set_of_lt (by decide)]
  rw [← hset, hspelled, efField_writeHeader, Nat.mod_eq_of_lt C.ef_word]

/-! ## Runs -/

omit [Arith.Rounds] in
/-- Every size the change computes fits its word, and every beam reserves at most what one of a
created index does. -/
def SizesFit (h : Hnsw) : Edit → Prop
  | .insert vector attrs level =>
    h.insertDrawnSized vector attrs level = lift (h.insertDrawn vector attrs level)
  | .delete _ => True

omit [Arith.Rounds] in
theorem Measured.edit_sized {ef : Nat} {h : Hnsw} (M : Measured ef h) (hef : ef ≤ maxBuildEf)
    {edit : Edit} (hfit : h.EditFits edit) :
    h.SizesFit edit ∧ After (Measured ef) (h.editStep edit) := by
  cases edit with
  | insert vector attrs level =>
    obtain ⟨hsizes, hkept⟩ := M.insertDrawn_tracks hef vector attrs hfit
    exact ⟨hsizes, hkept.bind fun r hr => hr⟩
  | delete id =>
    refine ⟨trivial, ?_⟩
    cases hdel : h.delete id with
    | error e =>
      simp only [editStep, hdel]
      exact M
    | ok g =>
      simp only [editStep, hdel]
      exact M.delete hdel

omit [Arith.Rounds] in
theorem Measured.run_sized {ef : Nat} {h : Hnsw} (M : Measured ef h) (hef : ef ≤ maxBuildEf)
    {edits : List Edit} (hfits : Along editStep EditFits h edits) :
    Along editStep SizesFit h edits := by
  induction edits generalizing h with
  | nil => trivial
  | cons edit rest ih =>
    obtain ⟨hsizes, hkept⟩ := M.edit_sized hef hfits.1
    exact ⟨hsizes, (hfits.2.and hkept).mono fun g hg => ih hg.2 hg.1⟩

/-! ## A beam too wide -/

omit [Arith] [Arith.Rounds] in
theorem beamSized_stops {ef : Nat} (hef : maxBuildEf < ef) (tr : Traversal) :
    Stops (beamSized ef tr) := by
  have hcapacity : ¬ max ef 1 * 8 ≤ buildCapacity := by
    have hmax : ef ≤ max ef 1 := Nat.le_max_left ef 1
    unfold buildCapacity
    omega
  unfold beamSized
  by_cases hword : max ef 1 * 8 < Usize.words
  · rw [size_ok hword, Outcome.ok_bind]
    refine Stops.bind (Or.inr ⟨max ef 1 * 8, ?_⟩) _
    exact if_neg hcapacity
  · refine Stops.bind (Or.inl ?_) _
    exact if_neg hword

omit [Arith.Rounds] in
/-- Linking a node of a sound graph gets as far as the first beam of the build. -/
theorem linkNodeSized_stops {ef : Nat} {h : Hnsw} (M : Measured ef h) (H : InRange h)
    (hef : maxBuildEf < ef) {id level entry : Nat} (hid : id < h.n)
    (hentry : h.entryPoint = some entry) (hlt : entry < h.n) (hlevel : level + 1 < 2 ^ 32) :
    Stops (h.linkNodeSized id level) := by
  have hn := M.n_lt_u32
  have hvec : h.vectorSized id = .ok (h.vec id) := by
    rw [(M.vector_tracks (hid.trans hn)).1, H.vector_eq hid]
    rfl
  have hguides : Guides h fun _ _ => True := ⟨fun _ _ _ _ _ => trivial, fun _ hx => hx⟩
  have heps : ∀ x ∈ [entry], x < h.n ∧ True := by
    intro x hx
    rw [List.mem_singleton.mp hx]
    exact ⟨hlt, trivial⟩
  have hreturns : Ensures (h.greedyDescent (h.vec id) (layersDown (level + 1) h.maxLayer) [entry]
      Traversal.unfiltered) _ :=
    greedyDescent_spec H hguides (H.vec_length hid) (layersDown_pairwise (level + 1) h.maxLayer)
      (fun l hl => (mem_layersDown.mp hl).2) heps
  obtain ⟨⟨eps, tr⟩, hdescent, -⟩ := hreturns
  have hdescentSized : h.greedyDescentSized (h.vec id) (layersDown (level + 1) h.maxLayer) [entry]
      Traversal.unfiltered = .ok (eps, tr) := by
    rw [(M.greedyDescent_tracks (h.vec id) (fun lc hlc => (mem_layersDown.mp hlc).2.trans_lt M.top_lt)
      (fun ep hep => (heps ep hep).1.trans hn) Traversal.unfiltered).1, hdescent]
    rfl
  obtain ⟨lc, rest, hlayers⟩ : ∃ lc rest, layersDown 0 (min level h.maxLayer) = lc :: rest := by
    apply List.exists_cons_of_ne_nil
    exact List.ne_nil_of_mem (mem_layersDown.mpr ⟨Nat.zero_le _, le_rfl⟩)
  -- the first layer the node is linked at already asks for the wide beam
  have hbeam : Stops (h.connectLayerSized (h.vec id) id lc eps tr) := by
    unfold connectLayerSized searchLayerSized
    rw [M.ef_eq]
    exact ((beamSized_stops hef tr).bind _).bind _
  unfold linkNodeSized
  rw [hentry]
  dsimp only
  rw [hvec, Outcome.ok_bind, size_ok (by unfold Usize.words; omega), Outcome.ok_bind,
    hdescentSized, Outcome.ok_bind]
  dsimp only
  rw [hlayers]
  unfold connectLayersSized
  rw [List.foldlM_cons]
  exact ((hbeam.bind _).bind _).bind _

omit [Arith.Rounds] in
/-- The first insert that links a node asks for its build beam. -/
theorem insertDrawnSized_stops {ef : Nat} {h : Hnsw} (M : Measured ef h) (S : Sound h)
    (hef : maxBuildEf < ef) {vector : List F32} (ha : h.Accepts vector) (attrs : List AttrValue)
    {level : Nat} (hfit : h.base h.n + (level + 1) < 2 ^ 32) (hentry : h.entryPoint.isSome) :
    Stops (h.insertDrawnSized vector attrs level) := by
  obtain ⟨entry, hentry⟩ := Option.isSome_iff_exists.mp hentry
  have P := M.accepting ha (xorshift64 h.rng)
  have hpos := List.length_pos_of_ne_nil ha.1
  have G := P.withNode attrs rfl hpos (Nat.succ_pos level) hfit
  have hstops := linkNodeSized_stops G (S.stored_inRange ha attrs hfit) hef (Nat.lt_succ_self h.n)
    hentry ((S.entry_lt entry hentry).trans (Nat.lt_succ_self h.n))
    (show level + 1 < 2 ^ 32 by omega)
  unfold insertDrawnSized
  rw [acceptVector_ok ha]
  dsimp only
  unfold storeAndLinkSized
  rw [size_ok (by unfold Usize.words; omega), Outcome.ok_bind,
    P.pushNodeSized_eq attrs rfl (Nat.succ_pos level) hfit]
  exact hstops.bind _

/-! ## Accepted blobs -/

/-- **Inserting into an accepted blob's graph.** If its `ef_construction` field is one an index can be
created with, then in every run of inserts and deletes whose layers fit a `u32`, every size computed
fits its word and no beam reserves more than `buildCapacity`. If the field is larger, the first insert
that links a node does not meet the two. -/
theorem edits_sized (bytes : List UInt8) (h : Hnsw) (hdec : fromBytes bytes = .ok h) :
    (efField bytes ≤ maxBuildEf → ∀ edits, Along editStep EditFits h edits →
        Along editStep SizesFit h edits) ∧
      ∀ vector attrs level, h.entryPoint.isSome → h.Accepts vector →
        h.EditFits (.insert vector attrs level) →
        (h.SizesFit (.insert vector attrs level) ↔ efField bytes ≤ maxBuildEf) := by
  have M := fromBytes_measured hdec
  rw [fromBytes_ef hdec] at M
  refine ⟨fun hef edits hfits => M.run_sized hef hfits, fun vector attrs level hentry ha hfit => ?_⟩
  constructor
  · intro hsizes
    by_contra hef
    exact (insertDrawnSized_stops M (fromBytes_sound hdec) (Nat.lt_of_not_le hef) ha attrs hfit
      hentry).ne_lift _ hsizes
  · exact fun hef => (M.edit_sized hef hfit).1

omit [Arith] [Arith.Rounds] in
/-- `misfiled 0` as a blob with another `ef_construction`. -/
def widened (ef : Nat) : Hnsw := { misfiled 0 with efConstruction := ef }

omit [Arith] [Arith.Rounds] in
def widenedBytes (ef : Nat) : List UInt8 :=
  (widened ef).writeHeader ++ (List.range 3).flatMap (widened ef).nodeBytes

omit [Arith] [Arith.Rounds] in
/-- A blob with the field an untuned index has. -/
theorem edits_sized_default :
    Along (@editStep Arith.ieee) (@SizesFit Arith.ieee) (widened 64)
        [.insert [F32.one] [] 0, .delete 0, .insert [F32.zero] [] 2] ∧
      @SizesFit Arith.ieee (widened 64) (.insert [F32.one] [] 1) := by
  have h := @edits_sized Arith.ieee inferInstance (widenedBytes 64) (widened 64) (by decide +kernel)
  exact ⟨h.1 (by decide +kernel) _ (by decide +kernel),
    (h.2 [F32.one] [] 1 (by decide) (by decide) (by decide +kernel)).mpr (by decide +kernel)⟩

omit [Arith] [Arith.Rounds] in
/-- **The ceiling that is missing.** A blob with `2 ^ 61` in the field is accepted, and the first
insert into its graph multiplies past the word. -/
theorem edits_not_sized : ¬ ∀ bytes h, @fromBytes Arith.ieee bytes = .ok h →
    ∀ edits, Along (@editStep Arith.ieee) EditFits h edits →
      Along (@editStep Arith.ieee) (@SizesFit Arith.ieee) h edits := by
  intro hall
  have hrun := hall (widenedBytes (2 ^ 61)) (widened (2 ^ 61)) (by decide +kernel)
    [.insert [F32.one] [] 0] (by decide +kernel)
  have hoverflow : @insertDrawnSized Arith.ieee (widened (2 ^ 61)) [F32.one] [] 0 =
      fail .overflow := by decide +kernel
  have hstops : Stops (@insertDrawnSized Arith.ieee (widened (2 ^ 61)) [F32.one] [] 0) :=
    Or.inl hoverflow
  exact hstops.ne_lift _ hrun.1

end Hnsw

end Brindle
