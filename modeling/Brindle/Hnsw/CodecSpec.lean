/-
# Brindle.Hnsw.CodecSpec — what the encoder writes, field by field, and that it reads back.

`toBytes` of a laid-out graph is a header followed by one record per node (`nodeBytes`), and each
field of either reads back as what was written. The decoder's own checks that an encoded field can
fail (a bound on the base degree, on the layer-0 cap, on the top layer) are kept as the condition of a
`ReadsIff`; every other check is discharged here.
-/
import Brindle.Hnsw.Codec
import Brindle.Hnsw.WellFormed

namespace Brindle

open Bytes (leBytes ofLe)
open Outcome (Ensures ensures_ok ensures_pure)
open Reader (Reads ReadsIff)
open Decoder

/-! ## Primitive reads -/

/-- As many bytes as were written. -/
theorem reads_readExact {bs : List UInt8} {k : Nat} (hk : bs.length = k) (rest : List UInt8) :
    Reads (Decoder.readExact k : Decoder (List UInt8) _) bs rest bs := by
  subst hk
  have hroom : ¬ bs.length > (bs ++ rest).length := by
    rw [List.length_append]
    omega
  show (if bs.length > (bs ++ rest).length then _ else _) = _
  rw [if_neg hroom, List.take_left, List.drop_left]

/-- A number below the width reads back. -/
theorem reads_readLe {k n : Nat} (hn : n < 256 ^ k) (rest : List UInt8) :
    Reads (readLe k : Decoder (List UInt8) Nat) (leBytes k n) rest n := by
  have h := (reads_readExact (Bytes.leBytes_length k n) rest).bind_pure (f := ofLe)
  rw [Bytes.ofLe_leBytes_of_lt hn] at h
  exact h

theorem reads_u8 (b : UInt8) (rest : List UInt8) :
    Reads (u8 : Decoder (List UInt8) Nat) [b] rest b.toNat :=
  (reads_readExact (show [b].length = 1 from rfl) rest).bind_pure (f := ofLe)

theorem reads_u64 {n : Nat} (hn : n < 2 ^ 64) (rest : List UInt8) :
    Reads (u64 : Decoder (List UInt8) Nat) (leBytes 8 n) rest n :=
  reads_readLe hn rest

theorem reads_u32 {n : Nat} (hn : n < 2 ^ 32) (rest : List UInt8) :
    Reads (u32 : Decoder (List UInt8) Nat) (leBytes 4 n) rest n :=
  reads_readLe hn rest

theorem reads_u16 {n : Nat} (hn : n < 2 ^ 16) (rest : List UInt8) :
    Reads (u16 : Decoder (List UInt8) Nat) (leBytes 2 n) rest n :=
  reads_readLe hn rest

theorem reads_remaining (bs : List UInt8) :
    Reads (remaining : Decoder (List UInt8) Nat) [] bs bs.length := rfl

/-- A check that is met reads nothing. -/
theorem reads_require {ok : Bool} (e : HnswDecodeError) (bs : List UInt8) (hok : ok = true) :
    Reads (require ok e : Decoder (List UInt8) Unit) [] bs () := by
  subst hok
  rfl

/-- A check that may fail. -/
theorem readsIff_require (ok : Bool) (e : HnswDecodeError) (bs : List UInt8) :
    ReadsIff (require ok e : Decoder (List UInt8) Unit) [] bs (ok = true) () where
  reads := reads_require e bs
  forces p hp := by
    cases ok with
    | true => rfl
    | false => cases hp

/-- A counted run of items. -/
theorem reads_times {α : Type} {item : Decoder (List UInt8) α} {chunk : α → List UInt8}
    (xs : List α) (h : ∀ x ∈ xs, ∀ rest, Reads item (chunk x) rest x) (rest : List UInt8) :
    Reads (times xs.length item) (xs.flatMap chunk) rest xs := by
  induction xs with
  | nil => exact Reads.pure _ _
  | cons x xs ih =>
    rw [List.length_cons, times, List.flatMap_cons]
    refine (h x List.mem_cons_self _).bind ?_
    exact (ih fun y hy => h y (List.mem_cons_of_mem _ hy)).bind_pure (f := fun ys => x :: ys)

/-! ## Attribute rows, neighbor lists, vectors -/

/-- The tag says which of the three it is; a float keeps its bits. -/
theorem reads_attrValue (v : AttrValue) (rest : List UInt8) :
    Reads (readAttrValue : Decoder (List UInt8) AttrValue) (writeAttrValue v) rest v := by
  unfold readAttrValue
  cases v with
  | null => exact (reads_u8 attrTagNull _).bind (Reads.pure _ _)
  | int v =>
    refine (reads_u8 attrTagInt _).bind_cons ?_
    have h := (reads_u64 v.toUInt64.toNat_lt rest).bind_pure
      (f := fun n => AttrValue.int (UInt64.ofNat n).toInt64)
    rw [UInt64.ofNat_toNat] at h
    exact h
  | float v =>
    refine (reads_u8 attrTagFloat _).bind_cons ?_
    have h := (reads_u64 v.bits.toNat_lt rest).bind_pure
      (f := fun n => AttrValue.float ⟨UInt64.ofNat n⟩)
    rw [UInt64.ofNat_toNat] at h
    exact h

/-- A run of chunks is at least as long as the number of chunks times the least chunk. -/
theorem length_flatMap_ge {α : Type} {chunk : α → List UInt8} {w : Nat} (xs : List α)
    (h : ∀ x ∈ xs, w ≤ (chunk x).length) : w * xs.length ≤ (xs.flatMap chunk).length := by
  induction xs with
  | nil => simp
  | cons x xs ih =>
    have hx := h x List.mem_cons_self
    have hrec := ih fun y hy => h y (List.mem_cons_of_mem _ hy)
    rw [List.flatMap_cons, List.length_append, List.length_cons, Nat.mul_succ]
    omega

/-- A value takes its tag at least, which is what the decoder bounds the count of a row by. -/
theorem writeAttrValue_length_pos (v : AttrValue) : 1 ≤ (writeAttrValue v).length := by
  cases v <;> exact Nat.succ_le_succ (Nat.zero_le _)

/-- A row of values, behind their count. -/
theorem reads_attrRow {row : List AttrValue} (hrow : row.length < 2 ^ 64) (rest : List UInt8) :
    Reads (readAttrRow : Decoder (List UInt8) _) (writeAttrRow row) rest row := by
  unfold readAttrRow writeAttrRow
  refine (reads_u64 hrow _).bind ?_
  refine (reads_remaining _).bind_nil ?_
  refine (reads_require _ _ ?_).bind_nil ?_
  · have hlen := length_flatMap_ge row fun v _ => writeAttrValue_length_pos v
    rw [decide_eq_true_eq, List.length_append]
    omega
  · exact reads_times row (fun v _ => reads_attrValue v) rest

/-- A list within its cap, of ids that exist. -/
theorem reads_neighborList {ids : List Nat} {cap n : Nat} (hcap : ids.length ≤ cap)
    (hlt : ∀ x ∈ ids, x < n) (hn : n ≤ 2 ^ 64) (hlen : ids.length < 2 ^ 64)
    (rest : List UInt8) :
    Reads (readNeighborList cap n : Decoder (List UInt8) _) (writeNeighborList ids) rest ids := by
  unfold readNeighborList writeNeighborList
  refine (reads_u64 hlen _).bind ?_
  refine (reads_require _ _ (decide_eq_true hcap)).bind_nil ?_
  refine (reads_remaining _).bind_nil ?_
  refine (reads_require _ _ ?_).bind_nil ?_
  · have hbytes := length_flatMap_ge (w := 8) ids fun x _ => (Bytes.leBytes_length 8 x).ge
    rw [decide_eq_true_eq, List.length_append]
    omega
  · refine reads_times ids (fun x hx rest => ?_) rest
    have hx' := hlt x hx
    have h : Reads (readNeighbor n : Decoder (List UInt8) Nat) (leBytes 8 x ++ []) rest x :=
      (reads_u64 (by omega) _).bind
        ((reads_require _ _ (decide_eq_true hx')).bind_nil (Reads.pure x rest))
    rwa [List.append_nil] at h

/-- Four bytes make one component. -/
theorem floatsOfBytes_append (x : F32) (bs : List UInt8) :
    floatsOfBytes (leBytes 4 x.bits.toNat ++ bs) = x :: floatsOfBytes bs := by
  obtain ⟨b₀, b₁, b₂, b₃, hbs⟩ : ∃ b₀ b₁ b₂ b₃, leBytes 4 x.bits.toNat = [b₀, b₁, b₂, b₃] :=
    ⟨_, _, _, _, rfl⟩
  have hval : F32.ofNatBits (ofLe [b₀, b₁, b₂, b₃]) = x := by
    rw [← hbs, Bytes.ofLe_leBytes_of_lt x.bits.toNat_lt]
    exact congrArg F32.mk UInt32.ofNat_toNat
  rw [hbs]
  show F32.ofNatBits (ofLe [b₀, b₁, b₂, b₃]) :: floatsOfBytes bs = _
  rw [hval]

/-- A vector reads back bit for bit. -/
theorem floatsOfBytes_writeVector (vector : List F32) :
    floatsOfBytes (writeVector vector) = vector := by
  induction vector with
  | nil => rfl
  | cons x vector ih =>
    show floatsOfBytes (leBytes 4 x.bits.toNat ++ writeVector vector) = _
    rw [floatsOfBytes_append, ih]

theorem writeVector_length (vector : List F32) :
    (writeVector vector).length = vector.length * 4 := by
  induction vector with
  | nil => rfl
  | cons x vector ih =>
    show (leBytes 4 x.bits.toNat ++ writeVector vector).length = _
    rw [List.length_append, ih, Bytes.leBytes_length, List.length_cons]
    omega

theorem reads_tombstone (deleted : Bool) (rest : List UInt8) :
    Reads (readTombstone : Decoder (List UInt8) Bool) [if deleted then 1 else 0] rest deleted := by
  cases deleted <;> exact (reads_u8 _ _).bind (Reads.pure _ _)

namespace Hnsw

/-! ## What is written -/

/-- The record of node `id`. -/
def nodeBytes (h : Hnsw) (id : Nat) : List UInt8 :=
  (if h.isDeleted id then 1 else 0) :: leBytes 8 (h.levelsOf id) ++ writeVector (h.vec id)
    ++ ((List.range (h.levelsOf id)).map (h.nbrs id)).flatMap writeNeighborList
    ++ writeAttrRow (h.attrsOf id)

/-- No accessor that the encoder calls on a stored node is out of range. -/
theorem Layout.writeNode_eq {h : Hnsw} (L : Layout h) {id : Nat} (hid : id < h.n) :
    h.writeNode id = .ok (h.nodeBytes id) := by
  have hlists : (List.range (h.levelsOf id)).mapM (h.neighbors id) =
      .ok ((List.range (h.levelsOf id)).map (h.nbrs id)) :=
    Outcome.mapM_ok _ fun l _ => L.neighbors_eq id l
  simp only [writeNode, L.index_deleted hid, L.levels_eq hid, L.vector_eq hid, hlists,
    L.index_attrs hid, Outcome.ok_bind]
  rfl

/-- **Encoding** a laid-out graph never indexes out of range: it writes the header and one record
per node. -/
theorem Layout.toBytes_eq {h : Hnsw} (L : Layout h) :
    h.toBytes = .ok (h.writeHeader ++ (List.range h.n).flatMap h.nodeBytes) := by
  have hnodes : (List.range h.n).mapM h.writeNode = .ok ((List.range h.n).map h.nodeBytes) :=
    Outcome.mapM_ok _ fun id hid => L.writeNode_eq (List.mem_range.mp hid)
  simp only [toBytes, hnodes, Outcome.ok_bind, List.flatMap_def]
  rfl

/-! ## The configuration -/

section Configuration

variable [Arith]

/-- The configuration fields are the ones `new` derives, and are machine words. The decoder derives
the caps and the normalizer again, so this is what it needs to arrive at the same ones. -/
structure Configured (h : Hnsw) : Prop where
  m_ge : 2 ≤ h.m
  m_word : h.m < 2 ^ 64
  gamma_ok : h.gamma.isFinite = true ∧ F32.one.le h.gamma = true ∧
    h.gamma.le HnswParams.maxGamma = true
  mCap_eq : h.mCap = (derivedParams h.m h.gamma).mCap
  m0Cap_eq : h.m0Cap = (derivedParams h.m h.gamma).m0Cap
  ml_eq : h.ml = (derivedParams h.m h.gamma).ml
  ef_ge : (derivedParams h.m h.gamma).efFloor ≤ h.efConstruction
  ef_word : h.efConstruction < 2 ^ 64
  seed_ne : h.seed ≠ 0
  rng_ne : h.rng ≠ 0
  attrs_word : ∀ row ∈ h.attrs, row.length < 2 ^ 64

/-- What the decoder additionally demands of the configuration. -/
def Admissible (h : Hnsw) : Prop :=
  h.m ≤ HnswParams.maxM ∧ h.m0Cap ≤ HnswParams.maxLayer0Degree ∧ h.maxLayer ≤ HnswParams.maxLayer

/-- The header the decoder should read back. -/
def headerOf (h : Hnsw) : GraphHeader where
  metric := h.metric
  m := h.m
  gamma := h.gamma
  derived := derivedParams h.m h.gamma
  efConstruction := h.efConstruction
  dim := h.dim
  maxLayer := h.maxLayer
  seed := h.seed
  rng := h.rng
  entryPoint := h.entryPoint
  n := h.n

omit [Arith] in
theorem reads_metric (metric : Metric) (rest : List UInt8) :
    Reads (readMetric metric.code.toNat : Decoder (List UInt8) Metric) [] rest metric := by
  unfold readMetric
  rw [UInt8.ofNat_toNat, Metric.fromCode_code]
  exact Reads.pure _ _

omit [Arith] in
/-- An entry point is below the count, so it is not taken for the absent one. -/
theorem reads_entryPoint {h : Hnsw} (W : WellFormed h) (rest : List UInt8) :
    Reads (readEntryPoint (h.entryPoint.getD noEntry) h.n : Decoder (List UInt8) _) [] rest
      h.entryPoint := by
  have hn := W.n_lt_u32
  unfold readEntryPoint noEntry
  cases he : h.entryPoint with
  | none =>
    rw [Option.getD_none, if_pos rfl]
    exact Reads.pure _ _
  | some e =>
    have hlt := W.entry_lt e he
    rw [Option.getD_some, if_neg (by omega), if_pos hlt]
    exact Reads.pure _ _

omit [Arith] in
/-- The entry point owns the top layer, and its layers fit. -/
theorem maxLayer_lt_u32 {h : Hnsw} (W : WellFormed h) : h.maxLayer < 2 ^ 32 := by
  rcases Nat.eq_zero_or_pos h.n with hn | hn
  · rw [(W.empty hn).2]
    exact Nat.two_pow_pos 32
  · obtain ⟨e, -, hlt, htop⟩ := W.entry hn
    have hsucc := W.base_succ hlt
    have hfit := W.base_lt_u32 (show e + 1 ≤ h.n from hlt)
    omega

/-- The header reads back exactly when the configuration is one the decoder admits. -/
theorem readsIff_header {h : Hnsw} (W : WellFormed h) (C : Configured h) (rest : List UInt8) :
    ReadsIff (readHeader : Decoder (List UInt8) GraphHeader) h.writeHeader rest (Admissible h)
      (headerOf h) := by
  have hn := W.n_lt_u32
  have hmax := maxLayer_lt_u32 W
  have hdim := W.dim_le
  have hentry : h.entryPoint.getD noEntry < 2 ^ 64 := by
    cases he : h.entryPoint with
    | none => decide
    | some e =>
      have := W.entry_lt e he
      rw [Option.getD_some]
      omega
  have hgamma : F32.ofNatBits h.gamma.bits.toNat = h.gamma :=
    congrArg F32.mk UInt32.ofNat_toNat
  have hsome : (decide (h.n = 0) || h.entryPoint.isSome) = true := by
    rcases Nat.eq_zero_or_pos h.n with hn | hn
    · simp [hn]
    · obtain ⟨e, he, -⟩ := W.entry hn
      simp [he]
  have hdimpos : (decide (h.n = 0) || decide (h.dim ≠ 0)) = true := by
    rcases Nat.eq_zero_or_pos h.n with hn | hn
    · simp [hn]
    · have := W.dim_pos hn
      simp only [Bool.or_eq_true, decide_eq_true_eq]
      omega
  have hef : decide ((derivedParams h.m h.gamma).efFloor ≤ h.efConstruction) = true :=
    decide_eq_true C.ef_ge
  have hgammaOk : (h.gamma.isFinite && F32.one.le h.gamma && h.gamma.le HnswParams.maxGamma) =
      true := by
    simp only [C.gamma_ok, Bool.and_self]
  have hwords : (decide (h.seed ≠ 0) && decide (h.rng ≠ 0)) = true := by
    simp only [C.seed_ne, C.rng_ne, ne_eq, not_false_eq_true, decide_true, Bool.and_self]
  -- the fields in their order; three of the checks are not met by every graph
  have key : ReadsIff (readHeader : Decoder (List UInt8) GraphHeader) (h.writeHeader ++ []) rest
      ((decide (2 ≤ h.m) && decide (h.m ≤ HnswParams.maxM)) = true ∧
        decide ((derivedParams h.m h.gamma).m0Cap ≤ HnswParams.maxLayer0Degree) = true ∧
        decide (h.maxLayer ≤ HnswParams.maxLayer) = true ∧ True) (headerOf h) := by
    unfold readHeader writeHeader
    simp only [List.append_assoc, List.cons_append, List.nil_append]
    refine .bind_reads (reads_u32 (by decide) _) ?_
    refine .bind_nil (reads_require _ _ (decide_eq_true rfl)) ?_
    refine .bind_reads (reads_u16 (by decide) _) ?_
    refine .bind_nil (reads_require _ _ (decide_eq_true rfl)) ?_
    refine .bind_cons (reads_u8 _ _) ?_
    refine .bind_nil (reads_metric _ _) ?_
    refine .bind_cons (reads_u8 _ _) ?_
    refine .bind_reads (reads_u64 C.m_word _) ?_
    refine .bind_check (readsIff_require _ _ _) fun _ => ?_
    refine .bind_reads (reads_u32 h.gamma.bits.toNat_lt _) ?_
    rw [hgamma]
    refine .bind_nil (reads_require _ _ hgammaOk) ?_
    refine .bind_check (readsIff_require _ _ _) fun _ => ?_
    refine .bind_reads (reads_u64 C.ef_word _) ?_
    refine .bind_nil (reads_require _ _ hef) ?_
    refine .bind_reads (reads_u64 (by unfold HnswParams.maxDim at hdim; omega) _) ?_
    refine .bind_nil (reads_require _ _ (decide_eq_true hdim)) ?_
    refine .bind_reads (reads_u64 (by omega) _) ?_
    refine .bind_check (readsIff_require _ _ _) fun _ => ?_
    refine .bind_reads (reads_u64 h.seed.toNat_lt _) ?_
    refine .bind_reads (reads_u64 h.rng.toNat_lt _) ?_
    rw [UInt64.ofNat_toNat, UInt64.ofNat_toNat]
    refine .bind_nil (reads_require _ _ hwords) ?_
    refine .bind_reads (reads_u64 hentry _) ?_
    refine .bind_reads (reads_u64 (by omega) _) ?_
    refine .bind_nil (reads_entryPoint W _) ?_
    refine .bind_nil (reads_require _ _ hsome) ?_
    refine .bind_nil (reads_require _ _ hdimpos) ?_
    exact (Reads.pure _ _).readsIff
  rw [List.append_nil] at key
  refine key.congr ?_
  have hm := C.m_ge
  unfold Admissible
  simp only [Bool.and_eq_true, decide_eq_true_eq, C.m0Cap_eq, hm, true_and, and_true]

end Configuration

end Hnsw

end Brindle
