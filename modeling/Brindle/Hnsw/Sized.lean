/-
# Brindle.Hnsw.Sized — the sizes an insert computes.

`insert_with_attrs` once more, with every offset, length and capacity it computes checked against its
word and with the visited set of each beam reserved for. The build's beams are as wide as the
`ef_construction` of the graph, which is the one header field the decoder bounds from below only. A
width no larger than an index can be created with is enough for every size of every later insert to
fit, whatever else the decoder accepted; a wider one already fails the first insert that links a node.
-/
import Brindle.Hnsw.Accepted
import Brindle.Hnsw.Configured
import Brindle.Hnsw.Untrusted
import Brindle.Lib.Sized

namespace Brindle

open Outcome (index slice overwrite fail)
open Run (After after_iff after_true)
open Sized (lift size offset minus withCapacity Tracks size_ok offset_ok minus_ok withCapacity_ok)

/-- The largest `ef_construction` the index option takes. -/
def maxEfConstruction : Nat := 1000

/-- The widest build beam an index can be created with: the option's, or the layer-0 degree a
densified graph's is raised to. -/
def maxBuildEf : Nat := max maxEfConstruction HnswParams.maxLayer0Degree

/-- What the visited set of that beam is reserved for. -/
def buildCapacity : Nat := maxBuildEf * 8

namespace Hnsw

/-! ## Offsets -/

section Offsets

variable (h : Hnsw)

def slotWidthSized (layer : Nat) : Sized HnswError Nat := size (h.maxDegree layer + 1)

/-- `slot_width(0) + (above - 1) * slot_width(1)`. -/
def runSized (above : Nat) : Sized HnswError Nat := do
  let upper ← size ((← minus above 1) * (← h.slotWidthSized 1))
  size ((← h.slotWidthSized 0) + upper)

/-- Where the slots of node `id` begin. -/
def linkBaseSized (id : Nat) : Sized HnswError Nat := do
  let upper ← minus (← lift (index h.layerBase id)) id
  let low ← size (id * (← h.slotWidthSized 0))
  let high ← size (upper * (← h.slotWidthSized 1))
  size (low + high)

/-- Where its list at `layer` begins. -/
def layerSlotSized (id layer : Nat) : Sized HnswError Nat := do
  let base ← h.linkBaseSized id
  let within ← if layer = 0 then pure 0 else h.runSized layer
  size (base + within)

/-- How many layers it has, as the difference of two offsets. -/
def levelsSized (id : Nat) : Sized HnswError Nat := do
  let stop ← lift (index h.layerBase (← size (id + 1)))
  minus stop (← lift (index h.layerBase id))

/-- Where `link_counts` keeps the count of `layer`. -/
def countIndexSized (id layer : Nat) : Sized HnswError Nat := do
  size ((← lift (index h.layerBase id)) + layer)

/-- The bounds of its vector, and then the vector. -/
def vectorSized (id : Nat) : Sized HnswError (List F32) := do
  let start ← size (id * h.dim)
  let _ ← size (start + h.dim)
  lift (h.vector id)

def neighborsSized (id layer : Nat) : Sized HnswError (List Nat) := do
  if id ≥ h.n then return []
  if layer ≥ (← h.levelsSized id) then return []
  let start ← h.layerSlotSized id layer
  let count ← lift (index h.linkCounts (← h.countIndexSized id layer))
  let _ ← size (start + count)
  lift (slice h.links start count)

def setNeighborsSized (id layer : Nat) (ids : List Nat) : Sized HnswError Hnsw := do
  let start ← h.layerSlotSized id layer
  let _ ← size (start + ids.length)
  let h ← lift (h.copyIntoLinks start ids)
  lift (h.storeCount (← h.countIndexSized id layer) ids.length)

/-- The new count is computed before it is stored as a `u32`. -/
def pushNeighborSized (id layer neighbor : Nat) : Sized HnswError (Hnsw × Nat) := do
  let idx ← h.countIndexSized id layer
  let count ← lift (index h.linkCounts idx)
  let start ← h.layerSlotSized id layer
  let h ← lift (h.copyIntoLinks (← size (start + count)) [neighbor])
  let len ← size (count + 1)
  let h ← lift (h.storeCount idx len)
  return (h, len)

/-- The lengths the flat arrays grow to, then the node. -/
def pushNodeSized (vector : List F32) (attrs : List AttrValue) (levels : Nat) :
    Sized HnswError (Hnsw × Nat) := do
  if h.n ≥ maxNodes then lift (h.pushNode vector attrs levels)
  else
    let _ ← size (h.vectors.length + vector.length)
    let _ ← offset ((← lift (index h.layerBase h.n)) + levels)
    let _ ← size (h.linkCounts.length + levels)
    let _ ← size (h.links.length + (← h.runSized levels))
    let _ ← size (h.n + 1)
    lift (h.pushNode vector attrs levels)

end Offsets

/-! ## The search of a build -/

section Build

variable [Arith]

/-- A beam reserves eight places of the visited set for each of its width. -/
def beamSized (ef : Nat) (tr : Traversal) : Sized HnswError Beam := do
  withCapacity buildCapacity (← size (max ef 1 * 8))
  return Beam.new ef tr

def visitSized (h : Hnsw) (query : List F32) (beam : Beam) (id : Nat) :
    Sized HnswError (Bool × Beam) := do
  if beam.visited.contains id then return (false, beam)
  let beam := { beam with visited := id :: beam.visited }
  let d ← lift (h.distance query (← h.vectorSized id))
  let beam := { beam with tr := beam.tr.countDistance }
  if beam.results.length < beam.ef || d.lt beam.farthest then
    return (true, beam.push ⟨d, id⟩ (← lift (h.admissible id none)))
  return (false, beam)

def expandSized (h : Hnsw) (query : List F32) (layer : Nat) (beam : Beam) (id : Nat) :
    Sized HnswError (Bool × Beam) := do
  let neighbors ← h.neighborsSized id layer
  let beam ← neighbors.foldlM (fun beam n => do
    let (_, beam) ← h.visitSized query beam n
    return beam) beam
  return (false, beam)

def seedBeamSized (h : Hnsw) (query : List F32) (entryPoints : List Nat) (beam : Beam) :
    Sized HnswError Beam :=
  entryPoints.foldlM (fun beam ep => do
    if beam.visited.contains ep then return beam
    let beam := { beam with visited := ep :: beam.visited }
    let d ← lift (h.distance query (← h.vectorSized ep))
    let beam := { beam with tr := beam.tr.countDistance }
    return beam.push ⟨d, ep⟩ (← lift (h.admissible ep none))) beam

def walkFrontierSized (h : Hnsw) (query : List F32) (layer : Nat) :
    Nat → Beam → Sized HnswError Beam
  | 0, _ => Outcome.starved
  | fuel + 1, beam =>
    match beam.frontier with
    | [] => return beam
    | c :: rest => do
      let beam := { beam with frontier := rest }
      if c.dist.gt beam.farthest then return beam
      let beam := { beam with tr := beam.tr.countExpansion false }
      let (_, beam) ← h.expandSized query layer beam c.id
      walkFrontierSized h query layer fuel beam

/-- A search without a predicate: the rounds that rescue nodes are not entered. -/
def searchLayerSized (h : Hnsw) (query : List F32) (entryPoints : List Nat) (ef layer : Nat)
    (tr : Traversal) : Sized HnswError (List Cand × Traversal) := do
  let beam ← beamSized ef tr
  let beam ← h.seedBeamSized query entryPoints beam
  let beam ← h.walkFrontierSized query layer (h.n + 1) beam
  return (beam.results, beam.tr)

/-! ## Selecting and linking -/

def keepsDiversitySized (h : Hnsw) (cand : Cand) : List Nat → Sized HnswError Bool
  | [] => return true
  | r :: selected => do
    let d ← lift (h.distance (← h.vectorSized cand.id) (← h.vectorSized r))
    if d.lt cand.dist then return false
    keepsDiversitySized h cand selected

def selectDiverseSized (h : Hnsw) (m : Nat) : List Cand → List Nat → Sized HnswError (List Nat)
  | [], selected => return selected
  | cand :: rest, selected => do
    if selected.length ≥ m then return selected
    let keep ← h.keepsDiversitySized cand selected
    selectDiverseSized h m rest (if keep then selected ++ [cand.id] else selected)

def selectNeighborsHeuristicSized (h : Hnsw) (candidates : List Cand) (m : Nat) :
    Sized HnswError (List Nat) := do
  let sorted := candidates.insertionSort (· ≤ ·)
  let selected ← h.selectDiverseSized m sorted []
  return if selected.length < m then backfill m sorted selected else selected

def scoreAgainstSized (h : Hnsw) (base : List F32) (ids : List Nat) :
    Sized HnswError (List Cand) :=
  ids.foldlM (fun (cands : List Cand) nn => do
    let d ← lift (h.distance base (← h.vectorSized nn))
    return cands ++ [⟨d, nn⟩]) []

def linkBackSized (h : Hnsw) (id lc n : Nat) : Sized HnswError Hnsw := do
  let (h, len) ← h.pushNeighborSized n lc (asU32 id)
  if len ≤ h.maxDegree lc then return h
  let nbase ← h.vectorSized n
  let cands ← h.scoreAgainstSized nbase (← h.neighborsSized n lc)
  let kept ← h.selectNeighborsHeuristicSized cands (h.maxDegree lc)
  h.setNeighborsSized n lc (kept.map asU32)

def connectLayerSized (h : Hnsw) (query : List F32) (id lc : Nat) (epIds : List Nat)
    (tr : Traversal) : Sized HnswError (Hnsw × List Cand × Traversal) := do
  let (w, tr) ← h.searchLayerSized query epIds h.efConstruction lc tr
  let selected ← h.selectNeighborsHeuristicSized w (h.maxDegree lc)
  let h ← h.setNeighborsSized id lc (selected.map asU32)
  let h ← selected.foldlM (fun h n => h.linkBackSized id lc n) h
  return (h, w, tr)

def greedyDescentSized (h : Hnsw) (query : List F32) (layers : List Nat) (epIds : List Nat)
    (tr : Traversal) : Sized HnswError (List Nat × Traversal) :=
  layers.foldlM (fun (epIds, tr) lc => do
    let (w, tr) ← h.searchLayerSized query epIds 1 lc tr
    return (match w.head? with
      | some nearest => [nearest.id]
      | none => epIds, tr)) (epIds, tr)

def connectLayersSized (h : Hnsw) (query : List F32) (id entry : Nat) (layers : List Nat)
    (epIds : List Nat) (tr : Traversal) : Sized HnswError (Hnsw × List Nat × Traversal) :=
  layers.foldlM (fun (h, epIds, tr) lc => do
    let (h, w, tr) ← h.connectLayerSized query id lc epIds tr
    let epIds := w.map Cand.id
    return (h, if epIds.isEmpty then [entry] else epIds, tr)) (h, epIds, tr)

/-- The descent goes down to the layer above the node's own. -/
def linkNodeSized (h : Hnsw) (id level : Nat) : Sized HnswError Hnsw := do
  match h.entryPoint with
  | none => return { h with entryPoint := some id, maxLayer := level }
  | some entry =>
    let query ← h.vectorSized id
    let maxLayer := h.maxLayer
    let above ← size (level + 1)
    let (epIds, tr) ←
      h.greedyDescentSized query (layersDown above maxLayer) [entry] Traversal.unfiltered
    let (h, _, _) ←
      h.connectLayersSized query id entry (layersDown 0 (min level maxLayer)) epIds tr
    if level > h.maxLayer then return { h with maxLayer := level, entryPoint := some id }
    return h

/-- The number of layers is a size too. -/
def storeAndLinkSized (h : Hnsw) (vector : List F32) (attrs : List AttrValue) (level : Nat) :
    Sized HnswError (Hnsw × Except HnswError Nat) := do
  let levels ← size (level + 1)
  match h.pushNodeSized vector attrs levels with
  | .error (.error (.error e)) => .ok (h, .error e)
  | .error fault => .error fault
  | .ok (h, id) => do
    let h ← h.linkNodeSized id level
    return (h, .ok id)

/-- `insert_with_attrs` with its sizes checked and the drawn level given. -/
def insertDrawnSized (h : Hnsw) (vector : List F32) (attrs : List AttrValue) (level : Nat) :
    Sized HnswError (Hnsw × Except HnswError Nat) :=
  match h.acceptVector vector with
  | .error e => .ok (h, .error e)
  | .ok h => storeAndLinkSized { h with rng := xorshift64 h.rng } vector attrs level

end Build

/-! ## What makes them fit -/

/-- The shape of a graph, whatever its lists hold: the prefix sums and the array lengths agree, ids
and counts are 32-bit ones, and the limits of the header hold. -/
structure Measured (ef : Nat) (h : Hnsw) : Prop where
  shape : Layout (h.withLinks h.links (List.replicate h.linkCounts.length 0))
  m0Cap_le : h.m0Cap ≤ HnswParams.maxLayer0Degree
  mCap_le : h.mCap ≤ HnswParams.maxLayer0Degree
  dim_le : h.dim ≤ HnswParams.maxDim
  dim_pos : 0 < h.n → 0 < h.dim
  counts_lt : ∀ c ∈ h.linkCounts, c < 2 ^ 32
  links_lt : ∀ x ∈ h.links, x < 2 ^ 32
  entry_lt : ∀ e, h.entryPoint = some e → e < 2 ^ 32
  top_lt : h.maxLayer < 2 ^ 32
  ef_eq : h.efConstruction = ef

namespace Measured

variable {ef : Nat} {h : Hnsw} (M : Measured ef h)
include M

theorem le_base {id : Nat} (hid : id ≤ h.n) : id ≤ h.base id := M.shape.le_base hid

theorem base_lt_u32 {id : Nat} (hid : id ≤ h.n) : h.base id < 2 ^ 32 := M.shape.base_lt_u32 hid

theorem n_lt_u32 : h.n < 2 ^ 32 := M.shape.n_lt_u32

theorem counts_len : h.linkCounts.length = h.base h.n :=
  (List.length_replicate ..).symm.trans M.shape.counts_len

/-- One slot more than the cap that the header allows. -/
theorem slotWidth_le (layer : Nat) : h.slotWidth layer ≤ 2049 := by
  have h0 := M.m0Cap_le
  have h1 := M.mCap_le
  unfold HnswParams.maxLayer0Degree at h0 h1
  unfold slotWidth maxDegree
  split_ifs <;> omega

theorem slotWidthSized_eq (layer : Nat) :
    h.slotWidthSized layer = .ok (h.slotWidth layer) := by
  have hle := M.slotWidth_le layer
  exact size_ok (by unfold Usize.words; unfold slotWidth at hle; omega)

/-- A run of a node with fewer than `2 ^ 32` layers. -/
theorem run_le {above : Nat} (habove : above < 2 ^ 32) :
    (above - 1) * h.slotWidth 1 ≤ 2 ^ 32 * 2049 :=
  Nat.mul_le_mul (by omega) (M.slotWidth_le 1)

/-- The slots of a node with fewer than `2 ^ 32` layers fit a word. -/
theorem runSized_eq {above : Nat} (hpos : 0 < above) (habove : above < 2 ^ 32) :
    h.runSized above = .ok (h.slotWidth 0 + (above - 1) * h.slotWidth 1) := by
  have hrun := M.run_le habove
  have hzero := M.slotWidth_le 0
  unfold runSized
  rw [minus_ok (show 1 ≤ above from hpos), Outcome.ok_bind, M.slotWidthSized_eq, M.slotWidthSized_eq, Outcome.ok_bind,
    size_ok (by unfold Usize.words; omega), Outcome.ok_bind, Outcome.ok_bind,
    size_ok (by unfold Usize.words; omega)]

/-- So do those of all the nodes together. -/
theorem runStart_le {id : Nat} (hid : id ≤ h.n) : h.runStart id ≤ 2 ^ 32 * 2049 := by
  have hbase := M.base_lt_u32 hid
  have hle := M.le_base hid
  calc h.runStart id
      = id * h.slotWidth 0 + (h.base id - id) * h.slotWidth 1 := rfl
    _ ≤ id * 2049 + (h.base id - id) * 2049 :=
        Nat.add_le_add (Nat.mul_le_mul_left _ (M.slotWidth_le 0))
          (Nat.mul_le_mul_left _ (M.slotWidth_le 1))
    _ = h.base id * 2049 := by
        rw [← Nat.add_mul]
        congr 1
        omega
    _ ≤ 2 ^ 32 * 2049 := Nat.mul_le_mul_right _ hbase.le

theorem slotWithin_le {layer : Nat} (hlayer : layer < 2 ^ 32) :
    h.slotWithin layer ≤ 2 ^ 32 * 2050 := by
  have hrun := M.run_le hlayer
  have hzero := M.slotWidth_le 0
  unfold slotWithin
  split_ifs
  · omega
  · omega

/-- An offset that is there belongs to a node, or is the sentinel. -/
theorem index_layerBase (id : Nat) :
    After (fun base => id ≤ h.n ∧ base = h.base id)
      (index h.layerBase id : Outcome HnswError Nat) := by
  have hlen : h.layerBase.length = h.n + 1 := M.shape.base_len
  unfold index
  cases hget : h.layerBase[id]? with
  | none => trivial
  | some base =>
    have hlt := (List.getElem?_eq_some_iff.mp hget).1
    refine ⟨by omega, ?_⟩
    unfold Hnsw.base
    rw [List.getD_eq_getElem?_getD, hget]
    rfl

theorem index_linkCounts (idx : Nat) :
    After (· < 2 ^ 32) (index h.linkCounts idx : Outcome HnswError Nat) := by
  unfold index
  cases hget : h.linkCounts[idx]? with
  | none => trivial
  | some count => exact M.counts_lt count (List.mem_of_getElem? hget)

/-! ### Offsets -/

/-- The subtraction does not underflow, since each node has a layer. -/
theorem linkBase_tracks (id : Nat) :
    Tracks (h.linkBaseSized id) (h.linkBase id) (· ≤ 2 ^ 32 * 2049) := by
  unfold linkBaseSized linkBase
  refine (Tracks.lift (M.index_layerBase id)).bind ?_
  rintro _ ⟨hid, rfl⟩
  have hle := M.le_base hid
  have hsum := M.runStart_le hid
  have hrun : h.runStart id = id * h.slotWidth 0 + (h.base id - id) * h.slotWidth 1 := rfl
  refine .sized (minus_ok hle) ?_
  refine .sized (M.slotWidthSized_eq 0) ?_
  refine .sized (size_ok (by unfold Usize.words; omega)) ?_
  refine .sized (M.slotWidthSized_eq 1) ?_
  refine .sized (size_ok (by unfold Usize.words; omega)) ?_
  refine .ok (size_ok (by unfold Usize.words; omega)) ?_
  rw [← hrun]
  exact hsum

theorem layerSlot_tracks (id : Nat) {layer : Nat} (hlayer : layer < 2 ^ 32) :
    Tracks (h.layerSlotSized id layer) (h.layerSlot id layer) (· ≤ 2 ^ 32 * 4099) := by
  unfold layerSlotSized layerSlot
  refine (M.linkBase_tracks id).bind fun base hbase => ?_
  have hwithin := M.slotWithin_le hlayer
  have hfit : base + h.slotWithin layer < Usize.words := by
    unfold Usize.words
    omega
  have hsum : base + h.slotWithin layer ≤ 2 ^ 32 * 4099 := by omega
  unfold slotWithin at hfit hsum ⊢
  split_ifs at hfit hsum ⊢ with hzero
  · exact .sized rfl (.ok (size_ok hfit) hsum)
  · exact .sized (M.runSized_eq (Nat.pos_of_ne_zero hzero) hlayer) (.ok (size_ok hfit) hsum)

/-- A step that finds out where a count is kept. -/
theorem countIndex_bind {α : Type} {J : α → Prop} (id : Nat) {layer : Nat}
    (hlayer : layer < 2 ^ 32) {g : Nat → Sized HnswError α} {f : Nat → Outcome HnswError α}
    (hf : ∀ base, Tracks (g (base + layer)) (f base) J) :
    Tracks (h.countIndexSized id layer >>= g) (index h.layerBase id >>= f) J := by
  unfold countIndexSized
  rw [bind_assoc]
  refine (Tracks.lift (M.index_layerBase id)).bind ?_
  rintro _ ⟨hid, rfl⟩
  have hbase := M.base_lt_u32 hid
  exact .sized (size_ok (by unfold Usize.words; omega)) (hf _)

theorem vector_tracks {id : Nat} (hid : id < 2 ^ 32) :
    Tracks (h.vectorSized id) (h.vector id) fun _ => True := by
  have hdim := M.dim_le
  unfold HnswParams.maxDim at hdim
  have hstart : id * h.dim ≤ 2 ^ 32 * 16000 := Nat.mul_le_mul hid.le hdim
  refine .sized (size_ok (by unfold Usize.words; omega)) ?_
  refine .sized (size_ok (by unfold Usize.words; omega)) ?_
  exact .lift (after_true _)

theorem levels_eq {id : Nat} (hid : id < h.n) : h.levels id = .ok (h.levelsOf id) :=
  M.shape.levels_eq hid

theorem levelsSized_eq {id : Nat} (hid : id < h.n) : h.levelsSized id = .ok (h.levelsOf id) := by
  have hn := M.n_lt_u32
  have hle : h.base id ≤ h.base (id + 1) := M.shape.base_mono (Nat.le_succ id) hid
  have hstop : (index h.layerBase (id + 1) : Outcome HnswError Nat) = .ok (h.base (id + 1)) :=
    M.shape.index_layerBase hid
  have hstart : (index h.layerBase id : Outcome HnswError Nat) = .ok (h.base id) :=
    M.shape.index_layerBase hid.le
  unfold levelsSized
  rw [size_ok (by unfold Usize.words; omega), Outcome.ok_bind, hstop, hstart]
  exact minus_ok hle

/-- A list read holds 32-bit ids. -/
theorem neighbors_tracks (id : Nat) {layer : Nat} (hlayer : layer < 2 ^ 32) :
    Tracks (h.neighborsSized id layer) (h.neighbors id layer) fun ids => ∀ x ∈ ids, x < 2 ^ 32 := by
  unfold neighborsSized neighbors
  split_ifs with hid
  · exact .pure nofun
  · have hid' : id < h.n := Nat.lt_of_not_le hid
    rw [M.levelsSized_eq hid', M.levels_eq hid', Outcome.ok_bind, Outcome.ok_bind]
    split_ifs
    · exact .pure nofun
    · refine (M.layerSlot_tracks id hlayer).bind fun start hstart => ?_
      refine M.countIndex_bind id hlayer fun base => ?_
      refine (Tracks.lift (M.index_linkCounts _)).bind fun count hcount => ?_
      refine .sized (size_ok (by unfold Usize.words; omega)) (.lift ?_)
      unfold slice
      split_ifs
      · intro x hx
        exact M.links_lt x (List.mem_of_mem_drop (List.mem_of_mem_take hx))
      · trivial

/-! ### Writing -/

/-- New contents for the links and the counts, of the same lengths. -/
theorem withLinks {links counts : List Nat} (hlinks : links.length = h.links.length)
    (hcounts : counts.length = h.linkCounts.length) (hids : ∀ x ∈ links, x < 2 ^ 32)
    (hlt : ∀ c ∈ counts, c < 2 ^ 32) : Measured ef (h.withLinks links counts) :=
  { M with
    shape := by
      have hzero : (h.withLinks links counts).linkCounts.length = h.linkCounts.length := hcounts
      rw [hzero]
      exact { M.shape with links_len := hlinks.trans M.shape.links_len }
    counts_lt := hlt
    links_lt := hids }

theorem copyIntoLinks (start : Nat) {ids : List Nat} (hids : ∀ x ∈ ids, x < 2 ^ 32) :
    After (fun g => Measured ef g ∧ g.linkCounts = h.linkCounts) (h.copyIntoLinks start ids) := by
  unfold Hnsw.copyIntoLinks overwrite
  split_ifs with hfit
  · refine ⟨M.withLinks ?_ rfl ?_ M.counts_lt, rfl⟩
    · rw [List.length_append, List.length_append, List.length_take, List.length_drop]
      omega
    · intro x hx
      rcases List.mem_append.mp hx with hx | hx
      · rcases List.mem_append.mp hx with hx | hx
        · exact M.links_lt x (List.mem_of_mem_take hx)
        · exact hids x hx
      · exact M.links_lt x (List.mem_of_mem_drop hx)
  · trivial

theorem storeCount (idx count : Nat) : After (Measured ef) (h.storeCount idx count) := by
  unfold Hnsw.storeCount
  split_ifs
  · refine M.withLinks rfl (List.length_set ..) M.links_lt fun c hc => ?_
    rcases List.mem_or_eq_of_mem_set hc with hc | rfl
    · exact M.counts_lt c hc
    · exact Nat.mod_lt _ (Nat.two_pow_pos 32)
  · trivial

/-- A list of 32-bit ids, written over the one there was. -/
theorem setNeighbors_tracks (id : Nat) {layer : Nat} (hlayer : layer < 2 ^ 32) {ids : List Nat}
    (hlen : ids.length < 2 ^ 32) (hids : ∀ x ∈ ids, x < 2 ^ 32) :
    Tracks (h.setNeighborsSized id layer ids) (h.setNeighbors id layer ids) (Measured ef) := by
  unfold setNeighborsSized setNeighbors
  refine (M.layerSlot_tracks id hlayer).bind fun start hstart => ?_
  refine .sized (size_ok (by unfold Usize.words; omega)) ?_
  refine (Tracks.lift (M.copyIntoLinks start hids)).bind fun g hg => ?_
  exact hg.1.countIndex_bind id hlayer fun base => .lift (hg.1.storeCount _ _)

theorem pushNeighbor_tracks (id : Nat) {layer : Nat} (hlayer : layer < 2 ^ 32) {neighbor : Nat}
    (hneighbor : neighbor < 2 ^ 32) :
    Tracks (h.pushNeighborSized id layer neighbor) (h.pushNeighbor id layer neighbor)
      fun r => Measured ef r.1 := by
  unfold pushNeighborSized pushNeighbor
  refine M.countIndex_bind id hlayer fun base => ?_
  refine (Tracks.lift (M.index_linkCounts _)).bind fun count hcount => ?_
  refine (M.layerSlot_tracks id hlayer).bind fun start hstart => ?_
  refine .sized (size_ok (by unfold Usize.words; omega)) ?_
  have hone : ∀ x ∈ [neighbor], x < 2 ^ 32 := by
    intro x hx
    rw [List.mem_singleton.mp hx]
    exact hneighbor
  refine (Tracks.lift (M.copyIntoLinks (start + count) hone)).bind fun g hg => ?_
  refine .sized (size_ok (by unfold Usize.words; omega)) ?_
  refine (Tracks.lift (hg.1.storeCount _ _)).bind fun g' hg' => ?_
  exact .pure hg'

end Measured

/-! ### Searching -/

/-- Every candidate of the beam names a 32-bit id. -/
def SmallIds (beam : Beam) : Prop :=
  (∀ c ∈ beam.frontier, c.id < 2 ^ 32) ∧ ∀ c ∈ beam.results, c.id < 2 ^ 32

theorem SmallIds.push {beam : Beam} (B : SmallIds beam) {cand : Cand} (hid : cand.id < 2 ^ 32)
    (admissible : Bool) : SmallIds (beam.push cand admissible) := by
  refine ⟨fun c hc => ?_, fun c hc => ?_⟩
  · rcases Beam.mem_push_frontier.mp hc with rfl | hc
    · exact hid
    · exact B.1 c hc
  · rcases Beam.mem_push_results hc with ⟨rfl, -⟩ | hold
    · exact hid
    · exact B.2 c hold

namespace Measured

variable [Arith] {ef : Nat} {h : Hnsw} (M : Measured ef h)
include M

/-- A visit computes the bounds of one vector. -/
theorem visit_tracks (query : List F32) {beam : Beam} (B : SmallIds beam) {id : Nat}
    (hid : id < 2 ^ 32) :
    Tracks (h.visitSized query beam id) (h.visit query none beam id) fun r => SmallIds r.2 := by
  unfold visitSized visit
  split_ifs with hseen
  · exact .pure B
  · refine (M.vector_tracks hid).bind fun vector _ => ?_
    refine (Tracks.lift (after_true _)).bind fun d _ => ?_
    dsimp only
    split_ifs
    · refine (Tracks.lift (after_true _)).bind fun admissible _ => .pure ?_
      exact SmallIds.push B hid admissible
    · exact .pure B

/-- The neighbors are 32-bit ids, as everything in the arena. -/
theorem expand_tracks (query : List F32) {layer : Nat} (hlayer : layer < 2 ^ 32) {beam : Beam}
    (B : SmallIds beam) (id : Nat) :
    Tracks (h.expandSized query layer beam id) (h.expand query layer none beam id)
      fun r => SmallIds r.2 := by
  unfold expandSized expand
  refine (M.neighbors_tracks id hlayer).bind fun ids hids => ?_
  have hloop : Tracks
      (ids.foldlM (fun beam n => do
        let (_, beam) ← h.visitSized query beam n
        return beam) beam)
      (ids.foldlM (fun beam n => do
        let (_, beam) ← h.visit query none beam n
        return beam) beam) SmallIds := by
    refine Tracks.foldlM SmallIds ids (fun beam n hn B => ?_) B
    exact (M.visit_tracks query B (hids n hn)).bind fun r hr => .pure hr
  exact hloop.bind fun beam B => .pure B

theorem seedBeam_tracks (query : List F32) {entryPoints : List Nat}
    (heps : ∀ ep ∈ entryPoints, ep < 2 ^ 32) {beam : Beam} (B : SmallIds beam) :
    Tracks (h.seedBeamSized query entryPoints beam) (h.seedBeam query none entryPoints beam)
      SmallIds := by
  unfold seedBeamSized seedBeam
  refine Tracks.foldlM SmallIds entryPoints (fun beam ep hep B => ?_) B
  dsimp only
  split_ifs
  · exact .pure B
  · refine (M.vector_tracks (heps ep hep)).bind fun vector _ => ?_
    refine (Tracks.lift (after_true _)).bind fun d _ => ?_
    refine (Tracks.lift (after_true _)).bind fun admissible _ => .pure ?_
    exact SmallIds.push B (heps ep hep) admissible

/-- By induction on the fuel. -/
theorem walkFrontier_tracks (query : List F32) {layer : Nat} (hlayer : layer < 2 ^ 32) (fuel : Nat)
    {beam : Beam} (B : SmallIds beam) :
    Tracks (h.walkFrontierSized query layer fuel beam) (h.walkFrontier query layer none fuel beam)
      SmallIds := by
  induction fuel generalizing beam with
  | zero => exact .starved
  | succ fuel ih =>
    unfold walkFrontierSized walkFrontier
    cases hfrontier : beam.frontier with
    | nil => exact .pure B
    | cons c rest =>
      have hsmall := B.1
      rw [hfrontier] at hsmall
      have hrest : SmallIds { beam with frontier := rest } :=
        ⟨fun c hc => hsmall c (List.mem_cons_of_mem _ hc), B.2⟩
      simp only [isFiltered, Bool.not_false, Bool.true_or, Bool.and_true, Bool.false_and,
        Bool.false_eq_true, if_false]
      split_ifs
      · exact .pure hrest
      · have hcounted : SmallIds { beam with
            frontier := rest, tr := beam.tr.countExpansion false } := hrest
        exact (M.expand_tracks query hlayer hcounted c.id).bind fun r hr => ih hr

/-- **One search of a layer.** This is where the width of the beam must fit. -/
theorem searchLayer_tracks (query : List F32) {entryPoints : List Nat}
    (heps : ∀ ep ∈ entryPoints, ep < 2 ^ 32) {width : Nat} (hwidth : width ≤ maxBuildEf) {layer : Nat}
    (hlayer : layer < 2 ^ 32) (tr : Traversal) :
    Tracks (h.searchLayerSized query entryPoints width layer tr)
      (h.searchLayer query entryPoints width layer none tr) fun r => ∀ c ∈ r.1, c.id < 2 ^ 32 := by
  have hcapacity : max width 1 * 8 ≤ buildCapacity :=
    Nat.mul_le_mul_right 8 (Nat.max_le.mpr ⟨hwidth, by decide⟩)
  have hword : buildCapacity < Usize.words := by decide
  have hbeam : beamSized width tr = .ok (Beam.new width tr) := by
    unfold beamSized
    rw [size_ok (hcapacity.trans_lt hword), Outcome.ok_bind, withCapacity_ok hcapacity]
    rfl
  unfold searchLayerSized searchLayer searchRounds
  refine .sized hbeam ?_
  have hnew : SmallIds (Beam.new width tr) :=
    ⟨fun c hc => absurd hc List.not_mem_nil, fun c hc => absurd hc List.not_mem_nil⟩
  refine (M.seedBeam_tracks query heps hnew).bind fun beam B => ?_
  rw [bind_assoc]
  refine (M.walkFrontier_tracks query hlayer (h.n + 1) B).bind fun beam B => ?_
  simp only [isFiltered, Bool.not_false, Bool.or_true, Bool.true_or, if_true, pure_bind]
  exact .pure B.2

/-! ### Linking -/

theorem keepsDiversity_tracks {cand : Cand} (hcand : cand.id < 2 ^ 32) {selected : List Nat}
    (hselected : ∀ r ∈ selected, r < 2 ^ 32) :
    Tracks (h.keepsDiversitySized cand selected) (h.keepsDiversity cand selected)
      fun _ => True := by
  induction selected with
  | nil => exact .pure trivial
  | cons r selected ih =>
    unfold keepsDiversitySized keepsDiversity
    refine (M.vector_tracks hcand).bind fun a _ => ?_
    refine (M.vector_tracks (hselected r List.mem_cons_self)).bind fun b _ => ?_
    refine (Tracks.lift (after_true _)).bind fun d _ => ?_
    split_ifs
    · exact .pure trivial
    · exact ih fun r hr => hselected r (List.mem_cons_of_mem _ hr)

/-- A selection holds 32-bit ids, and no more than it was asked for. -/
def Selection (m : Nat) (selected : List Nat) : Prop :=
  selected.length ≤ m ∧ ∀ r ∈ selected, r < 2 ^ 32

omit M [Arith] in
theorem Selection.snoc {m : Nat} {selected : List Nat} (S : Selection m selected)
    (hroom : ¬ selected.length ≥ m) {id : Nat} (hid : id < 2 ^ 32) :
    Selection m (selected ++ [id]) := by
  refine ⟨?_, fun r hr => ?_⟩
  · rw [List.length_append, List.length_singleton]
    omega
  · rcases List.mem_append.mp hr with hr | hr
    · exact S.2 r hr
    · rw [List.mem_singleton.mp hr]
      exact hid

/-- By induction on the candidates, of which at most `m` are kept. -/
theorem selectDiverse_tracks {m : Nat} {cands : List Cand} (hcands : ∀ c ∈ cands, c.id < 2 ^ 32)
    {selected : List Nat} (S : Selection m selected) :
    Tracks (h.selectDiverseSized m cands selected) (h.selectDiverse m cands selected)
      (Selection m) := by
  induction cands generalizing selected with
  | nil => exact .pure S
  | cons cand rest ih =>
    have hcand := hcands cand List.mem_cons_self
    have hrest : ∀ c ∈ rest, c.id < 2 ^ 32 := fun c hc => hcands c (List.mem_cons_of_mem _ hc)
    unfold selectDiverseSized selectDiverse
    split_ifs with hfull
    · exact .pure S
    · refine (M.keepsDiversity_tracks hcand S.2).bind fun keep _ => ih hrest ?_
      cases keep with
      | true => exact S.snoc hfull hcand
      | false => exact S

omit M [Arith] in
theorem backfill_selection {m : Nat} {cands : List Cand} (hcands : ∀ c ∈ cands, c.id < 2 ^ 32)
    {selected : List Nat} (S : Selection m selected) : Selection m (backfill m cands selected) := by
  induction cands generalizing selected with
  | nil => exact S
  | cons cand rest ih =>
    unfold backfill
    split_ifs with hfull hheld
    · exact S
    · exact ih (fun c hc => hcands c (List.mem_cons_of_mem _ hc)) S
    · exact ih (fun c hc => hcands c (List.mem_cons_of_mem _ hc))
        (S.snoc hfull (hcands cand List.mem_cons_self))

theorem selectNeighborsHeuristic_tracks {candidates : List Cand}
    (hcands : ∀ c ∈ candidates, c.id < 2 ^ 32) (m : Nat) :
    Tracks (h.selectNeighborsHeuristicSized candidates m)
      (h.selectNeighborsHeuristic candidates m) (Selection m) := by
  have hsorted : ∀ c ∈ candidates.insertionSort (· ≤ ·), c.id < 2 ^ 32 := fun c hc =>
    hcands c ((List.mem_insertionSort _).mp hc)
  have hnone : Selection m [] := ⟨Nat.zero_le _, fun r hr => absurd hr List.not_mem_nil⟩
  refine (M.selectDiverse_tracks hsorted hnone).bind fun selected S => .pure ?_
  split_ifs
  · exact backfill_selection hsorted S
  · exact S

/-- Candidates are scored one after another. -/
theorem scoreAgainst_tracks (base : List F32) {ids : List Nat} (hids : ∀ x ∈ ids, x < 2 ^ 32) :
    Tracks (h.scoreAgainstSized base ids) (h.scoreAgainst base ids)
      fun cands => ∀ c ∈ cands, c.id < 2 ^ 32 := by
  refine Tracks.foldlM (fun cands : List Cand => ∀ c ∈ cands, c.id < 2 ^ 32) ids
    (fun cands nn hnn hcands => ?_) fun c hc => absurd hc List.not_mem_nil
  refine (M.vector_tracks (hids nn hnn)).bind fun vector _ => ?_
  refine (Tracks.lift (after_true _)).bind fun d _ => .pure fun c hc => ?_
  rcases List.mem_append.mp hc with hc | hc
  · exact hcands c hc
  · rw [List.mem_singleton.mp hc]
    exact hids nn hnn

omit M [Arith] in
theorem asU32_lt {ids : List Nat} : ∀ x ∈ ids.map asU32, x < 2 ^ 32 := by
  intro x hx
  obtain ⟨y, -, rfl⟩ := List.mem_map.mp hx
  exact Nat.mod_lt _ (Nat.two_pow_pos 32)

omit [Arith] in
/-- A selection as long as a list may be is written back. -/
theorem setSelection_tracks (id : Nat) {lc : Nat} (hlc : lc < 2 ^ 32) {selected : List Nat}
    (S : Selection (h.maxDegree lc) selected) :
    Tracks (h.setNeighborsSized id lc (selected.map asU32))
      (h.setNeighbors id lc (selected.map asU32)) (Measured ef) := by
  refine M.setNeighbors_tracks id hlc ?_ asU32_lt
  have hwidth := M.slotWidth_le lc
  have hlen := S.1
  unfold slotWidth at hwidth
  rw [List.length_map]
  omega

/-- The append first, then the pruning of a full list. -/
theorem linkBack_tracks (id : Nat) {lc : Nat} (hlc : lc < 2 ^ 32) {n : Nat} (hn : n < 2 ^ 32) :
    Tracks (h.linkBackSized id lc n) (h.linkBack id lc n) (Measured ef) := by
  unfold linkBackSized linkBack
  refine (M.pushNeighbor_tracks n hlc (Nat.mod_lt id (Nat.two_pow_pos 32))).bind ?_
  rintro ⟨g, len⟩ (G : Measured ef g)
  dsimp only
  split_ifs
  · exact .pure G
  · refine (G.vector_tracks hn).bind fun nbase _ => ?_
    refine (G.neighbors_tracks n hlc).bind fun ids hids => ?_
    refine (G.scoreAgainst_tracks nbase hids).bind fun cands hcands => ?_
    refine (G.selectNeighborsHeuristic_tracks hcands _).bind fun kept S => ?_
    exact G.setSelection_tracks n hlc S

/-- The width is the graph's `ef_construction`, from the header. -/
theorem connectLayer_tracks (hef : ef ≤ maxBuildEf) (query : List F32) (id : Nat) {lc : Nat} (hlc : lc < 2 ^ 32)
    {epIds : List Nat} (heps : ∀ ep ∈ epIds, ep < 2 ^ 32) (tr : Traversal) :
    Tracks (h.connectLayerSized query id lc epIds tr) (h.connectLayer query id lc epIds tr)
      fun r => Measured ef r.1 ∧ ∀ c ∈ r.2.1, c.id < 2 ^ 32 := by
  unfold connectLayerSized connectLayer
  refine (M.searchLayer_tracks query heps (M.ef_eq.trans_le hef) hlc tr).bind ?_
  rintro ⟨w, tr'⟩ hw
  refine (M.selectNeighborsHeuristic_tracks hw _).bind fun selected S => ?_
  refine (M.setSelection_tracks id hlc S).bind fun g G => ?_
  refine (Tracks.foldlM (Measured ef) selected (fun g n hn G => ?_) G).bind fun g G => .pure ⟨G, hw⟩
  exact G.linkBack_tracks id hlc (S.2 n hn)

/-- The descent is one wide at each layer. -/
theorem greedyDescent_tracks (query : List F32) {layers : List Nat}
    (hlayers : ∀ lc ∈ layers, lc < 2 ^ 32) {epIds : List Nat} (heps : ∀ ep ∈ epIds, ep < 2 ^ 32)
    (tr : Traversal) :
    Tracks (h.greedyDescentSized query layers epIds tr) (h.greedyDescent query layers epIds tr)
      fun r => ∀ ep ∈ r.1, ep < 2 ^ 32 := by
  unfold greedyDescentSized greedyDescent
  refine Tracks.foldlM (fun r : List Nat × Traversal => ∀ ep ∈ r.1, ep < 2 ^ 32) layers ?_ heps
  rintro ⟨eps, tr'⟩ lc hlc heps'
  refine (M.searchLayer_tracks query heps' (by decide) (hlayers lc hlc) tr').bind ?_
  rintro ⟨w, tr''⟩ hw
  apply Tracks.pure
  cases w with
  | nil => exact heps'
  | cons nearest rest =>
    intro ep hep
    rw [List.mem_singleton.mp hep]
    exact hw nearest List.mem_cons_self

/-- Each layer starts where the one above it ended, or at the entry point again. -/
theorem connectLayers_tracks (hef : ef ≤ maxBuildEf) (query : List F32) (id : Nat) {entry : Nat}
    (hentry : entry < 2 ^ 32) {layers : List Nat} (hlayers : ∀ lc ∈ layers, lc < 2 ^ 32) {epIds : List Nat}
    (heps : ∀ ep ∈ epIds, ep < 2 ^ 32) (tr : Traversal) :
    Tracks (h.connectLayersSized query id entry layers epIds tr)
      (h.connectLayers query id entry layers epIds tr)
      fun r => Measured ef r.1 ∧ ∀ ep ∈ r.2.1, ep < 2 ^ 32 := by
  unfold connectLayersSized connectLayers
  refine Tracks.foldlM (fun r : Hnsw × List Nat × Traversal =>
    Measured ef r.1 ∧ ∀ ep ∈ r.2.1, ep < 2 ^ 32) layers ?_ ⟨M, heps⟩
  rintro ⟨g, eps, tr'⟩ lc hlc ⟨G, heps'⟩
  refine (G.connectLayer_tracks hef query id (hlayers lc hlc) heps' tr').bind ?_
  rintro ⟨g', w, tr''⟩ ⟨G', hw⟩
  refine .pure ⟨G', ?_⟩
  dsimp only
  split_ifs
  · intro ep hep
    rw [List.mem_singleton.mp hep]
    exact hentry
  · intro ep hep
    obtain ⟨c, hc, rfl⟩ := List.mem_map.mp hep
    exact hw c hc

omit [Arith] in
/-- The node `id` as entry point, owning the top layer. -/
theorem withEntry {id level : Nat} (hid : id < 2 ^ 32) (hlevel : level + 1 < 2 ^ 32) :
    Measured ef { h with maxLayer := level, entryPoint := some id } :=
  { M with
    shape := { M.shape with }
    entry_lt := fun e he => by
      cases he
      exact hid
    top_lt := (Nat.lt_succ_self level).trans hlevel }

/-- **Linking a node**, from the descent to the entry point. -/
theorem linkNode_tracks (hef : ef ≤ maxBuildEf) {id level : Nat} (hid : id < 2 ^ 32) (hlevel : level + 1 < 2 ^ 32) :
    Tracks (h.linkNodeSized id level) (h.linkNode id level) (Measured ef) := by
  have htop := M.top_lt
  have hlayers : ∀ low top, top < 2 ^ 32 → ∀ lc ∈ layersDown low top, lc < 2 ^ 32 := by
    intro low top htop lc hlc
    have hmem := List.mem_range'.mp (List.mem_reverse.mp hlc)
    omega
  unfold linkNodeSized linkNode
  cases hentry : h.entryPoint with
  | none =>
    exact .pure (M.withEntry hid hlevel)
  | some entry =>
    have hsmall := M.entry_lt entry hentry
    dsimp only
    refine (M.vector_tracks hid).bind fun query _ => ?_
    refine .sized (size_ok (by unfold Usize.words; omega)) ?_
    refine (M.greedyDescent_tracks query (hlayers _ _ htop) ?_ _).bind ?_
    · intro ep hep
      rw [List.mem_singleton.mp hep]
      exact hsmall
    rintro ⟨epIds, tr⟩ heps
    refine (M.connectLayers_tracks hef query id hsmall (hlayers _ _ (by omega)) heps tr).bind ?_
    rintro ⟨g, epIds', tr'⟩ ⟨G, -⟩
    dsimp only
    split_ifs
    · exact .pure (withEntry G hid hlevel)
    · exact .pure G

/-! ### Storing -/

omit [Arith] in
/-- Storing a node whose layers fit keeps the shape. -/
theorem withNode {vector : List F32} (attrs : List AttrValue) {levels : Nat}
    (hvector : vector.length = h.dim) (hdim : 0 < h.dim) (hpos : 0 < levels) (hfit : h.base h.n + levels < 2 ^ 32) :
    Measured ef (h.withNode vector attrs levels) :=
  { M with
    shape := by
      have hshape : Layout ((h.withLinks h.links (List.replicate h.linkCounts.length 0)).withNode
          vector attrs levels) := M.shape.withNode vector attrs hvector hpos hfit
      have hcounts : (h.withNode vector attrs levels).linkCounts =
          h.linkCounts ++ List.replicate levels 0 := rfl
      rw [hcounts, List.length_append, List.length_replicate, ← List.replicate_append_replicate]
      exact { hshape with }
    dim_pos := fun _ => hdim
    counts_lt := fun c hc => by
      rcases List.mem_append.mp hc with hc | hc
      · exact M.counts_lt c hc
      · rw [List.eq_of_mem_replicate hc]
        exact Nat.two_pow_pos 32
    links_lt := fun x hx => by
      rcases List.mem_append.mp hx with hx | hx
      · exact M.links_lt x hx
      · rw [List.eq_of_mem_replicate hx]
        exact Nat.two_pow_pos 32 }

omit [Arith] in
/-- A node whose layers fit is stored. -/
theorem pushNode_eq {vector : List F32} (attrs : List AttrValue) {levels : Nat} (hpos : 0 < levels)
    (hfit : h.base h.n + levels < 2 ^ 32) :
    h.pushNode vector attrs levels = .ok (h.withNode vector attrs levels, h.n) := by
  have hn := M.le_base le_rfl
  have hlevels : asU32 levels = levels := Nat.mod_eq_of_lt (by omega)
  have hsum : asU32 (h.base h.n + levels) = h.base h.n + levels := Nat.mod_eq_of_lt hfit
  have hroom : ¬ h.n ≥ maxNodes := by
    unfold maxNodes
    omega
  have hbase : (index h.layerBase h.n : Outcome HnswError Nat) = .ok (h.base h.n) :=
    M.shape.index_layerBase le_rfl
  simp only [pushNode, if_neg hroom, hbase, Outcome.ok_bind, hlevels, hsum]
  rfl

omit [Arith] in
theorem links_len_le : h.links.length ≤ 2 ^ 32 * 2049 :=
  (M.shape.links_len).le.trans (M.runStart_le le_rfl)

omit [Arith] in
/-- Every length that an array grows to fits. -/
theorem pushNodeSized_eq {vector : List F32} (attrs : List AttrValue) {levels : Nat}
    (hvector : vector.length = h.dim) (hpos : 0 < levels) (hfit : h.base h.n + levels < 2 ^ 32) :
    h.pushNodeSized vector attrs levels = .ok (h.withNode vector attrs levels, h.n) := by
  have hn := M.le_base le_rfl
  have hdim := M.dim_le
  have hlinks := M.links_len_le
  have hrun := M.run_le (show levels < 2 ^ 32 by omega)
  have hzero := M.slotWidth_le 0
  have hvectors : h.vectors.length ≤ 2 ^ 32 * 16000 := by
    have hlen : h.vectors.length = h.n * h.dim := M.shape.vectors_len
    rw [hlen]
    exact Nat.mul_le_mul M.n_lt_u32.le hdim
  have hroom : ¬ h.n ≥ maxNodes := by
    unfold maxNodes
    omega
  have hbase : (index h.layerBase h.n : Outcome HnswError Nat) = .ok (h.base h.n) :=
    M.shape.index_layerBase le_rfl
  unfold HnswParams.maxDim at hdim
  unfold pushNodeSized
  rw [if_neg hroom, size_ok (by unfold Usize.words; omega), Outcome.ok_bind, hbase]
  show (offset (h.base h.n + levels) >>= _) = _
  rw [offset_ok hfit, Outcome.ok_bind, size_ok (by rw [M.counts_len]; unfold Usize.words; omega),
    Outcome.ok_bind, M.runSized_eq hpos (by omega), Outcome.ok_bind,
    size_ok (by unfold Usize.words; omega), Outcome.ok_bind,
    size_ok (by unfold Usize.words; omega), Outcome.ok_bind, M.pushNode_eq attrs hpos hfit]
  rfl

theorem storeAndLink_tracks (hef : ef ≤ maxBuildEf) {vector : List F32} (attrs : List AttrValue) {level : Nat}
    (hvector : vector.length = h.dim) (hdim : 0 < h.dim) (hfit : h.base h.n + (level + 1) < 2 ^ 32) :
    Tracks (h.storeAndLinkSized vector attrs level) (h.storeAndLink vector attrs level)
      fun r => Measured ef r.1 := by
  unfold storeAndLinkSized storeAndLink
  refine .sized (size_ok (by unfold Usize.words; omega)) ?_
  rw [M.pushNodeSized_eq attrs hvector (Nat.succ_pos level) hfit,
    M.pushNode_eq attrs (Nat.succ_pos level) hfit]
  have G := M.withNode attrs hvector hdim (Nat.succ_pos level) hfit
  exact (G.linkNode_tracks hef M.n_lt_u32 (by omega)).bind fun g hg => .pure hg

omit [Arith] in
/-- The graph once a vector is accepted and a level drawn. -/
theorem accepting {vector : List F32} (ha : h.Accepts vector) (rng : UInt64) :
    Measured ef { h with dim := vector.length, rng } := by
  obtain ⟨hne, hle, hdim⟩ := ha
  have hpos := List.length_pos_of_ne_nil hne
  have hvectors : h.vectors.length = h.n * vector.length := by
    have hlen : h.vectors.length = h.n * h.dim := M.shape.vectors_len
    rcases hdim with hzero | hsame
    · have hn : h.n = 0 := by
        by_contra hn
        have := M.dim_pos (Nat.pos_of_ne_zero hn)
        omega
      rw [hlen, hn, Nat.zero_mul, Nat.zero_mul]
    · rw [hlen, hsame]
  exact { M with
    shape := { M.shape with vectors_len := hvectors }
    dim_le := hle
    dim_pos := fun _ => hpos }

/-- **One insert.** The sizes it computes fit, and so will those of the next. -/
theorem insertDrawn_tracks (hef : ef ≤ maxBuildEf) (vector : List F32) (attrs : List AttrValue) {level : Nat}
    (hfit : h.base h.n + (level + 1) < 2 ^ 32) :
    Tracks (h.insertDrawnSized vector attrs level) (h.insertDrawn vector attrs level)
      fun r => Measured ef r.1 := by
  unfold insertDrawnSized insertDrawn
  by_cases ha : h.Accepts vector
  · rw [acceptVector_ok ha]
    exact (M.accepting ha _).storeAndLink_tracks hef attrs rfl (List.length_pos_of_ne_nil ha.1) hfit
  · obtain ⟨e, he⟩ := acceptVector_error ha
    rw [he]
    exact .pure M

omit [Arith] in
/-- A tombstone changes no size. -/
theorem delete {g : Hnsw} {id : Nat} (hdel : h.delete id = .ok g) : Measured ef g := by
  unfold Hnsw.delete at hdel
  split at hdel
  · cases hdel
  · cases hdel
    have hlen : (h.deleted.set id true).length = h.n :=
      (List.length_set ..).trans M.shape.deleted_len
    exact { M with shape := { M.shape with deleted_len := hlen } }

end Measured

end Hnsw

end Brindle
