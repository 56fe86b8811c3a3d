/-
# Brindle.Hnsw.Guarded — what the decoder computes and what it reserves.

The decoder of `Codec` keeps sizes as naturals and leaves out the room it asks for ahead of reading.
Here it is once more with both: every sum, product and difference is a 64-bit one that panics where
the word is left, and every reservation goes to an allocator that panics above its limit. A limit is a
share of what the source has left, never a count the bytes declare. On sources short of `2 ^ 45` bytes
the two decoders are one function (`fromGraphBytesGuarded_eq`), so none of these panics is reached.
-/
import Brindle.Hnsw.Configured
import Brindle.Hnsw.Sources
import Brindle.Hnsw.Untrusted

namespace Brindle

open Outcome (index overwrite panicked)
open Reader (Handles Matches)
open Decoder

/-- What a vector is reserved for. -/
inductive Room where
  | nodes
  /-- `layer_base`, with one entry past the nodes. -/
  | offsets
  | components
  | slots
  | attrValues
  | tids
  | rows
  /-- The buffer one vector's bytes are read through. -/
  | scratch
  deriving DecidableEq, Repr

/-- The most elements that may be reserved while the source has `left` bytes. -/
def Room.limit (left : Nat) : Room → Nat
  | .nodes => left / 25
  | .offsets => left / 25 + 1
  | .components => left / 4
  | .slots => left + 2 ^ 22
  | .attrValues => left / 9
  | .tids => left / 6
  | .rows => left / 32
  | .scratch => 4 * HnswParams.maxDim

/-- Ask for room for `count` elements. -/
def reserve {ε S : Type} (room : Room) (count left : Nat) : Reader ε S Unit := fun s =>
  if count ≤ room.limit left then .ok ((), s) else panicked

section Decode

variable {S : Type} [GraphBytes S]

/-- `read_attr_row`. -/
def readAttrRowGuarded : Decoder S (List AttrValue) := do
  let count ← readLen
  let left ← remaining
  require (count ≤ left) .truncated
  reserve .attrValues (min count (left / 9)) left
  times count readAttrValue

/-- `slot0 + (above - 1) * slot_up`, the offset of a layer above 0 and the size of a whole run. -/
def slotOffset (slot0 slotUp above : Nat) : Outcome HnswDecodeError Nat := do
  let upper ← Usize.mul (← Usize.sub above 1) slotUp
  Usize.add slot0 upper

def readLayersGuarded (hdr : GraphHeader) (slot0 slotUp nodeStart levels : Nat)
    (links linkCounts : List Nat) : Decoder S (List Nat × List Nat) :=
  (List.range levels).foldlM (fun (links, linkCounts) layer => do
    let count ← readLen
    require (count ≤ if layer = 0 then hdr.derived.m0Cap else hdr.derived.mCap)
      (.invalid "neighbor list over degree cap")
    require (count ≤ (← remaining) / 8) .truncated
    let within ← checked (if layer = 0 then .ok 0 else slotOffset slot0 slotUp layer)
    let start ← checked (Usize.add nodeStart within)
    -- the last `start + slot` is below this
    let _ ← checked (Usize.add start count)
    let ids ← times count (readNeighbor hdr.n)
    let links ← checked (overwrite links start (ids.map asU32))
    return (links, linkCounts ++ [asU32 ids.length])) (links, linkCounts)

/-- One node; `left` is what the payload held once the header was read. -/
def readNodeGuarded (hdr : GraphHeader) (vectorBytes slot0 slotUp left : Nat)
    (tables : NodeTables) : Decoder S NodeTables := do
  let deleted ← readTombstone
  let levels ← readLen
  require (levels ≠ 0) (.invalid "node with no layers")
  let above ← checked (Usize.sub levels 1)
  require (above ≤ hdr.maxLayer) (.invalid "node above the top layer")
  reserve .scratch vectorBytes left
  let vector := floatsOfBytes (← readExact vectorBytes)
  require (levels ≤ (← remaining) / 8) .truncated
  let stop ← checked (Usize.add tables.linkCounts.length levels)
  require (stop < 2 ^ 32) (.invalid "too many layers")
  let nodeSlots ← checked (slotOffset slot0 slotUp levels)
  let nodeStart := tables.links.length
  require (Usize.satAdd nodeStart nodeSlots ≤ Usize.satAdd left (2 ^ 22))
    (.invalid "link storage exceeds what the payload could describe")
  let grown ← checked (Usize.add nodeStart nodeSlots)
  reserve .slots grown left
  let (links, linkCounts) ← readLayersGuarded hdr slot0 slotUp nodeStart levels
    (tables.links ++ List.replicate nodeSlots 0) tables.linkCounts
  let attrs ← readAttrRowGuarded
  return {
    vectors := tables.vectors ++ vector
    layerBase := tables.layerBase ++ [stop]
    linkCounts
    links
    attrs := tables.attrs ++ [attrs]
    deleted := tables.deleted ++ [deleted] }

def readNodesGuarded (hdr : GraphHeader) (vectorBytes slot0 slotUp left : Nat) :
    Nat → NodeTables → Decoder S NodeTables
  | 0, tables => return tables
  | n + 1, tables => do
    readNodesGuarded hdr vectorBytes slot0 slotUp left n
      (← readNodeGuarded hdr vectorBytes slot0 slotUp left tables)

def checkEntryGuarded (hdr : GraphHeader) (tables : NodeTables) : Decoder S Unit :=
  match hdr.entryPoint with
  | some e => do
    let after ← checked (Usize.add e 1)
    let stop ← checked (index tables.layerBase after)
    let start ← checked (index tables.layerBase e)
    let levels ← checked (Usize.sub stop start)
    let top ← checked (Usize.sub levels 1)
    require (top = hdr.maxLayer) (.invalid "entry point does not own the top layer")
  | none => require (hdr.maxLayer = 0) (.invalid "empty graph with nonzero top layer")

/-- `from_graph_bytes`. -/
def Hnsw.fromGraphBytesGuarded [Arith] : Decoder S Hnsw := do
  let hdr ← readHeader
  -- `derived_params` doubles `m`
  let _ ← checked (Usize.mul hdr.m 2)
  let vectorBytes ← checked (Usize.mul hdr.dim 4)
  let left ← remaining
  let plausibleN := min hdr.n (left / Usize.satAdd 25 vectorBytes)
  let slot0 ← checked (Usize.add hdr.derived.m0Cap 1)
  let slotUp ← checked (Usize.add hdr.derived.mCap 1)
  reserve .components (← checked (Usize.mul plausibleN hdr.dim)) left
  reserve .offsets (← checked (Usize.add plausibleN 1)) left
  reserve .nodes plausibleN left
  let stride ← checked (Usize.mul plausibleN slot0)
  reserve .slots (min stride (Usize.satAdd left (2 ^ 22))) left
  reserve .nodes plausibleN left
  reserve .nodes plausibleN left
  let tables ← readNodesGuarded hdr vectorBytes slot0 slotUp left hdr.n {}
  require ((← remaining) = 0) (.invalid "trailing bytes")
  checkEntryGuarded hdr tables
  return assemble hdr tables

end Decode

/-- `from_bytes`. -/
def Hnsw.fromBytesGuarded [Arith] (bytes : List UInt8) : Outcome HnswDecodeError Hnsw := do
  let (h, _) ← Hnsw.fromGraphBytesGuarded (ByteReader.new bytes)
  return h

/-! ## Nothing is reached -/

section Matching

variable {S : Type} [GraphBytes S] {limit : Nat}

theorem matches_checked {α β : Type} {x : Outcome HnswDecodeError α} {a : α} (hx : x = .ok a)
    {f : α → Decoder S β} {d : Decoder S β} (h : Matches GraphBytes.remaining limit (f a) d) :
    Matches GraphBytes.remaining limit (checked x >>= f) d := by
  subst hx
  exact h

theorem matches_reserve {ε β : Type} {room : Room} {count left : Nat}
    (hle : count ≤ room.limit left) {f : Unit → Reader ε S β} {d : Reader ε S β}
    (h : Matches GraphBytes.remaining limit (f ()) d) :
    Matches GraphBytes.remaining limit (reserve room count left >>= f) d := by
  intro s hs
  rw [Reader.bind_apply, reserve, if_pos hle]
  exact h s hs

/-- What is left is at most the whole. -/
theorem matches_remaining {β : Type} {f g : Nat → Decoder S β}
    (h : ∀ left ≤ limit, Matches GraphBytes.remaining limit (g left) (f left)) :
    Matches GraphBytes.remaining limit (remaining >>= g) (remaining >>= f) :=
  fun s hs => h (GraphBytes.remaining s) hs s hs

/-- A check that comes to the same. -/
theorem matches_require {β : Type} {ok ok' : Bool} {e : HnswDecodeError} (hok : ok' = ok)
    {f g : Unit → Decoder S β}
    (h : ok = true → Matches GraphBytes.remaining limit (g ()) (f ())) :
    Matches GraphBytes.remaining limit (require ok' e >>= g) (require ok e >>= f) := by
  subst hok
  exact Matches.step (handles_require ok' e) fun _ htrue => h htrue

variable [LawfulBytes S]

theorem matches_attrRow :
    Matches GraphBytes.remaining limit (readAttrRowGuarded : Decoder S _) readAttrRow := by
  apply Matches.step handles_readLen
  intro count _
  apply matches_remaining
  intro left _
  apply matches_require rfl
  intro _
  exact matches_reserve (Nat.min_le_right _ _) (Matches.refl _)

omit [GraphBytes S] [LawfulBytes S] in
/-- The offset of a layer, where the layers and their widths are what the header's checks allow. -/
theorem slotOffset_ok {slot0 slotUp above : Nat} (h0 : slot0 ≤ 2049) (hup : slotUp ≤ 2049)
    (habove : above ≠ 0) (htop : above ≤ 65) :
    slotOffset slot0 slotUp above = .ok (slot0 + (above - 1) * slotUp) ∧
      slot0 + (above - 1) * slotUp ≤ 2 ^ 18 := by
  have hmul : (above - 1) * slotUp ≤ 64 * 2049 := Nat.mul_le_mul (by omega) hup
  have hword : (2 : Nat) ^ 18 < Usize.words := by decide
  unfold slotOffset
  rw [Usize.sub_ok (Nat.one_le_iff_ne_zero.mpr habove), Outcome.ok_bind,
    Usize.mul_ok (by omega), Outcome.ok_bind, Usize.add_ok (by omega)]
  exact ⟨rfl, by omega⟩

/-- The widths a header within its bounds gives. -/
theorem HeaderBounds.widths [Arith] [Arith.Rounds] {hdr : GraphHeader} (H : HeaderBounds hdr) :
    hdr.derived.m0Cap + 1 ≤ 2049 ∧ hdr.derived.mCap + 1 ≤ 2049 := by
  have hcap : hdr.derived.m0Cap ≤ 2048 := H.m0Cap_le
  have hle : hdr.derived.mCap ≤ hdr.derived.m0Cap := by
    rw [H.derived_eq]
    exact Hnsw.derivedParams_mCap_le hdr.m hdr.gamma
  omega

section Bounded

variable [Arith] [Arith.Rounds] {hdr : GraphHeader} (H : HeaderBounds hdr)
include H

theorem matches_layers {nodeStart levels : Nat} (hstart : nodeStart ≤ 2 ^ 46)
    (hlevels : levels ≤ 65) {links : List Nat} (counts : List Nat)
    (hlinks : links.length = nodeStart + nodeSlots hdr levels) :
    Matches GraphBytes.remaining limit
      (readLayersGuarded hdr (hdr.derived.m0Cap + 1) (hdr.derived.mCap + 1) nodeStart levels links
        counts : Decoder S _)
      (readLayers hdr nodeStart levels links counts) := by
  obtain ⟨h0, hup⟩ := H.widths
  have hword : (2 : Nat) ^ 47 < Usize.words := by decide
  -- filling a run never changes how many slots there are
  refine Matches.foldlM (fun _ (r : List Nat × List Nat) => r.1.length = links.length)
    (List.range levels) ?_ rfl
  rintro done layer rest ⟨links', counts'⟩ hsplit hlen
  dsimp only at hlen
  have hlayer : layer < levels := by
    rw [← List.mem_range, hsplit]
    simp
  refine ⟨?_, (handles_layer hdr hlayer counts' (hlen.trans hlinks)).mono
    fun r hr => hr.1.trans hlen⟩
  dsimp only
  unfold readNeighborList
  simp only [bind_assoc]
  apply Matches.step handles_readLen
  intro count _
  apply matches_require rfl
  intro hcap
  apply matches_remaining
  intro left _
  apply matches_require rfl
  intro _
  have hcap' : count ≤ 2049 := by
    have hle := of_decide_eq_true hcap
    split_ifs at hle <;> omega
  -- where the list of `layer` starts in the run of the node
  have hwithin : (if layer = 0 then (.ok 0 : Outcome HnswDecodeError Nat) else
        slotOffset (hdr.derived.m0Cap + 1) (hdr.derived.mCap + 1) layer) =
      .ok (if layer = 0 then 0
        else hdr.derived.m0Cap + 1 + (layer - 1) * (hdr.derived.mCap + 1)) ∧
      (if layer = 0 then 0
        else hdr.derived.m0Cap + 1 + (layer - 1) * (hdr.derived.mCap + 1)) ≤ 2 ^ 18 := by
    split_ifs with hzero
    · exact ⟨rfl, Nat.zero_le _⟩
    · exact slotOffset_ok h0 hup hzero (by omega)
  obtain ⟨hok, hle⟩ := hwithin
  apply matches_checked hok
  apply matches_checked (Usize.add_ok (by omega))
  apply matches_checked (Usize.add_ok (by omega))
  exact Matches.refl _

/-- One node: the tables stay under the ceiling, so the sums stay in the word. -/
theorem matches_node (hlimit : limit < 2 ^ 45) {left : Nat} (hleft : left ≤ limit)
    {tables : NodeTables} {k : Nat} (T : Tabled (maxSlots left) tables k) :
    Matches GraphBytes.remaining limit
      (readNodeGuarded hdr (hdr.dim * 4) (hdr.derived.m0Cap + 1) (hdr.derived.mCap + 1) left tables :
        Decoder S _)
      (readNode hdr (maxSlots left) tables) := by
  obtain ⟨h0, hup⟩ := H.widths
  have hword : (2 : Nat) ^ 47 < Usize.words := by decide
  have hceiling : maxSlots left = left + 2 ^ 22 := rfl
  have hlinks := T.links_le
  apply Matches.step handles_tombstone
  intro deleted _
  apply Matches.step handles_readLen
  intro levels _
  apply matches_require rfl
  intro hpos
  have hpos' : levels ≠ 0 := of_decide_eq_true hpos
  apply matches_checked (Usize.sub_ok (Nat.one_le_iff_ne_zero.mpr hpos'))
  apply matches_require rfl
  intro htop
  have hlevels : levels ≤ 65 := by
    have hle := of_decide_eq_true htop
    have hmax : hdr.maxLayer ≤ 64 := H.top_le
    omega
  apply matches_reserve
  · show hdr.dim * 4 ≤ 4 * HnswParams.maxDim
    have hdim := H.dim_le
    omega
  apply Matches.step (handles_readExact _)
  intro bytes _
  apply matches_remaining
  intro left' _
  apply matches_require rfl
  intro _
  have hfits := T.fits
  apply matches_checked (Usize.add_ok (by omega))
  apply matches_require rfl
  intro _
  obtain ⟨hok, hle⟩ := slotOffset_ok h0 hup hpos' hlevels
  apply matches_checked hok
  -- both sums fit the word, so saturating them loses nothing
  have hsum : tables.links.length + (hdr.derived.m0Cap + 1 +
      (levels - 1) * (hdr.derived.mCap + 1)) < Usize.words := by omega
  apply matches_require
  · rw [Usize.satAdd_eq hsum, Usize.satAdd_eq (by omega)]
    rfl
  intro hslots
  have hslots' := of_decide_eq_true hslots
  apply matches_checked (Usize.add_ok hsum)
  apply matches_reserve hslots'
  apply Matches.bind (matches_layers H (by omega) hlevels tables.linkCounts
    (by rw [List.length_append, List.length_replicate]; rfl))
    (handles_layers hdr tables.linkCounts
      (by rw [List.length_append, List.length_replicate]; rfl))
  intro lists _
  apply Matches.bind matches_attrRow handles_attrRow
  intro attrs _
  exact Matches.refl _

theorem matches_nodes (hlimit : limit < 2 ^ 45) {left : Nat} (hleft : left ≤ limit) (count : Nat)
    {tables : NodeTables} {k : Nat} (T : Tabled (maxSlots left) tables k) :
    Matches GraphBytes.remaining limit
      (readNodesGuarded hdr (hdr.dim * 4) (hdr.derived.m0Cap + 1) (hdr.derived.mCap + 1) left count
        tables : Decoder S _)
      (readNodes hdr (maxSlots left) count tables) := by
  induction count generalizing tables k with
  | zero => exact Matches.refl _
  | succ count ih =>
    apply Matches.bind (matches_node H hlimit hleft T) T.readNode
    intro tables' T'
    exact ih T'

omit [LawfulBytes S] [Arith.Rounds] in
theorem matches_checkEntry {ceiling : Nat} {tables : NodeTables} (T : Tabled ceiling tables hdr.n) :
    Matches GraphBytes.remaining limit (checkEntryGuarded hdr tables : Decoder S Unit)
      (checkEntry hdr tables) := by
  unfold checkEntryGuarded checkEntry
  cases he : hdr.entryPoint with
  | none => exact Matches.refl _
  | some e =>
    have hlt := H.entry_lt e he
    have hn := H.n_word
    obtain ⟨start, stop, hstop, hstart, hrise⟩ := T.offsets hlt
    dsimp only
    apply matches_checked (Usize.add_ok (by omega))
    rw [hstop, hstart]
    apply matches_checked rfl
    apply matches_checked rfl
    apply matches_checked (Usize.sub_ok hrise.le)
    apply matches_checked (Usize.sub_ok (by omega))
    exact Matches.refl _

end Bounded

/-- The nodes reserved for are nodes the payload could hold. -/
theorem plausibleN_le {n left dim : Nat} (hdim : dim ≤ HnswParams.maxDim) :
    let plausibleN := min n (left / Usize.satAdd 25 (dim * 4))
    plausibleN ≤ left / 25 ∧ plausibleN * dim ≤ left / 4 := by
  intro plausibleN
  have hmax : dim ≤ 16000 := hdim
  have hword : (2 : Nat) ^ 47 < Usize.words := by decide
  have hnode : Usize.satAdd 25 (dim * 4) = 25 + dim * 4 := Usize.satAdd_eq (by omega)
  have hle : plausibleN ≤ left / (25 + dim * 4) := by
    rw [← hnode]
    exact Nat.min_le_right _ _
  have hmul : plausibleN * (25 + dim * 4) ≤ left :=
    (Nat.mul_le_mul_right _ hle).trans (Nat.div_mul_le_self left _)
  have hsplit : plausibleN * (25 + dim * 4) = plausibleN * 25 + plausibleN * dim * 4 := by
    rw [Nat.mul_add, Nat.mul_assoc]
  constructor
  · apply (Nat.le_div_iff_mul_le (by decide)).mpr
    omega
  · apply (Nat.le_div_iff_mul_le (by decide)).mpr
    omega

/-- **The guarded decoder is the decoder**, on every source short of `2 ^ 45` bytes. -/
theorem fromGraphBytesGuarded_eq [Arith] [Arith.Rounds] (hlimit : limit < 2 ^ 45) :
    Matches GraphBytes.remaining limit (Hnsw.fromGraphBytesGuarded : Decoder S Hnsw)
      Hnsw.fromGraphBytes := by
  apply Matches.step handles_header
  intro hdr H
  obtain ⟨h0, hup⟩ := H.widths
  have hm : hdr.m ≤ 128 := H.m_le
  have hdim : hdr.dim ≤ 16000 := H.dim_le
  have hword : (2 : Nat) ^ 57 < Usize.words := by decide
  apply matches_checked (Usize.mul_ok (by omega))
  apply matches_checked (Usize.mul_ok (by omega))
  apply matches_remaining
  intro left hleft
  -- the reservations go by what the bytes left could hold, not by the count the header claims
  obtain ⟨hnodes, hcomponents⟩ := @plausibleN_le hdr.n left hdr.dim H.dim_le
  dsimp only
  generalize min hdr.n (left / Usize.satAdd 25 (hdr.dim * 4)) = plausibleN at hnodes hcomponents ⊢
  have hstride : plausibleN * (hdr.derived.m0Cap + 1) ≤ 2 ^ 45 * 2049 :=
    Nat.mul_le_mul (by omega) h0
  apply matches_checked (Usize.add_ok (by omega))
  apply matches_checked (Usize.add_ok (by omega))
  apply matches_checked (Usize.mul_ok (by omega))
  apply matches_reserve hcomponents
  apply matches_checked (Usize.add_ok (by omega))
  apply matches_reserve (Nat.add_le_add_right hnodes 1)
  apply matches_reserve hnodes
  apply matches_checked (Usize.mul_ok (by omega))
  apply matches_reserve
  · show min _ (Usize.satAdd left (2 ^ 22)) ≤ left + 2 ^ 22
    exact (Nat.min_le_right _ _).trans (Nat.min_le_left _ _)
  apply matches_reserve hnodes
  apply matches_reserve hnodes
  apply Matches.bind (matches_nodes H hlimit hleft hdr.n (Tabled.nil _))
    ((Tabled.nil _).readNodes hdr.n)
  intro tables T
  rw [Nat.zero_add] at T
  apply matches_remaining
  intro left' _
  apply matches_require rfl
  intro _
  apply Matches.bind (matches_checkEntry H T) (T.checkEntry H.entry_lt)
  intro _ _
  exact Matches.refl _

end Matching

/-! ## The reader under `from_bytes` -/

/-- The cursor and the bytes past it. -/
def ByteReader.Rest (r : ByteReader) (bs : List UInt8) : Prop := r.buf.drop r.pos = bs

/-- Within the address space a reader and the slice it has left are one source. -/
theorem ByteReader.bisimilar :
    Bisimilar fun (r : ByteReader) bs => r.Rest bs ∧ r.buf.length < Usize.words where
  remaining := by
    rintro r bs ⟨rfl, -⟩
    exact (List.length_drop ..).symm
  readExact k := by
    rintro r bs ⟨rfl, hlen⟩
    have hpos := r.pos_le
    show Outcome.Alike _ (r.take k) (if k > (r.buf.drop r.pos).length then
      Outcome.fail HnswDecodeError.truncated
      else .ok ((r.buf.drop r.pos).take k, (r.buf.drop r.pos).drop k))
    rw [List.length_drop]
    by_cases hfits : r.pos + k ≤ r.buf.length
    · rw [if_neg (by omega), ByteReader.take_ok ⟨by omega, hfits⟩]
      apply Outcome.Alike.ok
      refine ⟨rfl, ?_, hlen⟩
      show r.buf.drop (r.pos + k) = (r.buf.drop r.pos).drop k
      rw [List.drop_drop]
    · rw [if_pos (by omega)]
      unfold ByteReader.take
      rw [dif_neg (by omega)]
      exact .error _

/-- `from_bytes` reads through a cursor what `fromBytes` reads off the front. -/
theorem fromBytes_byteReader [Arith] {bytes : List UInt8} (hlen : bytes.length < Usize.words) :
    (do let (h, _) ← Hnsw.fromGraphBytes (ByteReader.new bytes)
        return h) = Hnsw.fromBytes bytes := by
  have hstart : (ByteReader.new bytes).Rest bytes := rfl
  have halike := ByteReader.bisimilar.agrees_fromGraphBytes (ByteReader.new bytes) bytes ⟨hstart, hlen⟩
  unfold Hnsw.fromBytes
  generalize Hnsw.fromGraphBytes (ByteReader.new bytes) = x at halike ⊢
  generalize Hnsw.fromGraphBytes (S := List UInt8) bytes = y at halike ⊢
  cases halike with
  | ok hab => exact congrArg Except.ok hab.1
  | error fault => rfl

theorem fromBytesGuarded_eq [Arith] [Arith.Rounds] {bytes : List UInt8}
    (hlen : bytes.length < 2 ^ 45) : Hnsw.fromBytesGuarded bytes = Hnsw.fromBytes bytes := by
  have hword : (2 : Nat) ^ 47 < Usize.words := by decide
  rw [← fromBytes_byteReader (by omega)]
  unfold Hnsw.fromBytesGuarded
  rw [fromGraphBytesGuarded_eq hlen (ByteReader.new bytes) (by exact Nat.sub_le _ _)]

end Brindle
