/-
# Brindle.Hnsw.Tiled — one list's writes never reach another.

Whatever layer counts the nodes have and whatever the two degree caps are, the offsets of the source
cut the array of links into one slot run per list. A write through `set_neighbors` or
`push_neighbor` that the cap allows stays in its run, a new node's runs come behind all others, and
the decoder, which keeps the offset of the next node as a running length, arrives at the same places.
No bound on the number of layers is needed for any of it.
-/
import Brindle.Hnsw.DecodeSpec
import Mathlib.Tactic.Ring

namespace Brindle

open Outcome (index slice Ensures ensures_ok)
open Buffer (window splice splice_length window_splice_of_disjoint window_append_left slice_eq)
open Tiling (offset offsets)
open Reader (Yields)
open Decoder

namespace Hnsw

/-- The arrays of `h` are cut for nodes of the given layer counts, and no list has outgrown its
slots. -/
structure CutFor (h : Hnsw) (counts : List Nat) : Prop where
  n_eq : h.n = counts.length
  base_eq : h.layerBase = offsets counts
  counts_len : h.linkCounts.length = counts.sum
  links_len : h.links.length =
    (counts.map fun count => h.slotWidth 0 + (count - 1) * h.slotWidth 1).sum
  counts_le : ∀ id layer, layer < counts.getD id 0 → h.countOf id layer ≤ h.slotWidth layer

namespace CutFor

variable {h : Hnsw} {counts : List Nat} (C : CutFor h counts)
include C

theorem base_offset {id : Nat} (hid : id ≤ counts.length) : h.base id = offset counts id := by
  rw [base, C.base_eq, Tiling.offsets_getD hid]

theorem levelsOf_eq {id : Nat} (hid : id < counts.length) : h.levelsOf id = counts.getD id 0 := by
  rw [levelsOf, C.base_offset hid, C.base_offset hid.le, Tiling.offset_succ hid,
    Nat.add_sub_cancel_left]

theorem owns_iff (id layer : Nat) : h.Owns id layer ↔ layer < counts.getD id 0 := by
  unfold Owns
  rw [C.n_eq]
  rcases Nat.lt_or_ge id counts.length with hlt | hge
  · rw [C.levelsOf_eq hlt]
    exact and_iff_right hlt
  · have hnone : counts.getD id 0 = 0 := by
      rw [List.getD_eq_getElem?_getD, List.getElem?_eq_none hge]
      rfl
    rw [hnone]
    omega

theorem layerCounts_eq : h.layerCounts = counts := by
  apply List.ext_getElem?
  intro i
  rcases Nat.lt_or_ge i counts.length with hlt | hge
  · rw [layerCounts_getElem? (C.n_eq ▸ hlt), C.levelsOf_eq hlt, List.getD_eq_getElem?_getD,
      List.getElem?_eq_getElem hlt]
    rfl
  · rw [List.getElem?_eq_none hge, List.getElem?_eq_none (by rw [layerCounts_length, C.n_eq]; exact hge)]

theorem slots (hpos : ∀ count ∈ counts, 1 ≤ count) : Slots h := by
  have hstep : ∀ id < counts.length, h.base id < h.base (id + 1) := by
    intro id hid
    have hwidth : 1 ≤ counts.getD id 0 := by
      rw [List.getD_eq_getElem?_getD, List.getElem?_eq_getElem hid]
      exact hpos _ (List.getElem_mem hid)
    rw [C.base_offset hid, C.base_offset hid.le, Tiling.offset_succ hid]
    omega
  have hsum : h.base h.n = counts.sum := by
    rw [C.n_eq, C.base_offset le_rfl, Tiling.offset_length]
  refine
    { base_len := by rw [C.base_eq, Tiling.offsets_length, C.n_eq]
      base_zero := by rw [C.base_offset (Nat.zero_le _), Tiling.offset_zero]
      base_lt := fun id hid => hstep id (C.n_eq ▸ hid)
      counts_len := by rw [C.counts_len, hsum]
      counts_le := fun id layer ho => C.counts_le id layer ((C.owns_iff id layer).mp ho)
      links_len := ?_ }
  -- each node reserved one run at layer 0 and one more for every layer above
  rw [C.links_len, runStart, hsum, C.n_eq]
  clear hstep hsum C
  induction counts with
  | nil => simp
  | cons count counts ih =>
    have hcount := hpos count List.mem_cons_self
    have hrest := ih fun c hc => hpos c (List.mem_cons_of_mem _ hc)
    have hle : counts.length ≤ counts.sum :=
      List.length_le_sum_of_one_le counts fun c hc => hpos c (List.mem_cons_of_mem _ hc)
    have hupper : count + counts.sum - (counts.length + 1) =
        (count - 1) + (counts.sum - counts.length) := by omega
    rw [List.map_cons, List.sum_cons, List.sum_cons, List.length_cons, hrest, hupper]
    ring

end CutFor

/-- The arrays of `h` laid out afresh for nodes of the given layer counts, every list empty. -/
def blank (h : Hnsw) (counts : List Nat) : Hnsw :=
  { h with
    n := counts.length
    layerBase := offsets counts
    linkCounts := List.replicate counts.sum 0
    links := List.replicate
      (counts.map fun count => h.slotWidth 0 + (count - 1) * h.slotWidth 1).sum 0 }

/-- Any layer counts can be laid out. -/
theorem blank_cutFor (h : Hnsw) (counts : List Nat) : CutFor (h.blank counts) counts where
  n_eq := rfl
  base_eq := rfl
  counts_len := List.length_replicate
  links_len := List.length_replicate
  counts_le := fun id layer _ => by
    simp only [countOf, blank, List.getD_eq_getElem?_getD, List.getElem?_replicate]
    split_ifs <;> exact Nat.zero_le _

/-! ## What a list reads -/

/-- A read of a list, once the layers and the start of its node are known. -/
theorem neighbors_eq_of_levels {h : Hnsw} {id levels start : Nat} (layer : Nat) (hid : id < h.n)
    (hlevels : h.levels id = .ok levels)
    (hstart : (index h.layerBase id : Outcome HnswError Nat) = .ok start) :
    h.neighbors id layer =
      if levels ≤ layer then .ok []
      else index h.linkCounts (start + layer) >>=
        slice h.links (id * h.slotWidth 0 + (start - id) * h.slotWidth 1 + h.slotWithin layer) := by
  unfold neighbors layerSlot linkBase
  simp only [if_neg (Nat.not_le.mpr hid), hlevels, hstart, Outcome.ok_bind, ge_iff_le]
  rfl

/-- The layers of a node are read from its two boundaries alone. -/
theorem levels_congr {h g : Hnsw} {id : Nat}
    (hstart : (index g.layerBase id : Outcome HnswError Nat) = index h.layerBase id)
    (hstop : (index g.layerBase (id + 1) : Outcome HnswError Nat) = index h.layerBase (id + 1)) :
    g.levels id = h.levels id := by
  rw [levels, hstart, hstop]
  rfl

/-- A stored node's layers can be read, and the layers the source's own count admits are layers the
node owns. -/
theorem Slots.exists_levels {h : Hnsw} (S : Slots h) {id : Nat} (hid : id < h.n) :
    ∃ levels, h.levels id = .ok levels ∧ ∀ layer < levels, h.Owns id layer := by
  have hstep := S.base_lt id hid
  have hread : h.levels id = .ok ((h.base (id + 1) + 4294967296 - h.base id) % 4294967296) := by
    simp only [levels, S.index_layerBase hid.le, S.index_layerBase (Nat.succ_le_of_lt hid),
      Outcome.ok_bind]
    rfl
  refine ⟨_, hread, fun layer hlt => ⟨hid, ?_⟩⟩
  unfold levelsOf
  omega

theorem Slots.neighbors_eq {h : Hnsw} (S : Slots h) {id levels : Nat} (layer : Nat) (hid : id < h.n)
    (hlevels : h.levels id = .ok levels) (howns : ∀ layer < levels, h.Owns id layer) :
    h.neighbors id layer =
      if levels ≤ layer then .ok []
      else .ok (window h.links (h.slotAt id layer) (h.countOf id layer)) := by
  rw [neighbors_eq_of_levels layer hid hlevels (S.index_layerBase hid.le)]
  split_ifs with hover
  · rfl
  · have ho := howns layer (Nat.not_le.mp hover)
    rw [S.index_linkCounts ho, Outcome.ok_bind]
    exact slice_eq (S.window_fits ho)

/-- Past the last node every list is empty. -/
theorem neighbors_of_ge {h : Hnsw} {id : Nat} (layer : Nat) (hid : h.n ≤ id) :
    h.neighbors id layer = .ok [] :=
  if_pos hid

/-! ## Writes -/

/-- A write into one run, with a count the run has room for, changes no other list. -/
theorem Slots.neighbors_frame {h : Hnsw} (S : Slots h) {id layer c : Nat} {links : List Nat}
    (ho : h.Owns id layer) (hlen : links.length = h.links.length) (hc : c ≤ h.slotWidth layer)
    (hframe : ∀ s k, s + k ≤ h.slotAt id layer ∨ h.slotAt id layer + h.slotWidth layer ≤ s →
      window links s k = window h.links s k) {a l : Nat} (hne : ¬ (a = id ∧ l = layer)) :
    (h.withLinks links (h.linkCounts.set (h.base id + layer) c)).neighbors a l = h.neighbors a l := by
  rcases Nat.lt_or_ge a h.n with ha | ha
  · obtain ⟨levels, hlevels, howns⟩ := S.exists_levels ha
    rw [S.neighbors_eq l ha hlevels howns, (S.relist ho hlen hc).neighbors_eq l ha hlevels howns]
    split_ifs with hover
    · rfl
    · have hal := howns l (Nat.not_le.mp hover)
      rw [S.countOf_set links c ho hal, if_neg hne, ← S.window_frame ho hframe hal hne]
      rfl
  · rw [neighbors_of_ge l ha]
    exact neighbors_of_ge l ha

theorem Slots.setNeighbors_frame {h : Hnsw} (S : Slots h) {id layer : Nat} {ids : List Nat}
    (ho : h.Owns id layer) (hcap : ids.length ≤ h.maxDegree layer) :
    Ensures (h.setNeighbors id layer ids) fun g =>
      ∀ a l, ¬ (a = id ∧ l = layer) → g.neighbors a l = h.neighbors a l := by
  have hfit : ids.length ≤ h.slotWidth layer := hcap.trans (Nat.le_succ _)
  have hslot := S.slot_fits ho
  have hspan : h.slotAt id layer + ids.length ≤ h.links.length := by omega
  rw [S.setNeighbors_eq ho hfit, ensures_ok]
  intro a l hne
  exact S.neighbors_frame ho (splice_length hspan) ((Nat.mod_le ..).trans hfit)
    (fun s k hd => window_splice_of_disjoint hspan (by omega)) hne

theorem Slots.pushNeighbor_frame {h : Hnsw} (S : Slots h) {id layer x : Nat}
    (ho : h.Owns id layer) (hcap : h.countOf id layer ≤ h.maxDegree layer) :
    Ensures (h.pushNeighbor id layer x) fun r =>
      ∀ a l, ¬ (a = id ∧ l = layer) → r.1.neighbors a l = h.neighbors a l := by
  have hwidth : h.countOf id layer + 1 ≤ h.slotWidth layer := Nat.succ_le_succ hcap
  have hslot := S.slot_fits ho
  have hspan : h.slotAt id layer + h.countOf id layer + [x].length ≤ h.links.length := by
    rw [List.length_singleton]
    omega
  rw [S.pushNeighbor_eq ho hcap, ensures_ok]
  intro a l hne
  exact S.neighbors_frame ho (splice_length hspan) ((Nat.mod_le ..).trans hwidth)
    (fun s k hd => window_splice_of_disjoint hspan (by rw [List.length_singleton]; omega)) hne

theorem index_append_left {α : Type} {xs : List α} {i : Nat} (hi : i < xs.length) (ys : List α) :
    (index (xs ++ ys) i : Outcome HnswError α) = index xs i := by
  unfold index
  rw [List.getElem?_append_left hi]

/-- A stored node changes no list, whatever its offset comes to. -/
theorem Slots.pushNode_frame {h g : Hnsw} (S : Slots h) {vector : List F32} {attrs : List AttrValue}
    {levels id : Nat} (hpush : h.pushNode vector attrs levels = .ok (g, id)) {a : Nat} (ha : a < h.n)
    (l : Nat) : g.neighbors a l = h.neighbors a l := by
  obtain ⟨stop, extra, more, hbase, hcounts, hlinks, hn, hwidth⟩ : ∃ stop extra more,
      g.layerBase = h.layerBase ++ [stop] ∧ g.linkCounts = h.linkCounts ++ extra ∧
        g.links = h.links ++ more ∧ g.n = h.n + 1 ∧ g.slotWidth = h.slotWidth := by
    unfold pushNode at hpush
    split at hpush
    · cases hpush
    · obtain ⟨base, -, hpush⟩ := Outcome.bind_eq_ok.mp hpush
      cases hpush
      exact ⟨_, _, _, rfl, rfl, rfl, rfl, rfl⟩
  have hlen := S.base_len
  have hstart : (index g.layerBase a : Outcome HnswError Nat) = index h.layerBase a := by
    rw [hbase, index_append_left (by omega)]
  have hstop : (index g.layerBase (a + 1) : Outcome HnswError Nat) = index h.layerBase (a + 1) := by
    rw [hbase, index_append_left (by omega)]
  have hwithin : g.slotWithin = h.slotWithin := by
    unfold slotWithin
    rw [hwidth]
  obtain ⟨levels, hlevels, howns⟩ := S.exists_levels ha
  rw [S.neighbors_eq l ha hlevels howns,
    neighbors_eq_of_levels l (by omega) ((levels_congr hstart hstop).trans hlevels)
      (hstart.trans (S.index_layerBase ha.le))]
  split_ifs with hover
  · rfl
  · have ho := howns l (Nat.not_le.mp hover)
    have hfits := S.window_fits ho
    rw [hcounts, index_append_left (S.count_lt ho), S.index_linkCounts ho, Outcome.ok_bind, hlinks,
      hwidth, hwithin]
    rw [show a * h.slotWidth 0 + (h.base a - a) * h.slotWidth 1 + h.slotWithin l = h.slotAt a l from
      rfl]
    rw [slice_eq (by rw [List.length_append]; omega), window_append_left hfits]

/-! ## Growing -/

/-- Arrays that describe nodes are cut for the layer counts of those nodes. -/
theorem Slots.cutFor {h : Hnsw} (S : Slots h) : CutFor h h.layerCounts where
  n_eq := (layerCounts_length h).symm
  base_eq := S.layerBase_eq
  counts_len := S.counts_len.trans S.layerCounts_sum.symm
  links_len := by
    have hwithin : ∀ count ∈ h.layerCounts,
        h.slotWidth 0 + (count - 1) * h.slotWidth 1 = h.slotWithin count := fun count hcount =>
      (if_neg (S.layerCounts_pos count hcount).ne').symm
    have hlen : (h.layerCounts.map h.slotWithin).length = h.n := by simp
    rw [S.links_len, S.runStart_eq_offset le_rfl, List.map_congr_left hwithin, ← hlen,
      Tiling.offset_length]
  counts_le := fun id layer hlt => by
    rcases Nat.lt_or_ge id h.n with hid | hid
    · rw [layerCounts_getD hid] at hlt
      exact S.counts_le id layer ⟨hid, hlt⟩
    · rw [List.getD_eq_getElem?_getD, List.getElem?_eq_none (by simpa using hid)] at hlt
      exact absurd hlt (Nat.not_lt_zero _)

/-- A node whose layers still fit a `u32` extends the cut by its own. -/
theorem CutFor.pushNode {h g : Hnsw} {counts : List Nat} (C : CutFor h counts) {vector : List F32}
    {attrs : List AttrValue} {levels id : Nat} (hfit : counts.sum + levels < 2 ^ 32)
    (hpush : h.pushNode vector attrs levels = .ok (g, id)) : CutFor g (counts ++ [levels]) := by
  have hread : (index h.layerBase h.n : Outcome HnswError Nat) = .ok counts.sum := by
    have hlt : h.n < h.layerBase.length := by
      rw [C.base_eq, Tiling.offsets_length, C.n_eq]
      exact Nat.lt_succ_self _
    rw [Outcome.index_lt 0 hlt, C.base_eq, C.n_eq, Tiling.offsets_getD le_rfl, Tiling.offset_length]
  have hstop : asU32 (counts.sum + asU32 levels) = counts.sum + levels := by
    unfold asU32
    omega
  unfold Hnsw.pushNode at hpush
  split at hpush
  · cases hpush
  simp only [hread, Outcome.ok_bind, hstop] at hpush
  cases hpush
  refine
    { n_eq := by rw [List.length_append, List.length_singleton, ← C.n_eq]
      base_eq := by rw [Tiling.offsets_concat, ← C.base_eq]
      counts_len := by
        rw [List.length_append, List.length_replicate, C.counts_len, List.sum_append,
          List.sum_singleton]
      links_len := by
        rw [List.length_append, List.length_replicate, C.links_len, List.map_append,
          List.sum_append, List.map_singleton, List.sum_singleton]
        rfl
      counts_le := fun a l hlt => ?_ }
  rcases Nat.lt_trichotomy a counts.length with ha | rfl | ha
  · -- an earlier node: its offset and its counts are where they were
    have hbase : (h.layerBase ++ [counts.sum + levels]).getD a 0 = h.base a := by
      have hle : a < h.layerBase.length := by
        rw [C.base_eq, Tiling.offsets_length]
        omega
      rw [List.getD_eq_getElem?_getD, List.getElem?_append_left hle]
      exact (List.getD_eq_getElem?_getD ..).symm
    rw [List.getD_eq_getElem?_getD, List.getElem?_append_left ha,
      ← List.getD_eq_getElem?_getD] at hlt
    have hplace : h.base a + l < h.linkCounts.length := by
      have hrun := Tiling.run_le_sum ha
      rw [C.base_offset ha.le, C.counts_len]
      omega
    have hcount : (h.linkCounts ++ List.replicate levels 0).getD (h.base a + l) 0 =
        h.countOf a l := by
      rw [List.getD_eq_getElem?_getD, List.getElem?_append_left hplace]
      exact (List.getD_eq_getElem?_getD ..).symm
    unfold countOf base
    dsimp only
    rw [hbase, hcount]
    exact C.counts_le a l hlt
  · -- the new node: no list of it has an entry
    have hbase : (h.layerBase ++ [counts.sum + levels]).getD counts.length 0 = counts.sum := by
      have hle : counts.length < h.layerBase.length := by
        rw [C.base_eq, Tiling.offsets_length]
        exact Nat.lt_succ_self _
      rw [List.getD_eq_getElem?_getD, List.getElem?_append_left hle, ← List.getD_eq_getElem?_getD,
        C.base_eq, Tiling.offsets_getD le_rfl, Tiling.offset_length]
    unfold countOf base
    dsimp only
    have hzero : (h.linkCounts ++ List.replicate levels 0).getD (counts.sum + l) 0 = 0 := by
      rw [List.getD_eq_getElem?_getD,
        List.getElem?_append_right (by rw [C.counts_len]; exact Nat.le_add_right _ _),
        List.getElem?_replicate]
      split_ifs <;> rfl
    rw [hbase, hzero]
    exact Nat.zero_le _
  · rw [List.getD_eq_getElem?_getD,
      List.getElem?_eq_none (by simpa using Nat.succ_le_of_lt ha)] at hlt
    exact absurd hlt (Nat.not_lt_zero _)

/-! ## The decoder's offsets -/

theorem yields_readNode_layerBase (hdr : GraphHeader) (ceiling : Nat) (tables : NodeTables) :
    Yields (readNode hdr ceiling tables : Decoder (List UInt8) _) fun tables' =>
      ∃ stop, tables'.layerBase = tables.layerBase ++ [stop] := by
  unfold readNode
  refine (Yields.any _).bind fun deleted _ => (Yields.any _).bind fun levels _ => ?_
  refine (Yields.any _).bind fun _ _ => (Yields.any _).bind fun _ _ => ?_
  refine (Yields.any _).bind fun bytes _ => (Yields.any _).bind fun left _ => ?_
  refine (Yields.any _).bind fun _ _ => (Yields.any _).bind fun _ _ => ?_
  refine (Yields.any _).bind fun _ _ => (Yields.any _).bind fun lists _ => ?_
  refine (Yields.any _).bind fun attrs _ => ?_
  exact Yields.pure ⟨_, rfl⟩

theorem yields_readNodes_layerBase (hdr : GraphHeader) (ceiling count : Nat) (tables : NodeTables) :
    Yields (readNodes hdr ceiling count tables : Decoder (List UInt8) _) fun tables' =>
      ∃ more, tables'.layerBase = tables.layerBase ++ more := by
  induction count generalizing tables with
  | zero => exact Yields.pure ⟨[], (List.append_nil _).symm⟩
  | succ count ih =>
    rw [readNodes]
    refine (yields_readNode_layerBase hdr ceiling tables).bind fun tables' hnode => ?_
    obtain ⟨stop, hstop⟩ := hnode
    refine (ih tables').mono fun tables'' hrest => ?_
    obtain ⟨more, hmore⟩ := hrest
    exact ⟨[stop] ++ more, by rw [hmore, hstop, List.append_assoc]⟩

/-- Reading `k + j` nodes is reading `k`, and then `j` more. -/
theorem readNodes_add (hdr : GraphHeader) (ceiling k j : Nat) (tables : NodeTables) :
    (readNodes hdr ceiling (k + j) tables : Decoder (List UInt8) _) =
      readNodes hdr ceiling k tables >>= readNodes hdr ceiling j := by
  induction k generalizing tables with
  | zero =>
    rw [Nat.zero_add]
    rfl
  | succ k ih =>
    have hsucc : k + 1 + j = k + j + 1 := by omega
    rw [hsucc, readNodes, readNodes, bind_assoc]
    exact congrArg _ (funext ih)

/-- Where the decoder put node `k` is where the finished graph looks for it. -/
theorem decoder_offsets {hdr : GraphHeader} {ceiling n : Nat} {s s' : List UInt8}
    {tables' : NodeTables} (hread : readNodes hdr ceiling n {} s = .ok (tables', s')) {k : Nat}
    (hk : k ≤ n) :
    ∃ tables s₁, readNodes hdr ceiling k {} s = .ok (tables, s₁) ∧
      readNodes hdr ceiling (n - k) tables s₁ = .ok (tables', s') ∧
      (graphOf hdr tables' n).linkBase k = .ok tables.links.length ∧
      ∀ layer, (graphOf hdr tables' n).layerSlot k layer =
        .ok (tables.links.length + if layer = 0 then 0
          else hdr.derived.m0Cap + 1 + (layer - 1) * (hdr.derived.mCap + 1)) := by
  have hsplit : k + (n - k) = n := by omega
  have hread' : ((readNodes hdr ceiling k {} : Decoder (List UInt8) _) >>=
      readNodes hdr ceiling (n - k)) s = .ok (tables', s') := by
    rw [← readNodes_add, hsplit]
    exact hread
  rw [Reader.bind_apply] at hread'
  obtain ⟨⟨tables, s₁⟩, hfirst, hrest⟩ := Outcome.bind_eq_ok.mp hread'
  have hdone := Decoded.readNodes (Decoded.nil hdr) ceiling k s tables s₁ hfirst
  rw [Nat.zero_add] at hdone
  have L := hdone.layout
  obtain ⟨more, hmore⟩ := yields_readNodes_layerBase hdr ceiling (n - k) tables s₁ tables' s' hrest
  have hbase : (index tables'.layerBase k : Outcome HnswError Nat) =
      .ok ((graphOf hdr tables k).base k) := by
    have hlen : tables.layerBase.length = k + 1 := L.base_len
    rw [hmore, index_append_left (by omega)]
    exact L.index_layerBase le_rfl
  have hstart : (graphOf hdr tables' n).linkBase k = .ok tables.links.length := by
    have hlinks : tables.links.length = (graphOf hdr tables k).runStart k := L.links_len
    simp only [linkBase, graphOf, assemble, hbase, Outcome.ok_bind, hlinks]
    rfl
  refine ⟨tables, s₁, hfirst, hrest, hstart, fun layer => ?_⟩
  rw [layerSlot, hstart]
  rfl

/-- **The slots tile the array.** For nodes of any layer counts, none empty, and any caps: the slots
of all layers are disjoint and cover the array of links; a list replaced or extended within its cap,
and a node appended, change no other list; an appended node extends the cut while its layers fit a
`u32`; and a decoder's running offsets are those of the graph it returns, which is cut so too. -/
theorem slots_tile {counts : List Nat} (hpos : ∀ count ∈ counts, 1 ≤ count) {h : Hnsw}
    (C : CutFor h counts) :
    (∀ id layer, layer < counts.getD id 0 → h.layerSlot id layer = .ok (h.slotAt id layer)) ∧
    (∀ a la b lb, la < counts.getD a 0 → lb < counts.getD b 0 → ¬ (a = b ∧ la = lb) →
      h.slotAt a la + h.slotWidth la ≤ h.slotAt b lb ∨
        h.slotAt b lb + h.slotWidth lb ≤ h.slotAt a la) ∧
    (∀ p, p < h.links.length ↔ ∃ id layer, layer < counts.getD id 0 ∧ h.slotAt id layer ≤ p ∧
      p < h.slotAt id layer + h.slotWidth layer) ∧
    (∀ id layer ids, layer < counts.getD id 0 → ids.length ≤ h.maxDegree layer →
      Ensures (h.setNeighbors id layer ids) fun g =>
        ∀ a l, ¬ (a = id ∧ l = layer) → g.neighbors a l = h.neighbors a l) ∧
    (∀ id layer x, layer < counts.getD id 0 → h.countOf id layer ≤ h.maxDegree layer →
      Ensures (h.pushNeighbor id layer x) fun r =>
        ∀ a l, ¬ (a = id ∧ l = layer) → r.1.neighbors a l = h.neighbors a l) ∧
    (∀ vector attrs levels g id, h.pushNode vector attrs levels = .ok (g, id) →
      (∀ a < counts.length, ∀ l, g.neighbors a l = h.neighbors a l) ∧
        (counts.sum + levels < 2 ^ 32 → CutFor g (counts ++ [levels]))) ∧
    ∀ (hdr : GraphHeader) (ceiling n : Nat) (s s' : List UInt8) (tables' : NodeTables),
      readNodes hdr ceiling n {} s = .ok (tables', s') →
        (∃ counts', (∀ count ∈ counts', 1 ≤ count) ∧ CutFor (graphOf hdr tables' n) counts') ∧
        ∀ k ≤ n, ∃ tables s₁, readNodes hdr ceiling k {} s = .ok (tables, s₁) ∧
          readNodes hdr ceiling (n - k) tables s₁ = .ok (tables', s') ∧
          (graphOf hdr tables' n).linkBase k = .ok tables.links.length ∧
          ∀ layer, (graphOf hdr tables' n).layerSlot k layer =
            .ok (tables.links.length + if layer = 0 then 0
              else hdr.derived.m0Cap + 1 + (layer - 1) * (hdr.derived.mCap + 1)) := by
  have S := C.slots hpos
  refine ⟨fun id layer hl => ?_, fun a la b lb ha hb hne => ?_, fun p => ⟨fun hp => ?_, ?_⟩,
    fun id layer ids hl hcap => ?_, fun id layer x hl hcap => ?_,
    fun vector attrs levels g id hpush => ⟨fun a ha l => ?_, fun hfit => C.pushNode hfit hpush⟩,
    fun hdr ceiling n s s' tables' hread => ⟨?_, fun k hk => decoder_offsets hread hk⟩⟩
  · exact S.layerSlot_eq layer ((C.owns_iff id layer).mpr hl).1.le
  · exact S.slot_disjoint ((C.owns_iff a la).mpr ha) ((C.owns_iff b lb).mpr hb) hne
  · obtain ⟨slot, ⟨ho, hlow, hhigh⟩, -⟩ := S.existsUnique_slot hp
    exact ⟨slot.1, slot.2, (C.owns_iff _ _).mp ho, hlow, hhigh⟩
  · intro hin
    obtain ⟨id, layer, hl, -, hhigh⟩ := hin
    exact lt_of_lt_of_le hhigh (S.slot_fits ((C.owns_iff id layer).mpr hl))
  · exact S.setNeighbors_frame ((C.owns_iff id layer).mpr hl) hcap
  · exact S.pushNeighbor_frame ((C.owns_iff id layer).mpr hl) hcap
  · exact S.pushNode_frame hpush (C.n_eq ▸ ha) l
  · have hdone := Decoded.readNodes (Decoded.nil hdr) ceiling n s tables' s' hread
    rw [Nat.zero_add] at hdone
    exact ⟨_, hdone.layout.slots.layerCounts_pos, hdone.layout.slots.cutFor⟩

/-- A tall node among two others: the node behind it starts where its three layers end, and its own
middle layer is written without touching the rest. -/
theorem slots_tile_tall :
    ((@Hnsw.new Arith.ieee HnswParams.default).blank [1, 3, 1]).layerSlot 2 0 = .ok 100 ∧
      Ensures (((@Hnsw.new Arith.ieee HnswParams.default).blank [1, 3, 1]).setNeighbors 1 1 [0, 2])
        fun g => ∀ a l, ¬ (a = 1 ∧ l = 1) → g.neighbors a l =
          ((@Hnsw.new Arith.ieee HnswParams.default).blank [1, 3, 1]).neighbors a l := by
  have hpos : ∀ count ∈ [1, 3, 1], 1 ≤ count := by decide
  have hall := slots_tile hpos
    (blank_cutFor (@Hnsw.new Arith.ieee HnswParams.default) [1, 3, 1])
  refine ⟨(hall.1 2 0 (by decide)).trans ?_, hall.2.2.2.1 1 1 [0, 2] (by decide) ?_⟩
  · decide +kernel
  · decide +kernel

end Hnsw

end Brindle
