/-
# Brindle.Hnsw.DecodeSpec — what the decoder builds.

Read as a graph of the nodes decoded so far, the decoder's tables grow as `push_node` and
`set_neighbors` would grow them: a node's layers are filled one at a time into the run just reserved
for it. Two results come out of that one fact. Whatever bytes the decoder accepts, the graph it
returns is sound to insert into. And the encoding of a well-formed graph decodes exactly when its
configuration is admissible and its reserved slots are under the ceiling, to the same graph up to
the contents of unused slots.
-/
import Brindle.Hnsw.CodecSpec

namespace Brindle

open Bytes (leBytes ofLe)
open Outcome (Ensures ensures_ok ensures_pure index overwrite)
open Buffer (splice window)
open Reader (Consumes Reads ReadsIff Yields)
open Decoder

/-- The nodes decoded so far, as a graph of `k` nodes. -/
def graphOf (hdr : GraphHeader) (tables : NodeTables) (k : Nat) : Hnsw :=
  { assemble hdr tables with n := k }

theorem range_split {n x : Nat} {done rest : List Nat} (h : List.range n = done ++ x :: rest) :
    x = done.length ∧ done.length < n := by
  have hlen := congrArg List.length h
  rw [List.length_range, List.length_append, List.length_cons] at hlen
  have hlt : done.length < n := by omega
  have hget := congrArg (·[done.length]?) h
  simp only [List.getElem?_range hlt, List.getElem?_append_right le_rfl, Nat.sub_self,
    List.getElem?_cons_zero] at hget
  exact ⟨(Option.some.inj hget).symm, hlt⟩

namespace Hnsw

/-! ## Filling one layer -/

section Fill

variable {g₁ : Hnsw} {k j levels : Nat} {links counts ids : List Nat}

/-- `g₁` with the first `j` layers of its last node filled in. -/
def filling (g₁ : Hnsw) (levels j : Nat) (links counts : List Nat) : Hnsw :=
  g₁.withLinks links (counts ++ List.replicate (levels - j) 0)

theorem fill_step (hk : k < g₁.n) (hlevels : g₁.levelsOf k = levels) (hj : j < levels)
    (R : Relinked (fun a _ => a = k) g₁ (filling g₁ levels j links counts))
    (hcounts : counts.length = g₁.base k + j) (hcap : ids.length ≤ g₁.maxDegree j) :
    (overwrite links (g₁.slotAt k j) (ids.map asU32) : Outcome HnswDecodeError _) =
        .ok (splice links (g₁.slotAt k j) (ids.map asU32)) ∧
      Relinked (Only k j) (filling g₁ levels j links counts)
        (filling g₁ levels (j + 1) (splice links (g₁.slotAt k j) (ids.map asU32))
          (counts ++ [asU32 ids.length])) ∧
      (filling g₁ levels (j + 1) (splice links (g₁.slotAt k j) (ids.map asU32))
          (counts ++ [asU32 ids.length])).nbrs k j =
        (ids.map asU32).take (asU32 ids.length) := by
  have L := R.layout
  have ho : (filling g₁ levels j links counts).Owns k j := ⟨hk, hlevels.symm ▸ hj⟩
  have hslot : g₁.slotAt k j + g₁.slotWidth j ≤ links.length := L.slot_fits ho
  have hwidth : g₁.slotWidth j = g₁.maxDegree j + 1 := rfl
  have hfit : g₁.slotAt k j + (ids.map asU32).length ≤ links.length := by
    rw [List.length_map]
    omega
  have hle : asU32 ids.length ≤ ids.length := Nat.mod_le ..
  -- setting the next of the zero counts is appending to the counts read so far
  have hset : (counts ++ List.replicate (levels - j) 0).set (g₁.base k + j) (asU32 ids.length) =
      counts ++ [asU32 ids.length] ++ List.replicate (levels - (j + 1)) 0 := by
    obtain ⟨t, ht⟩ : ∃ t, levels - j = t + 1 := ⟨levels - j - 1, by omega⟩
    rw [show levels - (j + 1) = t by omega, ht, ← hcounts, List.set_append_right _ _ le_rfl,
      Nat.sub_self, List.replicate_succ, List.set_cons_zero, List.append_assoc]
    rfl
  have hgoal : (filling g₁ levels j links counts).withLinks
      (splice links (g₁.slotAt k j) (ids.map asU32))
      ((filling g₁ levels j links counts).linkCounts.set
        ((filling g₁ levels j links counts).base k + j) (asU32 ids.length)) =
      filling g₁ levels (j + 1) (splice links (g₁.slotAt k j) (ids.map asU32))
        (counts ++ [asU32 ids.length]) :=
    congrArg (g₁.withLinks (splice links (g₁.slotAt k j) (ids.map asU32))) hset
  have hrel : Relinked (Only k j) (filling g₁ levels j links counts)
        (filling g₁ levels (j + 1) (splice links (g₁.slotAt k j) (ids.map asU32))
          (counts ++ [asU32 ids.length])) ∧
      (filling g₁ levels (j + 1) (splice links (g₁.slotAt k j) (ids.map asU32))
          (counts ++ [asU32 ids.length])).nbrs k j =
        window (splice links (g₁.slotAt k j) (ids.map asU32)) (g₁.slotAt k j)
          (asU32 ids.length) := by
    rw [← hgoal]
    refine L.relink ho (Buffer.splice_length hfit)
      (show asU32 ids.length ≤ g₁.slotWidth j by omega)
      (fun s n hd => Buffer.window_splice_of_disjoint hfit ?_)
    rw [List.length_map]
    have hd' : s + n ≤ g₁.slotAt k j ∨ g₁.slotAt k j + g₁.slotWidth j ≤ s := hd
    omega
  refine ⟨Buffer.overwrite_eq hfit, hrel.1, hrel.2.trans ?_⟩
  exact Buffer.window_splice_self hfit (by rw [List.length_map]; exact hle)

end Fill

theorem Layout.setRows {g : Hnsw} (L : Layout g) {attrs : List (List AttrValue)}
    {deleted : List Bool} (ha : attrs.length = g.attrs.length)
    (hd : deleted.length = g.deleted.length) : Layout { g with attrs, deleted } :=
  { L with attrs_len := ha.trans L.attrs_len, deleted_len := hd.trans L.deleted_len }

end Hnsw

/-! ## Whatever is accepted

Each part of the decoder takes exactly the bytes the encoder writes for what it returns. -/

theorem consumes_require (ok : Bool) (e : HnswDecodeError) :
    Consumes (require ok e : Decoder (List UInt8) Unit) fun bs _ => bs = [] ∧ ok = true := by
  intro s a s' h
  cases ok with
  | true =>
    cases h
    exact ⟨[], rfl, rfl, rfl⟩
  | false => cases h

theorem yields_require (ok : Bool) (e : HnswDecodeError) :
    Yields (require ok e : Decoder (List UInt8) Unit) fun _ => ok = true :=
  (consumes_require ok e).yields fun _ _ h => h.2

theorem consumes_remaining :
    Consumes (remaining : Decoder (List UInt8) Nat) fun bs _ => bs = [] ∧ True := by
  intro s a s' h
  cases h
  exact ⟨[], rfl, rfl, trivial⟩

theorem consumes_checked {α : Type} {x : Outcome HnswDecodeError α} {a : α} (hx : x = .ok a) :
    Consumes (checked x : Decoder (List UInt8) α) fun bs b => bs = [] ∧ b = a := by
  subst hx
  intro s b s' h
  cases h
  exact ⟨[], rfl, rfl, rfl⟩

theorem consumes_readExact (k : Nat) :
    Consumes (Decoder.readExact k : Decoder (List UInt8) _) fun bs a => bs = a ∧ a.length = k := by
  intro s a s' h
  have h' : (if k > s.length then Outcome.fail HnswDecodeError.truncated
    else .ok (s.take k, s.drop k)) = .ok (a, s') := h
  split_ifs at h' with hk
  · cases h'
  · cases h'
    refine ⟨s.take k, (List.take_append_drop k s).symm, rfl, ?_⟩
    rw [List.length_take]
    omega

theorem yields_readExact (k : Nat) :
    Yields (Decoder.readExact k : Decoder (List UInt8) _) fun bs => bs.length = k :=
  (consumes_readExact k).yields fun _ _ h => h.2

theorem consumes_readLe (k : Nat) : Consumes (readLe k : Decoder (List UInt8) Nat) fun bs v =>
    bs = leBytes k v ∧ v < 256 ^ k := by
  unfold readLe
  refine (consumes_readExact k).bind ?_
  rintro bs a ⟨rfl, rfl⟩
  apply Consumes.pure
  rw [List.append_nil, Bytes.leBytes_ofLe]
  exact ⟨rfl, Bytes.ofLe_lt bs⟩

theorem consumes_times {α : Type} {item : Decoder (List UInt8) α} {chunk : α → List UInt8}
    (hitem : Consumes item fun bs x => bs = chunk x) (k : Nat) :
    Consumes (times k item) fun bs xs => bs = xs.flatMap chunk ∧ xs.length = k := by
  induction k with
  | zero => exact Consumes.pure ⟨rfl, rfl⟩
  | succ k ih =>
    rw [times]
    refine hitem.bind ?_
    rintro bs x rfl
    refine ih.bind ?_
    rintro bs xs ⟨rfl, rfl⟩
    apply Consumes.pure
    rw [List.append_nil, List.flatMap_cons]
    exact ⟨rfl, rfl⟩

theorem yields_times {α : Type} {item : Decoder (List UInt8) α} {Q : α → Prop}
    (hitem : Yields item Q) (k : Nat) :
    Yields (times k item) fun xs => xs.length = k ∧ ∀ x ∈ xs, Q x := by
  induction k with
  | zero => exact Yields.pure ⟨rfl, nofun⟩
  | succ k ih =>
    rw [times]
    refine hitem.bind fun x hx => ih.bind ?_
    rintro xs ⟨hlen, hxs⟩
    refine Yields.pure ⟨congrArg (· + 1) hlen, fun y hy => ?_⟩
    rcases List.mem_cons.mp hy with rfl | hy
    · exact hx
    · exact hxs y hy

theorem consumes_attrValue :
    Consumes (readAttrValue : Decoder (List UInt8) AttrValue) fun bs v => bs = writeAttrValue v := by
  unfold readAttrValue
  refine (consumes_readLe 1).bind ?_
  rintro bs tag ⟨rfl, -⟩
  match tag with
  | 0 => exact Consumes.pure rfl
  | 1 =>
    refine (consumes_readLe 8).bind ?_
    rintro bs v ⟨rfl, hv⟩
    apply Consumes.pure
    show attrTagInt :: (leBytes 8 v ++ []) =
      attrTagInt :: leBytes 8 (UInt64.ofNat v).toInt64.toUInt64.toNat
    rw [List.append_nil, UInt64.toUInt64_toInt64, UInt64.toNat_ofNat_of_lt' hv]
  | 2 =>
    refine (consumes_readLe 8).bind ?_
    rintro bs v ⟨rfl, hv⟩
    apply Consumes.pure
    show attrTagFloat :: (leBytes 8 v ++ []) = attrTagFloat :: leBytes 8 (UInt64.ofNat v).toNat
    rw [List.append_nil, UInt64.toNat_ofNat_of_lt' hv]
  | _ + 3 =>
    intro s a s' h
    cases h

theorem consumes_attrRow :
    Consumes (readAttrRow : Decoder (List UInt8) _) fun bs row => bs = writeAttrRow row := by
  unfold readAttrRow
  refine (consumes_readLe 8).bind ?_
  rintro bs count ⟨rfl, -⟩
  refine consumes_remaining.bind_check fun _ _ => ?_
  refine (consumes_require _ _).bind_check fun _ _ => ?_
  refine (consumes_times consumes_attrValue count).mono ?_
  rintro bs row ⟨rfl, rfl⟩
  rfl

theorem consumes_neighborList (cap n : Nat) :
    Consumes (readNeighborList cap n : Decoder (List UInt8) _) fun bs ids =>
      bs = writeNeighborList ids ∧ ids.length ≤ cap ∧ ∀ x ∈ ids, x < n := by
  have hitem : Consumes (readNeighbor n : Decoder (List UInt8) Nat) fun bs id =>
      bs = leBytes 8 id ∧ id < n := by
    unfold readNeighbor
    refine (consumes_readLe 8).bind ?_
    rintro bs id ⟨rfl, -⟩
    refine (consumes_require _ _).bind_check fun _ hid => Consumes.pure ?_
    exact ⟨List.append_nil _, of_decide_eq_true hid⟩
  unfold readNeighborList
  refine (consumes_readLe 8).bind ?_
  rintro bs count ⟨rfl, -⟩
  refine (consumes_require _ _).bind_check fun _ hcap => ?_
  refine consumes_remaining.bind_check fun _ _ => ?_
  refine (consumes_require _ _).bind_check fun _ _ => ?_
  refine ((consumes_times (hitem.mono fun _ _ h => h.1) count).and_yields
    (yields_times (hitem.yields fun _ _ h => h.2) count)).mono ?_
  rintro bs ids ⟨⟨rfl, rfl⟩, -, hids⟩
  exact ⟨rfl, of_decide_eq_true hcap, hids⟩

theorem consumes_tombstone : Consumes (readTombstone : Decoder (List UInt8) Bool) fun bs deleted =>
    bs = [if deleted then 1 else 0] := by
  unfold readTombstone
  refine (consumes_readLe 1).bind ?_
  rintro bs flag ⟨rfl, -⟩
  match flag with
  | 0 => exact Consumes.pure rfl
  | 1 => exact Consumes.pure rfl
  | _ + 2 =>
    intro s a s' h
    cases h

theorem writeVector_word (b₀ b₁ b₂ b₃ : UInt8) (rest : List UInt8) :
    writeVector (floatsOfBytes (b₀ :: b₁ :: b₂ :: b₃ :: rest)) =
      b₀ :: b₁ :: b₂ :: b₃ :: writeVector (floatsOfBytes rest) := by
  have hword : ofLe [b₀, b₁, b₂, b₃] < 2 ^ 32 :=
    (Bytes.ofLe_lt [b₀, b₁, b₂, b₃]).trans_eq (show 256 ^ 4 = 2 ^ 32 from rfl)
  have hbits : (F32.ofNatBits (ofLe [b₀, b₁, b₂, b₃])).bits.toNat = ofLe [b₀, b₁, b₂, b₃] :=
    UInt32.toNat_ofNat_of_lt' hword
  have hbytes : leBytes 4 (ofLe [b₀, b₁, b₂, b₃]) = [b₀, b₁, b₂, b₃] :=
    Bytes.leBytes_ofLe [b₀, b₁, b₂, b₃]
  unfold writeVector
  rw [floatsOfBytes, List.flatMap_cons, hbits, hbytes]
  rfl

/-- The components spelled by whole words are written as those words. -/
theorem writeVector_floatsOfBytes {bs : List UInt8} {k : Nat} (hlen : bs.length = k * 4) :
    writeVector (floatsOfBytes bs) = bs := by
  induction k generalizing bs with
  | zero =>
    have hnil : bs = [] := List.length_eq_zero_iff.mp (by omega)
    rw [hnil]
    rfl
  | succ k ih =>
    match bs, hlen with
    | b₀ :: b₁ :: b₂ :: b₃ :: rest, hlen =>
      have hrest : rest.length = k * 4 := by
        simp only [List.length_cons] at hlen
        omega
      rw [writeVector_word, ih hrest]
    | [], hlen | [_], hlen | [_, _], hlen | [_, _, _], hlen =>
      simp only [List.length_cons, List.length_nil] at hlen
      omega

theorem floatsOfBytes_length : ∀ (bs : List UInt8), (floatsOfBytes bs).length = bs.length / 4
  | [] => by simp [floatsOfBytes]
  | [_] => by simp [floatsOfBytes]
  | [_, _] => by simp [floatsOfBytes]
  | [_, _, _] => by simp [floatsOfBytes]
  | _ :: _ :: _ :: _ :: rest => by
    rw [floatsOfBytes, List.length_cons, floatsOfBytes_length rest]
    simp only [List.length_cons]
    omega

/-- Ids and counts fit the 32 bits of a link slot. -/
structure GraphHeader.Narrow (hdr : GraphHeader) : Prop where
  n_le : hdr.n ≤ 2 ^ 32
  m0Cap_lt : hdr.derived.m0Cap < 2 ^ 32
  mCap_lt : hdr.derived.mCap < 2 ^ 32

/-- A list read within its cap is stored as it was read. -/
theorem GraphHeader.Narrow.stored {hdr : GraphHeader} (N : hdr.Narrow) {ids : List Nat}
    {layer : Nat} (hids : ∀ x ∈ ids, x < hdr.n)
    (hcap : ids.length ≤ if layer = 0 then hdr.derived.m0Cap else hdr.derived.mCap) :
    ids = (ids.map asU32).take (asU32 ids.length) := by
  have hlen : ids.length < 2 ^ 32 := by
    have h0 := N.m0Cap_lt
    have h1 := N.mCap_lt
    split_ifs at hcap <;> omega
  have hmap : ids.map asU32 = ids :=
    (List.map_congr_left fun x hx => Nat.mod_eq_of_lt ((hids x hx).trans_le N.n_le)).trans
      (List.map_id ids)
  have hcount : asU32 ids.length = ids.length := Nat.mod_eq_of_lt hlen
  rw [hmap, hcount, List.take_length]

/-- What holds of the tables after `k` nodes. -/
structure Decoded (hdr : GraphHeader) (tables : NodeTables) (k : Nat) : Prop where
  layout : Hnsw.Layout (graphOf hdr tables k)
  capped : Hnsw.Capped (graphOf hdr tables k)
  links_lt : ∀ a l, ∀ x ∈ (graphOf hdr tables k).nbrs a l, x < hdr.n

namespace Decoded

variable {hdr : GraphHeader} {tables : NodeTables} {k : Nat}

/-- The layers of one node, filled into the run reserved for it. -/
theorem consumes_layers (D : Decoded hdr tables k) {vector : List F32} {levels : Nat}
    (hvector : vector.length = hdr.dim) (hpos : 0 < levels)
    (hfit : (graphOf hdr tables k).base k + levels < 2 ^ 32) :
    let g₁ := (graphOf hdr tables k).withNode vector [] levels
    Consumes (Brindle.readLayers hdr tables.links.length levels (tables.links ++
        List.replicate (hdr.derived.m0Cap + 1 + (levels - 1) * (hdr.derived.mCap + 1)) 0)
        tables.linkCounts : Decoder (List UInt8) _) fun bs r =>
      Hnsw.Relinked (fun a _ => a = k) g₁ (g₁.withLinks r.1 r.2) ∧
      (∀ l, ((g₁.withLinks r.1 r.2).nbrs k l).length ≤ g₁.maxDegree l ∧
          ∀ x ∈ (g₁.withLinks r.1 r.2).nbrs k l, x < hdr.n) ∧
      (hdr.Narrow → bs = (List.range levels).flatMap fun l =>
        writeNeighborList ((g₁.withLinks r.1 r.2).nbrs k l)) := by
  intro g₁
  have L := D.layout
  have L₁ : Hnsw.Layout g₁ := L.withNode vector [] hvector hpos hfit
  have hk : k < g₁.n := Nat.lt_succ_self k
  have hlevels : g₁.levelsOf k = levels := L.withNode_levelsOf_last vector []
  have hbase : g₁.base k = (graphOf hdr tables k).base k := L.withNode_base vector [] le_rfl
  have hcounts₀ : tables.linkCounts.length = g₁.base k := L.counts_len.trans hbase.symm
  have hstart : tables.links.length = g₁.runStart k :=
    L.links_len.trans (L.withNode_runStart vector [] le_rfl).symm
  have hnew : ∀ l, g₁.nbrs k l = [] := fun l => by
    rw [L.withNode_nbrs vector []]
    exact Hnsw.Layout.nbrs_of_not_owns fun ho => Nat.lt_irrefl _ ho.1
  unfold Brindle.readLayers
  -- after `done` layers: their lists are in place, and the bytes spell them
  refine (Consumes.foldlM (fun done bs (r : List Nat × List Nat) =>
    r.2.length = g₁.base k + done.length ∧
    Hnsw.Relinked (fun a _ => a = k) g₁ (Hnsw.filling g₁ levels done.length r.1 r.2) ∧
    (∀ l, ((Hnsw.filling g₁ levels done.length r.1 r.2).nbrs k l).length ≤ g₁.maxDegree l ∧
      ∀ x ∈ (Hnsw.filling g₁ levels done.length r.1 r.2).nbrs k l, x < hdr.n) ∧
    (hdr.Narrow → bs = (List.range done.length).flatMap fun l =>
      writeNeighborList ((Hnsw.filling g₁ levels done.length r.1 r.2).nbrs k l))) _ ?_ ?_).mono ?_
  · rintro done layer rest bs ⟨links, counts⟩ hsplit ⟨hcounts, R, hlists, hbytes⟩
    obtain ⟨rfl, hlt⟩ := range_split hsplit
    have hlen : (done ++ [done.length]).length = done.length + 1 := List.length_append ..
    dsimp only at hcounts R hlists hbytes
    refine (consumes_neighborList _ _).bind ?_
    rintro chunk ids ⟨rfl, hcap, hids⟩
    have hcap' : ids.length ≤ g₁.maxDegree done.length := hcap
    obtain ⟨hok, R', hown⟩ := Hnsw.fill_step hk hlevels hlt R hcounts hcap'
    have hwithin : tables.links.length + (if done.length = 0 then 0 else
        hdr.derived.m0Cap + 1 + (done.length - 1) * (hdr.derived.mCap + 1)) =
        g₁.slotAt k done.length := by
      rw [hstart]
      rfl
    dsimp only
    rw [hwithin]
    refine (consumes_checked hok).bind_check ?_
    rintro links' rfl
    apply Consumes.pure
    rw [hlen]
    refine ⟨?_, R.trans (R'.mono fun a l ha => ha.1), fun l => ?_, fun hnarrow => ?_⟩
    · rw [List.length_append, List.length_singleton, hcounts]
      omega
    · by_cases hl : l = done.length
      · subst hl
        rw [hown]
        refine ⟨(List.length_take_le' _ _).trans ?_, fun x hx => ?_⟩
        · rw [List.length_map]
          exact hcap'
        · obtain ⟨y, hy, rfl⟩ := List.mem_map.mp (List.mem_of_mem_take hx)
          exact (Nat.mod_le ..).trans_lt (hids y hy)
      · rw [R'.frame k l fun ht => hl ht.2]
        exact hlists l
    · -- the casts lose nothing, and the lists filled before are as they were
      rw [← hnarrow.stored hids hcap] at hown
      have hold : ∀ l ∈ List.range done.length, _ = writeNeighborList _ := fun l hl =>
        congrArg writeNeighborList (R'.frame k l fun ht =>
          (List.mem_range.mp hl).ne ht.2)
      rw [List.append_nil, List.range_succ, List.flatMap_append, List.flatMap_singleton, hown,
        List.flatMap_congr hold, ← hbytes hnarrow]
  · have hzero : Hnsw.filling g₁ levels 0 (tables.links ++ List.replicate
        (hdr.derived.m0Cap + 1 + (levels - 1) * (hdr.derived.mCap + 1)) 0) tables.linkCounts =
        g₁ := rfl
    rw [List.length_nil, hzero]
    refine ⟨hcounts₀, Hnsw.Relinked.refl L₁, fun l => ?_, fun _ => rfl⟩
    rw [hnew]
    exact ⟨Nat.zero_le _, nofun⟩
  · rintro bs ⟨links, counts⟩ ⟨-, R, hlists, hbytes⟩
    have hdone : Hnsw.filling g₁ levels (List.range levels).length links counts =
        g₁.withLinks links counts := by
      unfold Hnsw.filling
      rw [List.length_range, Nat.sub_self, List.replicate_zero, List.append_nil]
    rw [hdone] at R hlists hbytes
    rw [List.length_range] at hbytes
    exact ⟨R, hlists, hbytes⟩

section Record

variable {g : Hnsw} (L : Hnsw.Layout g) {vector : List F32} {levels : Nat}
  {links counts : List Nat} (attrs : List AttrValue) (deleted : Bool)
include L

/-- The rows of one more node leave the records of the earlier ones as they were. -/
theorem nodeBytes_rows
    (R : Hnsw.Relinked (fun a _ => a = g.n) (g.withNode vector [] levels)
      ((g.withNode vector [] levels).withLinks links counts)) {a : Nat} (ha : a < g.n) :
    Hnsw.nodeBytes { (g.withNode vector [] levels).withLinks links counts with
      attrs := g.attrs ++ [attrs], deleted := g.deleted ++ [deleted] } a = g.nodeBytes a := by
  have hdeleted : (g.deleted ++ [deleted]).getD a false = g.isDeleted a := by
    have hlt : a < g.deleted.length := ha.trans_eq L.deleted_len.symm
    simp only [Hnsw.isDeleted, List.getD_eq_getElem?_getD, List.getElem?_append_left hlt]
  have hattrs : (g.attrs ++ [attrs]).getD a [] = g.attrsOf a :=
    @Hnsw.Layout.withNode_attrsOf g L vector attrs levels a ha
  have hvec : (g.withNode vector [] levels).vec a = g.vec a := L.withNode_vec vector [] ha
  have hlevels : (g.withNode vector [] levels).levelsOf a = g.levelsOf a :=
    L.withNode_levelsOf vector [] ha
  have hnbrs : ((g.withNode vector [] levels).withLinks links counts).nbrs a = g.nbrs a := by
    funext l
    rw [R.frame a l ha.ne, L.withNode_nbrs vector []]
  show (if (g.deleted ++ [deleted]).getD a false then 1 else 0) ::
      leBytes 8 ((g.withNode vector [] levels).levelsOf a) ++
      writeVector ((g.withNode vector [] levels).vec a) ++
      ((List.range ((g.withNode vector [] levels).levelsOf a)).map
        (((g.withNode vector [] levels).withLinks links counts).nbrs a)).flatMap
          writeNeighborList ++ writeAttrRow ((g.attrs ++ [attrs]).getD a []) = _
  rw [hdeleted, hattrs, hvec, hlevels, hnbrs]
  rfl

/-- The record of the node just added. -/
theorem nodeBytes_last (hdim : vector.length = g.dim) :
    Hnsw.nodeBytes { (g.withNode vector [] levels).withLinks links counts with
      attrs := g.attrs ++ [attrs], deleted := g.deleted ++ [deleted] } g.n =
      (if deleted then 1 else 0) :: leBytes 8 levels ++ writeVector vector ++
        ((List.range levels).flatMap fun l => writeNeighborList
          (((g.withNode vector [] levels).withLinks links counts).nbrs g.n l)) ++
        writeAttrRow attrs := by
  have hdeleted : (g.deleted ++ [deleted]).getD g.n false = deleted := by
    rw [← L.deleted_len, List.getD_eq_getElem?_getD, List.getElem?_concat_length]
    rfl
  have hattrs : (g.attrs ++ [attrs]).getD g.n [] = attrs :=
    @Hnsw.Layout.withNode_attrsOf_last g L vector attrs levels
  have hvec : (g.withNode vector [] levels).vec g.n = vector := L.withNode_vec_last vector [] hdim
  have hlevels : (g.withNode vector [] levels).levelsOf g.n = levels :=
    L.withNode_levelsOf_last vector []
  show (if (g.deleted ++ [deleted]).getD g.n false then 1 else 0) ::
      leBytes 8 ((g.withNode vector [] levels).levelsOf g.n) ++
      writeVector ((g.withNode vector [] levels).vec g.n) ++
      ((List.range ((g.withNode vector [] levels).levelsOf g.n)).map
        (((g.withNode vector [] levels).withLinks links counts).nbrs g.n)).flatMap
          writeNeighborList ++ writeAttrRow ((g.attrs ++ [attrs]).getD g.n []) = _
  rw [hdeleted, hattrs, hvec, hlevels, List.flatMap_map]

end Record

/-- One node more: the earlier ones are as they were, and the bytes are its record. -/
theorem consumes_node (D : Decoded hdr tables k) (ceiling : Nat) :
    Consumes (Brindle.readNode hdr ceiling tables : Decoder (List UInt8) _) fun bs tables' =>
      Decoded hdr tables' (k + 1) ∧
      (∀ a < k, (graphOf hdr tables' (k + 1)).nodeBytes a = (graphOf hdr tables k).nodeBytes a) ∧
      (hdr.Narrow → bs = (graphOf hdr tables' (k + 1)).nodeBytes k) := by
  have L := D.layout
  unfold Brindle.readNode
  refine consumes_tombstone.bind ?_
  rintro _ deleted rfl
  refine (consumes_readLe 8).bind ?_
  rintro _ levels ⟨rfl, -⟩
  refine (consumes_require _ _).bind_check fun _ hpos => ?_
  refine (consumes_require _ _).bind_check fun _ _ => ?_
  refine (consumes_readExact _).bind ?_
  rintro bytes _ ⟨rfl, hbytes⟩
  refine consumes_remaining.bind_check fun _ _ => ?_
  refine (consumes_require _ _).bind_check fun _ _ => ?_
  refine (consumes_require _ _).bind_check fun _ hfit => ?_
  refine (consumes_require _ _).bind_check fun _ _ => ?_
  have hvector : (floatsOfBytes bytes).length = hdr.dim := by
    rw [floatsOfBytes_length, hbytes]
    omega
  have hpos' : 0 < levels := by
    rw [decide_eq_true_eq] at hpos
    omega
  have hcounts : tables.linkCounts.length = (graphOf hdr tables k).base k := L.counts_len
  have hfit' : (graphOf hdr tables k).base k + levels < 2 ^ 32 := by
    rw [decide_eq_true_eq, hcounts] at hfit
    exact hfit
  refine (D.consumes_layers hvector hpos' hfit').bind ?_
  rintro lists ⟨links, counts⟩ ⟨R, hlists, hspelled⟩
  refine consumes_attrRow.bind ?_
  rintro _ attrs rfl
  apply Consumes.pure
  -- the tables describe the graph before, with the node, its lists and its row
  set g₁ := (graphOf hdr tables k).withNode (floatsOfBytes bytes) [] levels with hg₁
  have hgraph : graphOf hdr
      { vectors := tables.vectors ++ floatsOfBytes bytes
        layerBase := tables.layerBase ++ [tables.linkCounts.length + levels]
        linkCounts := counts
        links
        attrs := tables.attrs ++ [attrs]
        deleted := tables.deleted ++ [deleted] } (k + 1) =
      { g₁.withLinks links counts with
        attrs := tables.attrs ++ [attrs]
        deleted := tables.deleted ++ [deleted] } := by
    rw [hcounts]
    rfl
  have hold : ∀ a l, a ≠ k → (g₁.withLinks links counts).nbrs a l =
      (graphOf hdr tables k).nbrs a l := fun a l hne =>
    (R.frame a l hne).trans (L.withNode_nbrs (floatsOfBytes bytes) [] a l)
  rw [hgraph]
  refine ⟨⟨?_, fun a l => ?_, fun a l x hx => ?_⟩, fun a ha => ?_, fun hnarrow => ?_⟩
  · rw [hgraph]
    refine R.layout.setRows ?_ ?_
    · show (tables.attrs ++ [attrs]).length = (tables.attrs ++ [[]]).length
      rw [List.length_append, List.length_append]
      rfl
    · show (tables.deleted ++ [deleted]).length = (tables.deleted ++ [false]).length
      rw [List.length_append, List.length_append]
      rfl
  · rw [hgraph]
    show ((g₁.withLinks links counts).nbrs a l).length ≤ g₁.maxDegree l
    by_cases ha : a = k
    · rw [ha]
      exact (hlists l).1
    · rw [hold a l ha]
      exact D.capped a l
  · rw [hgraph] at hx
    have hx' : x ∈ (g₁.withLinks links counts).nbrs a l := hx
    by_cases ha : a = k
    · rw [ha] at hx'
      exact (hlists l).2 x hx'
    · rw [hold a l ha] at hx'
      exact D.links_lt a l x hx'
  · exact nodeBytes_rows L attrs deleted R ha
  · rw [hspelled hnarrow, ← writeVector_floatsOfBytes hbytes]
    refine Eq.trans ?_ (nodeBytes_last L attrs deleted hvector).symm
    rw [writeVector_floatsOfBytes hbytes]
    simp only [List.append_nil, List.append_assoc, List.cons_append, List.nil_append]
    rfl

theorem consumes_nodes (D : Decoded hdr tables k) (ceiling count : Nat) :
    Consumes (Brindle.readNodes hdr ceiling count tables : Decoder (List UInt8) _)
      fun bs tables' => Decoded hdr tables' (k + count) ∧
        (∀ a < k, (graphOf hdr tables' (k + count)).nodeBytes a =
          (graphOf hdr tables k).nodeBytes a) ∧
        (hdr.Narrow → bs =
          (List.range' k count).flatMap (graphOf hdr tables' (k + count)).nodeBytes) := by
  induction count generalizing tables k with
  | zero => exact Consumes.pure ⟨D, fun _ _ => rfl, fun _ => rfl⟩
  | succ count ih =>
    rw [Brindle.readNodes]
    refine (D.consumes_node ceiling).bind ?_
    rintro chunk tables' ⟨D', hkeep, hchunk⟩
    have hsum : k + 1 + count = k + (count + 1) := by omega
    have hrest := ih D'
    rw [hsum] at hrest
    refine hrest.mono ?_
    rintro bs tables'' ⟨D'', hkeep', hbytes⟩
    refine ⟨D'', fun a ha => (hkeep' a (by omega)).trans (hkeep a ha), fun hnarrow => ?_⟩
    rw [List.range'_succ, List.flatMap_cons, hkeep' k (Nat.lt_succ_self k), ← hchunk hnarrow,
      ← hbytes hnarrow]

theorem readNodes (D : Decoded hdr tables k) (ceiling count : Nat) :
    Yields (Brindle.readNodes hdr ceiling count tables : Decoder (List UInt8) _) fun tables' =>
      Decoded hdr tables' (k + count) :=
  (D.consumes_nodes ceiling count).yields fun _ _ h => h.1

theorem nil (hdr : GraphHeader) : Decoded hdr {} 0 := by
  have hnone : ∀ id < (graphOf hdr {} 0).n, False := fun id hid => Nat.not_lt_zero _ hid
  have hnbrs := Hnsw.nbrs_of_n_zero (h := graphOf hdr {} 0) rfl
  exact
    { layout :=
        { base_len := rfl
          base_zero := rfl
          base_lt := fun id hid => (hnone id hid).elim
          fits := Nat.two_pow_pos 32
          counts_len := rfl
          counts_le := fun id _ ho => (hnone id ho.1).elim
          links_len := by simp [graphOf, assemble, Hnsw.runStart, Hnsw.base]
          vectors_len := (Nat.zero_mul _).symm
          attrs_len := rfl
          deleted_len := rfl }
      capped := fun a l => by
        rw [hnbrs]
        exact Nat.zero_le _
      links_lt := fun a l x hx => by
        rw [hnbrs] at hx
        cases hx }

end Decoded

theorem yields_entryPoint (entryRaw n : Nat) :
    Yields (readEntryPoint entryRaw n : Decoder (List UInt8) _) fun entry =>
      ∀ e, entry = some e → e < n := by
  unfold readEntryPoint
  split_ifs with hnone hlt
  · exact Yields.pure nofun
  · refine Yields.pure fun e he => ?_
    cases he
    exact hlt
  · intro s a s' h
    cases h

/-- What the header's checks leave to the insert path. -/
theorem yields_header [Arith] :
    Yields (readHeader : Decoder (List UInt8) GraphHeader) fun hdr =>
      hdr.dim ≤ HnswParams.maxDim ∧ (0 < hdr.n → 0 < hdr.dim) ∧
        ∀ e, hdr.entryPoint = some e → e < hdr.n := by
  unfold readHeader
  refine (Yields.any _).bind fun _ _ => (Yields.any _).bind fun _ _ => ?_
  refine (Yields.any _).bind fun _ _ => (Yields.any _).bind fun _ _ => ?_
  refine (Yields.any _).bind fun _ _ => (Yields.any _).bind fun _ _ => ?_
  refine (Yields.any _).bind fun _ _ => (Yields.any _).bind fun m _ => ?_
  refine (Yields.any _).bind fun _ _ => (Yields.any _).bind fun gamma _ => ?_
  refine (Yields.any _).bind fun _ _ => (Yields.any _).bind fun _ _ => ?_
  refine (Yields.any _).bind fun ef _ => (Yields.any _).bind fun _ _ => ?_
  refine (Yields.any _).bind fun dim _ => (yields_require _ _).bind fun _ hdim => ?_
  refine (Yields.any _).bind fun _ _ => (Yields.any _).bind fun _ _ => ?_
  refine (Yields.any _).bind fun _ _ => (Yields.any _).bind fun _ _ => ?_
  refine (Yields.any _).bind fun _ _ => (Yields.any _).bind fun entryRaw _ => ?_
  refine (Yields.any _).bind fun n _ => (yields_entryPoint _ _).bind fun entry hentry => ?_
  refine (Yields.any _).bind fun _ _ => (yields_require _ _).bind fun _ hpos => ?_
  refine Yields.pure ⟨of_decide_eq_true hdim, fun hn => ?_, hentry⟩
  simp only [Bool.or_eq_true, decide_eq_true_eq] at hpos
  show 0 < dim
  have hn' : 0 < n := hn
  omega

/-- What the graph section yields holds of an accepted blob's graph. -/
theorem fromBytes_yields [Arith] {Q : Hnsw → Prop}
    (h : Yields (Hnsw.fromGraphBytes : Decoder (List UInt8) Hnsw) Q) {bytes : List UInt8} {g : Hnsw}
    (hdec : Hnsw.fromBytes bytes = .ok g) : Q g := by
  unfold Hnsw.fromBytes at hdec
  obtain ⟨⟨g', rest⟩, hrun, hret⟩ := Outcome.bind_eq_ok.mp hdec
  cases hret
  exact h bytes _ rest hrun

/-- **Whatever is accepted is sound.** The decoder's checks establish what the insert path relies
on, for any byte string. -/
theorem fromBytes_sound [Arith] {bytes : List UInt8} {h : Hnsw}
    (hdec : Hnsw.fromBytes bytes = .ok h) : h.Sound := by
  have hyields : Yields (Hnsw.fromGraphBytes : Decoder (List UInt8) Hnsw) Hnsw.Sound := by
    unfold Hnsw.fromGraphBytes
    refine yields_header.bind ?_
    rintro hdr ⟨hdim, hpos, hentry⟩
    refine (Yields.any _).bind fun _ _ => ?_
    refine ((Decoded.nil hdr).readNodes _ hdr.n).bind fun tables D => ?_
    refine (Yields.any _).bind fun _ _ => (Yields.any _).bind fun _ _ => ?_
    refine (Yields.any _).bind fun _ _ => Yields.pure ?_
    rw [Nat.zero_add] at D
    show Hnsw.Sound (graphOf hdr tables hdr.n)
    exact
      { toLayout := D.layout
        links_lt := D.links_lt
        capped := D.capped
        dim_pos := hpos
        dim_le := hdim
        entry_lt := hentry }
  exact fromBytes_yields hyields hdec

/-! ## Decoding what was encoded -/

namespace Hnsw

/-- The links after `k` decoded nodes: each list at the start of its own run, zeros after it. -/
def mirrorLinks (h : Hnsw) : Nat → List Nat
  | 0 => []
  | k + 1 => (List.range (h.levelsOf k)).foldl
      (fun links l => splice links (h.slotAt k l) (h.nbrs k l))
      (h.mirrorLinks k ++ List.replicate (h.slotWidth 0 + (h.levelsOf k - 1) * h.slotWidth 1) 0)

/-- The same with only the first `j` layers of node `k` filled in. -/
def fillLinks (h : Hnsw) (k j : Nat) : List Nat :=
  (List.range j).foldl (fun links l => splice links (h.slotAt k l) (h.nbrs k l))
    (h.mirrorLinks k ++ List.replicate (h.slotWidth 0 + (h.levelsOf k - 1) * h.slotWidth 1) 0)

/-- The decoder's tables after the first `k` nodes of `h`. -/
def mirror (h : Hnsw) (k : Nat) : NodeTables where
  vectors := h.vectors.take (k * h.dim)
  layerBase := h.layerBase.take (k + 1)
  linkCounts := h.linkCounts.take (h.base k)
  links := h.mirrorLinks k
  attrs := h.attrs.take k
  deleted := h.deleted.take k

theorem take_getD_snoc {α : Type} {xs : List α} {i : Nat} (d : α) (hi : i < xs.length) :
    xs.take i ++ [xs.getD i d] = xs.take (i + 1) := by
  rw [List.take_add_one, List.getElem?_eq_getElem hi, List.getD_eq_getElem?_getD,
    List.getElem?_eq_getElem hi]
  rfl

section RoundTrip

variable [Arith] {h : Hnsw} (W : WellFormed h) (C : Configured h)
include W C

omit [Arith] C in
/-- A neighbor list is what its count and its ids say, with nothing lost to a narrowing cast. -/
theorem nbrs_casts (k l : Nat) : (h.nbrs k l).map asU32 = h.nbrs k l ∧
    (h.nbrs k l).take (asU32 (h.nbrs k l).length) = h.nbrs k l ∧
    asU32 (h.nbrs k l).length = (h.nbrs k l).length := by
  have hlt := W.links_lt k l
  have hsub : h.nbrs k l ⊆ List.range h.n := fun x hx => List.mem_range.mpr (hlt x hx)
  have hle : (h.nbrs k l).length ≤ h.n := by
    simpa using (List.Nodup.subperm (W.nodup k l) hsub).length_le
  exact ⟨W.map_asU32 hlt, W.take_asU32 hlt (W.nodup k l),
    Nat.mod_eq_of_lt (hle.trans_lt W.n_lt_u32)⟩

omit W C in
/-- The graph of the mirror tables has the shape of `h`'s first `k` nodes. -/
theorem graphOf_mirror_base (k : Nat) {id : Nat} (hid : id ≤ k) :
    (graphOf h.headerOf (h.mirror k) k).base id = h.base id := by
  simp only [base, graphOf, assemble, mirror, List.getD_eq_getElem?_getD, List.getElem?_take]
  rw [if_pos (by omega)]

omit W in
theorem graphOf_maxDegree (tables : NodeTables) (k layer : Nat) :
    (graphOf h.headerOf tables k).maxDegree layer = h.maxDegree layer := by
  unfold maxDegree
  rw [C.m0Cap_eq, C.mCap_eq]
  rfl

omit W in
theorem graphOf_slotWithin (tables : NodeTables) (k layer : Nat) :
    (graphOf h.headerOf tables k).slotWithin layer = h.slotWithin layer := by
  simp only [slotWithin, slotWidth, graphOf_maxDegree C]

omit W in
theorem mirror_runStart (k : Nat) :
    (graphOf h.headerOf (h.mirror k) k).runStart k = h.runStart k := by
  unfold runStart slotWidth
  rw [graphOf_mirror_base k le_rfl, graphOf_maxDegree C, graphOf_maxDegree C]

/-- What the mirror tables hold after `k` nodes. -/
structure Mirrored (h : Hnsw) (k : Nat) : Prop where
  layout : Layout (graphOf h.headerOf (h.mirror k) k)
  nbrs_eq : ∀ a < k, ∀ l, (graphOf h.headerOf (h.mirror k) k).nbrs a l = h.nbrs a l

/-- The graph of the mirror tables with node `k` stored and its first `j` layers filled in. -/
def mirrorFilling (h : Hnsw) (k j : Nat) : Hnsw :=
  filling ((graphOf h.headerOf (h.mirror k) k).withNode (h.vec k) (h.attrsOf k) (h.levelsOf k))
    (h.levelsOf k) j (h.fillLinks k j) (h.linkCounts.take (h.base k + j))

omit W in
theorem mirror_slotAt {k : Nat} (M : Mirrored h k) (j : Nat) :
    ((graphOf h.headerOf (h.mirror k) k).withNode (h.vec k) (h.attrsOf k) (h.levelsOf k)).slotAt
      k j = h.slotAt k j := by
  have hrun : ((graphOf h.headerOf (h.mirror k) k).withNode (h.vec k) (h.attrsOf k)
      (h.levelsOf k)).runStart k = h.runStart k :=
    (M.layout.withNode_runStart (h.vec k) (h.attrsOf k) (le_refl k)).trans (mirror_runStart C k)
  unfold slotAt
  rw [hrun]
  exact congrArg (h.runStart k + ·) (graphOf_slotWithin C (h.mirror k) k j)

theorem mirror_fill {k : Nat} (hk : k < h.n) (M : Mirrored h k) {j : Nat}
    (hj : j ≤ h.levelsOf k) :
    Relinked (fun a _ => a = k)
        ((graphOf h.headerOf (h.mirror k) k).withNode (h.vec k) (h.attrsOf k) (h.levelsOf k))
        (mirrorFilling h k j) ∧
      (∀ l < j, (mirrorFilling h k j).nbrs k l = h.nbrs k l) ∧
      (j < h.levelsOf k → (overwrite (h.fillLinks k j) (h.slotAt k j) ((h.nbrs k j).map asU32) :
        Outcome HnswDecodeError _) = .ok (h.fillLinks k (j + 1))) := by
  set g := graphOf h.headerOf (h.mirror k) k
  set g₁ := g.withNode (h.vec k) (h.attrsOf k) (h.levelsOf k)
  have L := M.layout
  have hgn : g.n = k := rfl
  have hgbase : g.base g.n = h.base k := graphOf_mirror_base k le_rfl
  have hpos := W.levelsOf_pos hk
  have hfit : g.base g.n + h.levelsOf k < 2 ^ 32 := by
    rw [hgbase, ← W.base_succ hk]
    exact W.base_lt_u32 hk
  have hdim : (h.vec k).length = g.dim := W.vec_length hk
  have L₁ : Layout g₁ := L.withNode (h.vec k) (h.attrsOf k) hdim hpos hfit
  have hk₁ : k < g₁.n := Nat.lt_succ_self k
  have hlevels : g₁.levelsOf k = h.levelsOf k := L.withNode_levelsOf_last (h.vec k) (h.attrsOf k)
  have hbase₁ : g₁.base k = h.base k :=
    (L.withNode_base (h.vec k) (h.attrsOf k) le_rfl).trans hgbase
  have hslot : ∀ l, g₁.slotAt k l = h.slotAt k l := fun l => mirror_slotAt C M l
  have hcap : ∀ l, (h.nbrs k l).length ≤ g₁.maxDegree l := fun l =>
    (W.capped k l).trans (graphOf_maxDegree C (h.mirror k) k l).ge
  -- one layer more: the splice the decoder makes is the next one of the fold
  have hstep : ∀ j < h.levelsOf k,
      Relinked (fun a _ => a = k) g₁ (mirrorFilling h k j) →
      (overwrite (h.fillLinks k j) (h.slotAt k j) ((h.nbrs k j).map asU32) :
          Outcome HnswDecodeError _) = .ok (h.fillLinks k (j + 1)) ∧
        Relinked (Only k j) (mirrorFilling h k j) (mirrorFilling h k (j + 1)) ∧
        (mirrorFilling h k (j + 1)).nbrs k j = h.nbrs k j := by
    intro j hj R
    obtain ⟨hmap, htake, hlen⟩ := nbrs_casts W k j
    have ho : h.Owns k j := ⟨hk, hj⟩
    have hcountlt := W.count_lt ho
    have hcounts : (h.linkCounts.take (h.base k + j)).length = g₁.base k + j := by
      rw [List.length_take, hbase₁]
      omega
    have hnext : h.linkCounts.take (h.base k + j) ++ [asU32 (h.nbrs k j).length] =
        h.linkCounts.take (h.base k + (j + 1)) := by
      rw [hlen, W.nbrs_length ho]
      exact take_getD_snoc 0 hcountlt
    have hfill : splice (h.fillLinks k j) (h.slotAt k j) (h.nbrs k j) = h.fillLinks k (j + 1) := by
      unfold fillLinks
      rw [List.range_succ, List.foldl_append]
      rfl
    have hs := fill_step hk₁ hlevels hj R hcounts (hcap j)
    rw [hslot, hmap, hfill, hnext, htake] at hs
    rw [hmap]
    exact hs
  have hall : ∀ j ≤ h.levelsOf k, Relinked (fun a _ => a = k) g₁ (mirrorFilling h k j) ∧
      ∀ l < j, (mirrorFilling h k j).nbrs k l = h.nbrs k l := by
    intro j
    induction j with
    | zero =>
      intro _
      have hwidth : ∀ l, g.slotWidth l = h.slotWidth l := fun l =>
        congrArg (· + 1) (graphOf_maxDegree C (h.mirror k) k l)
      have hlinks : h.fillLinks k 0 = g₁.links := by
        show h.mirrorLinks k ++ _ = h.mirrorLinks k ++
          List.replicate (g.slotWidth 0 + (h.levelsOf k - 1) * g.slotWidth 1) 0
        rw [hwidth, hwidth]
      have hzero : mirrorFilling h k 0 = g₁.withLinks (h.fillLinks k 0) g₁.linkCounts := rfl
      rw [hzero, hlinks]
      exact ⟨Relinked.refl L₁, nofun⟩
    | succ j ih =>
      intro hj
      obtain ⟨R, hlists⟩ := ih (by omega)
      obtain ⟨-, R', hown⟩ := hstep j hj R
      refine ⟨R.trans (R'.mono fun a l ht => ht.1), fun l hl => ?_⟩
      rcases Nat.lt_or_ge l j with hlt | hge
      · rw [R'.frame k l fun ht => hlt.ne ht.2]
        exact hlists l hlt
      · obtain rfl : l = j := by omega
        exact hown
  obtain ⟨R, hlists⟩ := hall j hj
  exact ⟨R, hlists, fun hlt => (hstep j hlt R).1⟩

omit C [Arith] in
theorem mirror_counts_length {k : Nat} (hk : k ≤ h.n) :
    (h.mirror k).linkCounts.length = h.base k := by
  have hle := W.base_mono hk le_rfl
  show (h.linkCounts.take (h.base k)).length = h.base k
  rw [List.length_take, W.counts_len]
  omega

omit C [Arith] in
/-- The tables one node on, as the decoder puts them together. -/
theorem mirror_succ {k : Nat} (hk : k < h.n) :
    ({ vectors := (h.mirror k).vectors ++ h.vec k
       layerBase := (h.mirror k).layerBase ++ [(h.mirror k).linkCounts.length + h.levelsOf k]
       linkCounts := h.linkCounts.take (h.base k + h.levelsOf k)
       links := h.fillLinks k (h.levelsOf k)
       attrs := (h.mirror k).attrs ++ [h.attrsOf k]
       deleted := (h.mirror k).deleted ++ [h.isDeleted k] } : NodeTables) = h.mirror (k + 1) := by
  have hvectors : h.vectors.take (k * h.dim) ++ h.vec k = h.vectors.take ((k + 1) * h.dim) := by
    rw [Nat.add_one_mul, List.take_add]
    rfl
  have hbase : h.layerBase.take (k + 1) ++ [h.base (k + 1)] = h.layerBase.take (k + 1 + 1) :=
    take_getD_snoc 0 (by rw [W.base_len]; omega)
  have hattrs : h.attrs.take k ++ [h.attrsOf k] = h.attrs.take (k + 1) :=
    take_getD_snoc [] (by rw [W.attrs_len]; exact hk)
  have hdeleted : h.deleted.take k ++ [h.isDeleted k] = h.deleted.take (k + 1) :=
    take_getD_snoc false (by rw [W.deleted_len]; exact hk)
  rw [mirror_counts_length W hk.le, ← W.base_succ hk]
  show NodeTables.mk (h.vectors.take (k * h.dim) ++ h.vec k)
    (h.layerBase.take (k + 1) ++ [h.base (k + 1)]) (h.linkCounts.take (h.base (k + 1)))
    (h.fillLinks k (h.levelsOf k)) (h.attrs.take k ++ [h.attrsOf k])
    (h.deleted.take k ++ [h.isDeleted k]) = _
  rw [hvectors, hbase, hattrs, hdeleted]
  rfl

theorem Mirrored.succ {k : Nat} (hk : k < h.n) (M : Mirrored h k) : Mirrored h (k + 1) := by
  obtain ⟨R, hlists, -⟩ := mirror_fill W C hk M le_rfl
  have hgraph : graphOf h.headerOf (h.mirror (k + 1)) (k + 1) =
      { mirrorFilling h k (h.levelsOf k) with
        attrs := (h.mirror k).attrs ++ [h.attrsOf k]
        deleted := (h.mirror k).deleted ++ [h.isDeleted k] } := by
    have hgbase : (graphOf h.headerOf (h.mirror k) k).base k = (h.mirror k).linkCounts.length :=
      M.layout.counts_len.symm
    have hzeros : h.linkCounts.take (h.base k + h.levelsOf k) =
        h.linkCounts.take (h.base k + h.levelsOf k) ++
          List.replicate (h.levelsOf k - h.levelsOf k) 0 := by
      rw [Nat.sub_self, List.replicate_zero, List.append_nil]
    rw [← mirror_succ W hk, hzeros, ← hgbase]
    rfl
  constructor
  · rw [hgraph]
    refine R.layout.setRows rfl ?_
    show ((h.mirror k).deleted ++ [h.isDeleted k]).length =
      ((h.mirror k).deleted ++ [false]).length
    rw [List.length_append, List.length_append]
    rfl
  · intro a ha l
    rw [hgraph]
    show (mirrorFilling h k (h.levelsOf k)).nbrs a l = h.nbrs a l
    by_cases hak : a = k
    · subst hak
      rcases Nat.lt_or_ge l (h.levelsOf a) with hl | hl
      · exact hlists l hl
      · have hlevels : (mirrorFilling h a (h.levelsOf a)).levelsOf a = h.levelsOf a :=
          (R.levelsOf_eq a).trans
            (M.layout.withNode_levelsOf_last (h.vec a) (h.attrsOf a))
        rw [Layout.nbrs_of_not_owns, Layout.nbrs_of_not_owns]
        · exact fun ho => (hl.trans_lt ho.2).false
        · intro ho
          have := ho.2
          omega
    · rw [R.frame a l hak]
      refine (M.layout.withNode_nbrs (h.vec k) (h.attrsOf k) a l).trans ?_
      exact M.nbrs_eq a (by omega) l

omit C [Arith] in
theorem mirror_zero : h.mirror 0 = {} := by
  have hbase : h.layerBase.take 1 = [0] := by
    have hlt : 0 < h.layerBase.length := by
      rw [W.base_len]
      omega
    have hsnoc := take_getD_snoc 0 hlt
    have hzero : h.layerBase.getD 0 0 = 0 := W.base_zero
    rw [hzero] at hsnoc
    exact hsnoc.symm
  have hcounts : h.linkCounts.take (h.base 0) = [] := by
    rw [W.base_zero, List.take_zero]
  show NodeTables.mk (h.vectors.take (0 * h.dim)) (h.layerBase.take 1)
    (h.linkCounts.take (h.base 0)) [] (h.attrs.take 0) (h.deleted.take 0) = _
  rw [hbase, hcounts, Nat.zero_mul]
  rfl

theorem Mirrored.all : ∀ {k : Nat}, k ≤ h.n → Mirrored h k
  | 0, _ => by
    refine ⟨?_, fun a ha => absurd ha (Nat.not_lt_zero a)⟩
    rw [mirror_zero W]
    exact (Decoded.nil h.headerOf).layout
  | k + 1, hk => (Mirrored.all (Nat.le_of_succ_le hk)).succ W C hk

/-! ### The bytes -/

/-- The layers of node `k` read back. -/
theorem reads_layers {k : Nat} (hk : k < h.n) (M : Mirrored h k) (rest : List UInt8) :
    Reads (readLayers h.headerOf (h.mirror k).links.length (h.levelsOf k)
        ((h.mirror k).links ++ List.replicate (h.headerOf.derived.m0Cap + 1 +
          (h.levelsOf k - 1) * (h.headerOf.derived.mCap + 1)) 0) (h.mirror k).linkCounts :
        Decoder (List UInt8) _)
      ((List.range (h.levelsOf k)).flatMap fun l => writeNeighborList (h.nbrs k l)) rest
      (h.fillLinks k (h.levelsOf k), h.linkCounts.take (h.base k + h.levelsOf k)) := by
  have hn := W.n_lt_u32
  have hstart : (h.mirror k).links.length = h.runStart k :=
    M.layout.links_len.trans (mirror_runStart C k)
  have hinit : (h.mirror k).links ++ List.replicate (h.headerOf.derived.m0Cap + 1 +
      (h.levelsOf k - 1) * (h.headerOf.derived.mCap + 1)) 0 = h.fillLinks k 0 := by
    show h.mirrorLinks k ++ List.replicate ((derivedParams h.m h.gamma).m0Cap + 1 +
      (h.levelsOf k - 1) * ((derivedParams h.m h.gamma).mCap + 1)) 0 = _
    rw [← C.m0Cap_eq, ← C.mCap_eq]
    rfl
  have hend : (h.fillLinks k (h.levelsOf k), h.linkCounts.take (h.base k + h.levelsOf k)) =
      (h.fillLinks k (List.range (h.levelsOf k)).length,
        h.linkCounts.take (h.base k + (List.range (h.levelsOf k)).length)) := by
    rw [List.length_range]
  unfold readLayers
  rw [hinit, hend]
  -- after `done` layers the run of `k` holds their lists, and the counts go up to the last of them
  refine Reads.foldlM (fun done => (h.fillLinks k done.length,
    h.linkCounts.take (h.base k + done.length))) _ rest ?_
  intro done layer todo hsplit
  obtain ⟨rfl, hlt⟩ := range_split hsplit
  obtain ⟨-, -, hlen⟩ := nbrs_casts W k done.length
  have ho : h.Owns k done.length := ⟨hk, hlt⟩
  have hlist : (done ++ [done.length]).length = done.length + 1 := List.length_append ..
  have hsmall : (h.nbrs k done.length).length < 2 ^ 32 := by
    rw [← hlen]
    exact Nat.mod_lt _ (Nat.two_pow_pos 32)
  have hcap : (h.nbrs k done.length).length ≤
      if done.length = 0 then h.headerOf.derived.m0Cap else h.headerOf.derived.mCap :=
    (W.capped k done.length).trans (graphOf_maxDegree C {} 0 done.length).ge
  have hread := reads_neighborList hcap (W.links_lt k done.length)
    (show h.headerOf.n ≤ 2 ^ 64 from (hn.trans (by decide)).le) (hsmall.trans (by decide))
    ([] ++ (todo.flatMap (fun l => writeNeighborList (h.nbrs k l)) ++ rest))
  have hslot : (h.mirror k).links.length + (if done.length = 0 then 0 else
      h.headerOf.derived.m0Cap + 1 + (done.length - 1) * (h.headerOf.derived.mCap + 1)) =
      h.slotAt k done.length := by
    rw [hstart]
    exact congrArg (h.runStart k + ·) (graphOf_slotWithin C {} 0 done.length)
  have hfill := (mirror_fill W C hk M hlt.le).2.2 hlt
  have hcount : h.linkCounts.take (h.base k + done.length) ++
      [asU32 (h.nbrs k done.length).length] = h.linkCounts.take (h.base k + (done.length + 1)) := by
    rw [hlen, W.nbrs_length ho]
    exact take_getD_snoc 0 (W.count_lt ho)
  dsimp only
  rw [hlist, ← hcount, ← List.append_nil (writeNeighborList _)]
  refine hread.bind ?_
  rw [hslot, hfill]
  exact Reads.pure _ _

/-- One node reads back exactly when its slots are under the ceiling. -/
theorem readsIff_node {k : Nat} (hk : k < h.n) (ceiling : Nat) (rest : List UInt8) :
    ReadsIff (readNode h.headerOf ceiling (h.mirror k) : Decoder (List UInt8) _) (h.nodeBytes k)
      rest (h.runStart (k + 1) ≤ ceiling) (h.mirror (k + 1)) := by
  have M := Mirrored.all W C hk.le
  have hbase := W.base_lt_u32 hk.le
  have hsucc := W.base_succ hk
  have hfit := W.base_lt_u32 (show k + 1 ≤ h.n from hk)
  have hpos := W.levelsOf_pos hk
  have htop := W.top k hk
  have hlevels : h.levelsOf k < 2 ^ 64 := by omega
  have hattrs : (h.attrsOf k).length < 2 ^ 64 := by
    have hlt : k < h.attrs.length := by
      rw [W.attrs_len]
      exact hk
    refine C.attrs_word _ ?_
    unfold attrsOf
    rw [List.getD_eq_getElem?_getD, List.getElem?_eq_getElem hlt]
    exact List.getElem_mem hlt
  have hvector : (writeVector (h.vec k)).length = h.headerOf.dim * 4 := by
    rw [writeVector_length, W.vec_length hk]
    rfl
  have hslots : (h.mirror k).links.length + (h.headerOf.derived.m0Cap + 1 +
      (h.levelsOf k - 1) * (h.headerOf.derived.mCap + 1)) = h.runStart (k + 1) := by
    rw [W.runStart_succ hk]
    have hstart : (h.mirror k).links.length = h.runStart k :=
      M.layout.links_len.trans (mirror_runStart C k)
    rw [hstart]
    unfold slotWidth
    rw [← graphOf_maxDegree C {} 0 0, ← graphOf_maxDegree C {} 0 1]
    rfl
  unfold readNode nodeBytes
  rw [List.flatMap_map]
  simp only [List.append_assoc, List.cons_append]
  refine .bind_cons (reads_tombstone _ _) ?_
  refine .bind_reads (reads_u64 hlevels _) ?_
  refine .bind_nil (reads_require _ _ (decide_eq_true (by omega))) ?_
  refine .bind_nil (reads_require _ _ (decide_eq_true ?_)) ?_
  · show h.levelsOf k - 1 ≤ h.maxLayer
    omega
  refine .bind_reads (reads_readExact hvector _) ?_
  rw [floatsOfBytes_writeVector]
  refine .bind_nil (reads_remaining _) ?_
  refine .bind_nil (reads_require _ _ (decide_eq_true ?_)) ?_
  · -- each layer spells its length in eight bytes, so the count is within what is left to read
    have hbytes : 8 * (List.range (h.levelsOf k)).length ≤
        ((List.range (h.levelsOf k)).flatMap fun l => writeNeighborList (h.nbrs k l)).length :=
      length_flatMap_ge _ fun l _ => by
        unfold writeNeighborList
        rw [List.length_append, Bytes.leBytes_length]
        omega
    rw [List.length_range] at hbytes
    simp only [List.length_append]
    omega
  refine .bind_nil (reads_require _ _ (decide_eq_true ?_)) ?_
  · rw [mirror_counts_length W hk.le]
    omega
  -- the ceiling on the slots is the one check a graph of ours can fail
  refine ReadsIff.congr (C := decide ((h.mirror k).links.length + (h.headerOf.derived.m0Cap + 1 +
    (h.levelsOf k - 1) * (h.headerOf.derived.mCap + 1)) ≤ ceiling) = true ∧ True) ?_ (by
      rw [hslots, decide_eq_true_eq, and_true])
  refine .bind_check (readsIff_require _ _ _) fun _ => ?_
  refine .bind_reads (reads_layers W C hk M _) ?_
  have hrow : Reads (do
      let attrs ← readAttrRow
      return { vectors := (h.mirror k).vectors ++ h.vec k
               layerBase := (h.mirror k).layerBase ++ [(h.mirror k).linkCounts.length + h.levelsOf k]
               linkCounts := h.linkCounts.take (h.base k + h.levelsOf k)
               links := h.fillLinks k (h.levelsOf k)
               attrs := (h.mirror k).attrs ++ [attrs]
               deleted := (h.mirror k).deleted ++ [h.isDeleted k] } : Decoder (List UInt8) _)
      (writeAttrRow (h.attrsOf k)) rest (h.mirror (k + 1)) := by
    rw [← mirror_succ W hk]
    exact Reads.bind_pure (reads_attrRow hattrs rest)
  exact hrow.readsIff

/-- The nodes from `k` on read back exactly when each one's slots are under the ceiling. -/
theorem readsIff_nodes (ceiling count k : Nat) (hk : k + count ≤ h.n) (rest : List UInt8) :
    ReadsIff (readNodes h.headerOf ceiling count (h.mirror k) : Decoder (List UInt8) _)
      ((List.range' k count).flatMap h.nodeBytes) rest
      (∀ id, k ≤ id → id < k + count → h.runStart (id + 1) ≤ ceiling) (h.mirror (k + count)) := by
  induction count generalizing k with
  | zero => exact (Reads.pure _ rest).readsIff.congr ⟨fun _ id hle hlt => by omega, fun _ => trivial⟩
  | succ count ih =>
    have hrest := ih (k + 1) (by omega)
    rw [show k + 1 + count = k + (count + 1) by omega] at hrest
    rw [List.range'_succ, List.flatMap_cons, readNodes]
    refine ((readsIff_node W C (by omega) ceiling _).bind fun _ => hrest).congr ?_
    constructor
    · rintro ⟨hfirst, hlater⟩ id hle hlt
      rcases Nat.eq_or_lt_of_le hle with rfl | hgt
      · exact hfirst
      · exact hlater id hgt hlt
    · intro hall
      exact ⟨hall k le_rfl (by omega), fun id hle hlt => hall id (by omega) hlt⟩

omit C [Arith] in
/-- The slots of every node are under a ceiling exactly when all of them together are. -/
theorem slots_le_iff (ceiling : Nat) :
    (∀ id, 0 ≤ id → id < 0 + h.n → h.runStart (id + 1) ≤ ceiling) ↔ h.links.length ≤ ceiling := by
  rw [W.links_len]
  constructor
  · intro hall
    rcases Nat.eq_zero_or_pos h.n with hn | hn
    · rw [hn]
      simp [runStart, W.base_zero]
    · have hlast := hall (h.n - 1) (Nat.zero_le _) (by omega)
      rwa [show h.n - 1 + 1 = h.n by omega] at hlast
  · intro hle id _ hlt
    exact (W.runStart_mono (show id + 1 ≤ h.n by omega) le_rfl).trans hle

omit C [Arith] in
theorem mirror_all : h.mirror h.n = ({
    vectors := h.vectors, layerBase := h.layerBase, linkCounts := h.linkCounts,
    links := h.mirrorLinks h.n, attrs := h.attrs, deleted := h.deleted } : NodeTables) := by
  unfold mirror
  rw [← W.vectors_len, ← W.base_len, ← W.counts_len, List.take_length, List.take_length,
    List.take_length]
  congr 1
  · exact List.take_of_length_le W.attrs_len.le
  · exact List.take_of_length_le W.deleted_len.le

omit C [Arith] in
theorem reads_checkEntry (hdr : GraphHeader) (hentry : hdr.entryPoint = h.entryPoint)
    (hmax : hdr.maxLayer = h.maxLayer) (bs : List UInt8) :
    Reads (checkEntry hdr (h.mirror h.n) : Decoder (List UInt8) Unit) [] bs () := by
  unfold checkEntry
  rw [mirror_all W, hentry, hmax]
  cases he : h.entryPoint with
  | none =>
    have hn : h.n = 0 := by
      by_contra hn
      obtain ⟨e, he', -⟩ := W.entry (by omega)
      rw [he] at he'
      cases he'
    exact reads_require _ _ (decide_eq_true (W.empty hn).2)
  | some e =>
    obtain ⟨e', he', hlt, htop⟩ := W.entry (by have := W.entry_lt e he; omega)
    rw [he] at he'
    cases he'
    have hstop : (index h.layerBase (e + 1) : Outcome HnswDecodeError Nat) =
        .ok (h.base (e + 1)) := Outcome.index_lt 0 (by rw [W.base_len]; omega)
    have hstart : (index h.layerBase e : Outcome HnswDecodeError Nat) = .ok (h.base e) :=
      Outcome.index_lt 0 (by rw [W.base_len]; omega)
    have hlevels : h.base (e + 1) - h.base e - 1 = h.maxLayer := by
      have hdef : h.levelsOf e = h.base (e + 1) - h.base e := rfl
      omega
    dsimp only
    rw [hstop, hstart]
    exact reads_require _ _ (decide_eq_true hlevels)

/-- The graph the decoder makes of `h`'s encoding. -/
def mirrored (h : Hnsw) : Hnsw := h.withLinks (h.mirrorLinks h.n) h.linkCounts

omit W in
theorem assemble_mirror (W : WellFormed h) :
    assemble h.headerOf (h.mirror h.n) = h.mirrored := by
  rw [mirror_all W]
  unfold mirrored withLinks assemble headerOf
  rw [C.mCap_eq, C.m0Cap_eq, C.ml_eq]

/-- The encoding of `h` decodes exactly when the decoder admits the configuration and the reserved
slots, and then to `h` with the unused slots cleared. -/
theorem readsIff_graph :
    ReadsIff (Hnsw.fromGraphBytes : Decoder (List UInt8) Hnsw)
      (h.writeHeader ++ (List.range h.n).flatMap h.nodeBytes) []
      (Admissible h ∧
        h.links.length ≤ maxSlots ((List.range h.n).flatMap h.nodeBytes).length) h.mirrored := by
  unfold Hnsw.fromGraphBytes
  refine (readsIff_header W C _).bind fun _ => ?_
  refine .bind_nil (reads_remaining _) ?_
  rw [List.append_nil, show h.headerOf.n = h.n from rfl]
  set nodes := (List.range h.n).flatMap h.nodeBytes with hdef
  have hnodes := readsIff_nodes W C (maxSlots nodes.length) h.n 0 (by omega) []
  rw [mirror_zero W, Nat.zero_add, ← List.range_eq_range', ← hdef] at hnodes
  have hclose : Reads (do
      require ((← remaining) = 0) (.invalid "trailing bytes")
      checkEntry h.headerOf (h.mirror h.n)
      return assemble h.headerOf (h.mirror h.n) : Decoder (List UInt8) Hnsw) [] [] h.mirrored := by
    refine (reads_remaining _).bind_nil ?_
    refine (reads_require _ _ rfl).bind_nil ?_
    refine (reads_checkEntry W h.headerOf rfl rfl _).bind_nil ?_
    rw [assemble_mirror C W]
    exact Reads.pure _ _
  have hall := hnodes.bind (f := fun tables => (do
      require ((← remaining) = 0) (.invalid "trailing bytes")
      checkEntry h.headerOf tables
      return assemble h.headerOf tables : Decoder (List UInt8) Hnsw)) fun _ => hclose.readsIff
  rw [List.append_nil] at hall
  refine hall.congr ?_
  rw [and_true, ← slots_le_iff W, Nat.zero_add]

omit W C [Arith] in
theorem writeHeader_length : h.writeHeader.length = 76 := by
  simp only [writeHeader, List.length_append, Bytes.leBytes_length, List.length_cons,
    List.length_nil]

/-- A decoded encoding is the graph it was made from, up to unused slots. -/
theorem relinked_mirrored : Relinked (fun _ _ => False) h h.mirrored := by
  have M := Mirrored.all W C le_rfl
  have hgraph : graphOf h.headerOf (h.mirror h.n) h.n = h.mirrored :=
    assemble_mirror C W
  have hnbrs : ∀ a l, h.mirrored.nbrs a l = h.nbrs a l := by
    intro a l
    by_cases ha : a < h.n
    · rw [← hgraph]
      exact M.nbrs_eq a ha l
    · rw [Layout.nbrs_of_not_owns, Layout.nbrs_of_not_owns]
      · exact fun ho => ha ho.1
      · exact fun ho => ha ho.1
  exact ⟨rfl, hgraph ▸ M.layout, fun a l _ => hnbrs a l⟩

/-- **The round trip.** A well-formed graph encodes; its encoding decodes exactly when the decoder
admits the configuration and the reserved slots, and then to the same graph up to unused slots. -/
theorem decode_encode : ∃ bytes, h.toBytes = .ok bytes ∧
    ((∃ g, Hnsw.fromBytes bytes = .ok g) ↔
      Admissible h ∧ h.links.length ≤ maxSlots (bytes.length - 76)) ∧
    ∀ g, Hnsw.fromBytes bytes = .ok g → g = h.mirrored := by
  have hiff := readsIff_graph W C
  set bytes := h.writeHeader ++ (List.range h.n).flatMap h.nodeBytes with hbytes
  have hlen : ((List.range h.n).flatMap h.nodeBytes).length = bytes.length - 76 := by
    rw [hbytes, List.length_append, writeHeader_length]
    omega
  rw [hlen] at hiff
  have hreads : Admissible h ∧ h.links.length ≤ maxSlots (bytes.length - 76) →
      Hnsw.fromBytes bytes = .ok h.mirrored := by
    intro hc
    have hread := hiff.reads hc
    unfold Reads at hread
    rw [List.append_nil] at hread
    unfold Hnsw.fromBytes
    rw [hread]
    rfl
  have hforces : ∀ g, Hnsw.fromBytes bytes = .ok g →
      Admissible h ∧ h.links.length ≤ maxSlots (bytes.length - 76) := by
    intro g hg
    unfold Hnsw.fromBytes at hg
    obtain ⟨p, hp, -⟩ := Outcome.bind_eq_ok.mp hg
    exact hiff.forces p (by rw [List.append_nil]; exact hp)
  refine ⟨bytes, W.toBytes_eq, ⟨?_, fun hc => ⟨_, hreads hc⟩⟩, fun g hg => ?_⟩
  · rintro ⟨g, hg⟩
    exact hforces g hg
  · have hread := hreads (hforces g hg)
    rw [hg] at hread
    cases hread
    rfl

end RoundTrip

end Hnsw

end Brindle
