/-
# Brindle.Storage.PageWalk — walking the pages is reading the slice.

The pages of a fork serve the bytes of their used parts, one after another, whatever their sizes:
a value that straddles pages is put together, an empty page is passed over. So a `PageBytes` with
`left` bytes to go answers every call as a slice fenced to `left` bytes does, and the decoders, which
only make such calls, cannot tell the two apart. A rewrite leaves the blob's chunks followed by empty
pages, and loading it is decoding the blob.
-/
import Brindle.Storage.Pages
import Brindle.Lib.Lockstep

namespace Brindle

open Bytes (leBytes ofLe chunks)
open Outcome (Alike Ensures ensures_ok ensures_pure ensures_foldlM fail index)
open Reader (Agrees)
open Run (Along)

variable {capacity : Nat}

/-! ## Serving the pages in order -/

namespace PageBytes

/-- The bytes not yet consumed are `bs`: the rest of the pinned page, then the pages after it. -/
structure Serves (src : PageBytes capacity) (bs : List UInt8) : Prop where
  nblocks_le : src.nblocks ≤ src.index.length
  pos_le : src.pos ≤ src.page.length
  pages : ∃ rest : List (List UInt8), bs = src.page.drop src.pos ++ rest.flatten ∧
    ((src.index.take src.nblocks).drop src.blkno).map Page.contents? = rest.map some

/-- The next page is there, or the bytes are used up. -/
theorem Serves.advance {src : PageBytes capacity} {bs : List UInt8} (h : src.Serves bs)
    (hpos : src.pos = src.page.length) :
    (src.nblocks ≤ src.blkno ∧ bs = []) ∨
      ∃ src', src.advance = .ok (true, src') ∧ src'.Serves bs ∧ src'.left = src.left ∧
        src'.nblocks - src'.blkno < src.nblocks - src.blkno := by
  obtain ⟨rest, hbs, hpages⟩ := h.pages
  rw [hpos, List.drop_length, List.nil_append] at hbs
  by_cases hend : src.nblocks ≤ src.blkno
  · left
    rw [List.drop_of_length_le (by rw [List.length_take]; omega)] at hpages
    have hrest : rest = [] := List.map_eq_nil_iff.mp hpages.symm
    rw [hbs, hrest]
    exact ⟨hend, rfl⟩
  · right
    have hlt : src.blkno < (src.index.take src.nblocks).length := by
      rw [List.length_take, Nat.min_eq_left h.nblocks_le]
      omega
    rw [List.drop_eq_getElem_cons hlt, List.map_cons] at hpages
    cases rest with
    | nil => cases hpages
    | cons contents rest =>
      rw [List.map_cons, List.cons.injEq] at hpages
      obtain ⟨hpage, hpages⟩ := hpages
      have hindex : src.index[src.blkno]? = some (src.index.take src.nblocks)[src.blkno] := by
        rw [List.getElem_take, List.getElem?_eq_getElem]
      refine ⟨{ src with page := contents, pos := 0, blkno := src.blkno + 1 }, ?_, ?_, rfl, ?_⟩
      · have hread : readPageContents src.index src.blkno = .ok contents := by
          unfold readPageContents
          rw [Outcome.index_ok hindex, Outcome.ok_bind, hpage]
          rfl
        unfold PageBytes.advance
        simp only [release, ge_iff_le, if_neg hend, hread, Outcome.ok_bind]
        rfl
      · exact ⟨h.nblocks_le, Nat.zero_le _, rest, by rw [hbs]; simp, hpages⟩
      · show src.nblocks - (src.blkno + 1) < _
        omega

/-- The loop fills what is asked for as long as the bytes last. -/
theorem Serves.fill {k : Nat} : ∀ {fuel : Nat} {out : List UInt8} {src : PageBytes capacity}
    {bs : List UInt8}, src.Serves bs → out.length ≤ k → k - out.length ≤ bs.length →
    k - out.length + (src.nblocks - src.blkno) < fuel →
    ∃ src', fill k fuel out src = .ok (.ok (out ++ bs.take (k - out.length)), src') ∧
      src'.Serves (bs.drop (k - out.length)) ∧ src'.left = src.left
  | 0, _, _, _, _, _, _, hfuel => absurd hfuel (Nat.not_lt_zero _)
  | fuel + 1, out, src, bs, h, hout, hk, hfuel => by
    unfold PageBytes.fill
    by_cases hfull : out.length < k
    · rw [if_pos hfull]
      by_cases hpos : src.pos = src.page.length
      · -- the pinned page is used up: the next one, which may be empty
        rw [if_pos hpos]
        rcases h.advance hpos with ⟨-, rfl⟩ | ⟨src', hadvance, h', hleft, hblocks⟩
        · simp only [List.length_nil] at hk
          omega
        · have hmeasure : k - out.length + (src'.nblocks - src'.blkno) < fuel := by omega
          obtain ⟨src'', hfill, h'', hleft'⟩ := h'.fill hout hk hmeasure
          refine ⟨src'', ?_, h'', hleft'.trans hleft⟩
          rw [hadvance, Outcome.ok_bind]
          exact hfill
      · rw [if_neg hpos]
        have hpos' := h.pos_le
        obtain ⟨rest, hbs, hpages⟩ := h.pages
        -- one pass takes `take` bytes of the pinned page
        generalize htake : min (k - out.length) (src.page.length - src.pos) = take
        have hrun : (src.page.drop src.pos).take take = bs.take take := by
          rw [hbs, List.take_append_of_le_length]
          rw [List.length_drop]
          omega
        have htaken : (bs.take take).length = take := by
          rw [List.length_take]
          omega
        have hserves : ({ src with pos := src.pos + take } : PageBytes capacity).Serves
            (bs.drop take) := by
          refine ⟨h.nblocks_le, ?_, rest, ?_, hpages⟩
          · show src.pos + take ≤ src.page.length
            omega
          · show bs.drop take = src.page.drop (src.pos + take) ++ rest.flatten
            rw [hbs, List.drop_append_of_le_length, List.drop_drop]
            rw [List.length_drop]
            omega
        have hlen : (out ++ bs.take take).length = out.length + take := by
          rw [List.length_append, htaken]
        have hmeasure : k - (out ++ bs.take take).length + (src.nblocks - src.blkno) < fuel := by
          rw [hlen]
          omega
        obtain ⟨src', hfill, h', hleft⟩ := hserves.fill (by rw [hlen]; omega)
          (by rw [hlen, List.length_drop]; omega) hmeasure
        have hsplit : k - out.length = take + (k - (out ++ bs.take take).length) := by
          rw [hlen]
          omega
        refine ⟨src', ?_, ?_, hleft⟩
        · show PageBytes.fill k fuel (out ++ (src.page.drop src.pos).take take) _ = _
          rw [hrun, hfill, hsplit, List.take_add, List.append_assoc]
        · rw [hsplit, ← List.drop_drop]
          exact h'
    · rw [if_neg hfull]
      have hdone : k - out.length = 0 := by omega
      refine ⟨src, ?_, ?_, rfl⟩
      · rw [hdone, List.take_zero, List.append_nil]
        rfl
      · rw [hdone]
        exact h

/-- `read_exact` within the budget hands out the next bytes. -/
theorem Serves.readExact {src : PageBytes capacity} {bs : List UInt8} {k : Nat} (h : src.Serves bs)
    (hleft : k ≤ src.left) (hk : k ≤ bs.length) :
    ∃ src', src.readExact k = .ok (.ok (bs.take k), src') ∧ src'.Serves (bs.drop k) ∧
      src'.left = src.left - k := by
  have hmeasure : k - ([] : List UInt8).length + (src.nblocks - src.blkno) < src.fuel k :=
    Nat.lt_succ_self _
  obtain ⟨src', hfill, h', hleft'⟩ := h.fill (Nat.zero_le k) hk hmeasure
  refine ⟨{ src' with left := src'.left - k }, ?_, ⟨h'.nblocks_le, h'.pos_le, h'.pages⟩, ?_⟩
  · unfold PageBytes.readExact
    rw [if_neg (Nat.not_lt.mpr hleft), hfill]
    rfl
  · rw [hleft']

theorem readExact_refused {src : PageBytes capacity} {k : Nat} (h : src.left < k) :
    src.readExact k = .ok (.error .truncated, src) :=
  if_pos h

/-- What may be handed out is `bs`, and `rest` comes after it. -/
def Fenced (rest : List UInt8) (src : PageBytes capacity) (bs : List UInt8) : Prop :=
  src.Serves (bs ++ rest) ∧ src.left = bs.length

/-- A page walk and the slice it is fenced to answer alike. -/
theorem bisimilar_fenced (rest : List UInt8) :
    Bisimilar (Fenced rest : PageBytes capacity → List UInt8 → Prop) where
  remaining _ _ h := h.2
  readExact k := by
    rintro src bs ⟨hserves, hleft⟩
    by_cases hk : k ≤ bs.length
    · have hlong : k ≤ (bs ++ rest).length := by
        rw [List.length_append]
        omega
      obtain ⟨src', hread, hserves', hleft'⟩ := hserves.readExact (hleft ▸ hk) hlong
      have hpages : (GraphBytes.readExact k src : Outcome HnswDecodeError _) =
          .ok ((bs ++ rest).take k, src') := by
        simp only [GraphBytes.readExact, hread]
      have hslice : (GraphBytes.readExact k bs : Outcome HnswDecodeError _) =
          .ok (bs.take k, bs.drop k) :=
        if_neg (Nat.not_lt.mpr hk)
      unfold Decoder.readExact
      rw [hpages, hslice]
      rw [List.drop_append_of_le_length hk] at hserves'
      refine .ok ⟨List.take_append_of_le_length hk, hserves', ?_⟩
      rw [hleft', hleft, List.length_drop]
    · have hlt : src.left < k := by omega
      have hpages : (GraphBytes.readExact k src : Outcome HnswDecodeError _) = fail .truncated := by
        simp only [GraphBytes.readExact, readExact_refused hlt]
      have hslice : (GraphBytes.readExact k bs : Outcome HnswDecodeError _) = fail .truncated :=
        if_pos (Nat.not_le.mp hk)
      unfold Decoder.readExact
      rw [hpages, hslice]
      exact .error _

/-- Fencing off the first `count` bytes. -/
theorem Fenced.limit {rest bs : List UInt8} {src : PageBytes capacity} (h : Fenced rest src bs)
    {count : Nat} (hcount : count ≤ bs.length) :
    Fenced (bs.drop count ++ rest) (src.limit count) (bs.take count) := by
  refine ⟨⟨h.1.nblocks_le, h.1.pos_le, ?_⟩, (List.length_take_of_le hcount).symm⟩
  rw [← List.append_assoc, List.take_append_drop]
  exact h.1.pages

/-- Past the fence. -/
theorem Fenced.unfence {rest : List UInt8} {src : PageBytes capacity} (h : Fenced rest src []) :
    Fenced [] (src.limit rest.length) rest := by
  refine ⟨⟨h.1.nblocks_le, h.1.pos_le, ?_⟩, rfl⟩
  rw [List.append_nil]
  exact h.1.pages

end PageBytes

/-! ## The pages of a fork -/

/-- The used parts of the pages of `fork` are `contents`. -/
def Holds (fork : Fork capacity) (contents : List (List UInt8)) : Prop :=
  fork.map Page.contents? = contents.map some

theorem Page.init_contents {contents : List UInt8} (h : contents.length ≤ capacity) :
    (Page.init contents h).contents? = some contents := by
  unfold Page.contents? Page.init
  have hin : ¬ (pageContentsOffset + contents.length < pageContentsOffset ∨
      pageContentsOffset + contents.length > pageContentsOffset + capacity) := by omega
  simp only [if_neg hin, Nat.add_sub_cancel_left, List.take_left']

theorem Holds.length {fork : Fork capacity} {contents : List (List UInt8)} (h : Holds fork contents) :
    fork.length = contents.length := by
  have hlen := congrArg List.length h
  rwa [List.length_map, List.length_map] at hlen

theorem Holds.read {fork : Fork capacity} {contents : List (List UInt8)} (h : Holds fork contents)
    {blkno : Nat} {page : List UInt8} (hpage : contents[blkno]? = some page) :
    readPageContents fork blkno = .ok page := by
  have hmap := congrArg (fun pages => pages[blkno]?) h
  simp only [List.getElem?_map, hpage, Option.map_some] at hmap
  cases hblock : fork[blkno]? with
  | none =>
    rw [hblock] at hmap
    cases hmap
  | some stored =>
    rw [hblock, Option.map_some, Option.some.injEq] at hmap
    unfold readPageContents
    rw [Outcome.index_ok hblock, Outcome.ok_bind, hmap]
    rfl

/-- A walk over the data pages serves their used parts. -/
theorem Holds.serves {fork : Fork capacity} {first : List UInt8} {contents : List (List UInt8)}
    (h : Holds fork (first :: contents)) (blobLen : Nat) :
    (PageBytes.new fork fork.length blobLen).Serves contents.flatten := by
  refine ⟨le_rfl, le_rfl, contents, rfl, ?_⟩
  have hdrop := congrArg (List.drop 1) h
  rw [← List.map_drop, List.map_cons, List.drop_one, List.drop_one, List.tail_cons] at hdrop
  show ((fork.take fork.length).drop 1).map Page.contents? = _
  rw [List.take_length, List.drop_one]
  exact hdrop

/-! ## Rewriting -/

/-- After `done` pages, the pages hold `done` and then what the fork held there. -/
def Rewriting (old : Fork capacity) (done : List (List UInt8)) (at_ : Fork capacity × Nat) : Prop :=
  at_.2 = done.length ∧
    at_.1.map Page.contents? = done.map some ++ (old.map Page.contents?).drop done.length

theorem Rewriting.page {old : Fork capacity} {done : List (List UInt8)} {at_ : Fork capacity × Nat}
    (h : Rewriting old done at_) {contents : List UInt8} (hfit : contents.length ≤ capacity) :
    Ensures (rewritePage old.length at_ contents) (Rewriting old (done ++ [contents])) := by
  obtain ⟨fork, blkno⟩ := at_
  obtain ⟨rfl, hpages⟩ := h
  have hlength := congrArg List.length hpages
  simp only [List.length_map, List.length_append, List.length_drop] at hlength
  unfold rewritePage writePage
  simp only [dif_pos hfit]
  by_cases hblk : done.length < old.length
  · -- a page that is there is written over
    have hroom : done.length + [Page.init contents hfit].length ≤ fork.length := by
      simp only [List.length_cons, List.length_nil]
      omega
    simp only [if_pos hblk, Outcome.overwrite, if_pos hroom, Outcome.ok_bind]
    refine ensures_pure.mpr ⟨by simp, ?_⟩
    have hlen : done.length = (done.map some).length := (List.length_map _).symm
    rw [List.map_append, List.map_append, List.map_take, List.map_drop, hpages,
      List.take_append_of_le_length hlen.le, List.take_of_length_le hlen.ge, List.map_cons,
      Page.init_contents, List.map_nil, List.map_append, List.map_cons, List.map_nil,
      List.length_append]
    simp [List.drop_append, List.drop_drop]
  · -- past the end of the fork a page is appended
    simp only [if_neg hblk, Outcome.ok_bind]
    refine ensures_pure.mpr ⟨by simp, ?_⟩
    rw [List.map_append, hpages, List.drop_of_length_le (by rw [List.length_map]; omega),
      List.drop_of_length_le (by rw [List.length_map, List.length_append]; omega), List.map_cons,
      Page.init_contents]
    simp

theorem rewriting_pages {old : Fork capacity} (pages done : List (List UInt8))
    {at_ : Fork capacity × Nat} (h : Rewriting old done at_)
    (hfit : ∀ page ∈ pages, page.length ≤ capacity) :
    Ensures (pages.foldlM (rewritePage old.length) at_) (Rewriting old (done ++ pages)) := by
  refine ensures_foldlM (fun sofar => Rewriting old (done ++ sofar)) pages ?_
    (by rwa [List.append_nil])
  intro sofar page todo b hpages hb
  rw [← List.append_assoc]
  exact hb.page (hfit page (by simp [hpages]))

theorem encodeMeta_length (blobLen : Nat) (generation : UInt64) :
    (encodeMeta blobLen generation).length = metaSize := by
  simp [encodeMeta, metaSize]

/-- A fork whose metapage was written for a blob its pages can hold. -/
theorem Holds.readMeta_eq {fork : Fork capacity} {pages : List (List UInt8)} {blobLen : Nat}
    {generation : UInt64} (h : Holds fork (encodeMeta blobLen generation :: pages))
    (hlen : blobLen < 2 ^ 64) (hroom : blobLen ≤ pages.length * capacity) :
    readMeta fork = .ok (fork.length, blobLen, generation) := by
  have hcount := h.length
  rw [List.length_cons] at hcount
  have hread : readPageContents fork 0 = .ok (encodeMeta blobLen generation) := h.read rfl
  have hsize := encodeMeta_length blobLen generation
  have hmagic : ofLe ((encodeMeta blobLen generation).take 4) = metaMagic := by
    simp only [encodeMeta, List.append_assoc]
    rw [List.take_left' (Bytes.leBytes_length 4 _)]
    decide
  have hversion : ofLe (((encodeMeta blobLen generation).drop 4).take 4) = storageVersion := by
    simp only [encodeMeta, List.append_assoc]
    rw [List.drop_left' (Bytes.leBytes_length 4 _), List.take_left' (Bytes.leBytes_length 4 _)]
    decide
  have hblob : ofLe (((encodeMeta blobLen generation).drop 8).take 8) = blobLen := by
    have hdrop : (encodeMeta blobLen generation).drop 8 =
        leBytes 8 blobLen ++ leBytes 8 generation.toNat := by
      simp only [encodeMeta, List.append_assoc]
      rw [← List.append_assoc, List.drop_left' (by simp)]
    rw [hdrop, List.take_left' (Bytes.leBytes_length 8 _), Bytes.ofLe_leBytes_of_lt hlen]
  have hgeneration : ofLe (((encodeMeta blobLen generation).drop 16).take 8) =
      generation.toNat := by
    have hdrop : (encodeMeta blobLen generation).drop 16 = leBytes 8 generation.toNat := by
      simp only [encodeMeta]
      rw [List.drop_left' (by simp)]
    rw [hdrop, List.take_of_length_le (Bytes.leBytes_length 8 _).le,
      Bytes.ofLe_leBytes_of_lt generation.toNat_lt]
  unfold readMeta
  simp only [hread, hcount, hsize, hmagic, hversion, hblob, hgeneration, Outcome.ok_bind]
  rw [if_neg (Nat.succ_ne_zero _), if_neg (by decide), if_neg (by simp), if_neg (by simp),
    if_neg (by decide), Nat.add_sub_cancel, if_neg (Nat.not_lt.mpr hroom), UInt64.ofNat_toNat]
  rfl

/-- **A rewrite** leaves the metapage, the blob's chunks and empty pages. -/
theorem rewriteIndexBlob_spec (hcap : metaSize ≤ capacity) {fork : Fork capacity}
    {nblocks blobLen : Nat} {generation : UInt64}
    (hmeta : readMeta fork = .ok (nblocks, blobLen, generation)) (blob : List UInt8) :
    Ensures (rewriteIndexBlob fork blob) fun fork' =>
      ∃ spare, Holds fork' (encodeMeta blob.length (generation + 1) ::
        (chunks capacity blob ++ List.replicate spare [])) := by
  unfold rewriteIndexBlob
  rw [hmeta, Outcome.ok_bind]
  have hstart : Rewriting fork [] (fork, 0) := ⟨rfl, rfl⟩
  refine (rewriting_pages (encodeMeta blob.length (generation + 1) :: chunks capacity blob) []
    hstart ?_).bind ?_
  · intro page hpage
    rcases List.mem_cons.mp hpage with rfl | hpage
    · rwa [encodeMeta_length]
    · exact Bytes.length_le_of_mem_chunks hpage
  · rintro ⟨fork₁, blkno⟩ h₁
    refine (rewriting_pages (List.replicate (fork.length - blkno) []) _ h₁ ?_).bind ?_
    · intro page hpage
      rw [List.eq_of_mem_replicate hpage]
      exact Nat.zero_le _
    · rintro ⟨fork₂, blkno₂⟩ ⟨-, h₂⟩
      have hblkno := h₁.1
      refine ensures_pure.mpr ⟨fork.length - blkno, ?_⟩
      rw [List.drop_of_length_le, List.append_nil] at h₂
      · exact h₂
      · rw [List.length_map, List.length_append, List.length_replicate, ← hblkno]
        omega

/-- **A build** leaves the metapage, under the first generation, and the blob's chunks. -/
theorem writeIndexBlob_spec (hcap : metaSize ≤ capacity) (blob : List UInt8) :
    Ensures (writeIndexBlob ([] : Fork capacity) blob) fun fork =>
      Holds fork (encodeMeta blob.length firstGeneration :: chunks capacity blob) := by
  have happend : ∀ {fork : Fork capacity} {done : List (List UInt8)} {contents : List UInt8},
      Holds fork done → contents.length ≤ capacity →
      Ensures (writePage fork none contents) fun fork' => Holds fork' (done ++ [contents]) := by
    intro fork done contents h hfit
    unfold writePage
    rw [dif_pos hfit]
    refine ensures_ok.mpr ?_
    unfold Holds at h ⊢
    rw [List.map_append, List.map_append, h, List.map_cons, Page.init_contents]
    rfl
  unfold writeIndexBlob
  have hnone : Holds ([] : Fork capacity) [] := rfl
  refine (happend hnone ?_).bind fun fork h => ?_
  · rwa [encodeMeta_length]
  · refine ensures_foldlM (fun sofar fork =>
      Holds fork (encodeMeta blob.length firstGeneration :: sofar)) (chunks capacity blob) ?_ h
    intro sofar chunk todo fork hchunks hfork
    have hmem : chunk ∈ chunks capacity blob := by simp [hchunks]
    exact happend hfork (Bytes.length_le_of_mem_chunks hmem)

theorem spare_flatten (hcap : 0 < capacity) (blob : List UInt8) (spare : Nat) :
    (chunks capacity blob ++ List.replicate spare []).flatten = blob := by
  rw [List.flatten_append, Bytes.chunks_flatten hcap]
  simp

/-- A fork that holds a blob's chunks, and nothing else, has a metapage that declares it. -/
theorem Holds.readMeta_spare (hcap : 0 < capacity) {fork : Fork capacity} {blob : List UInt8}
    {generation : UInt64} {spare : Nat}
    (h : Holds fork (encodeMeta blob.length generation ::
      (chunks capacity blob ++ List.replicate spare []))) (hlen : blob.length < 2 ^ 64) :
    readMeta fork = .ok (fork.length, blob.length, generation) := by
  refine h.readMeta_eq hlen ?_
  have hfit : ∀ run ∈ chunks capacity blob ++ List.replicate spare [], run.length ≤ capacity := by
    intro run hrun
    rcases List.mem_append.mp hrun with hrun | hrun
    · exact Bytes.length_le_of_mem_chunks hrun
    · rw [List.eq_of_mem_replicate hrun]
      exact Nat.zero_le _
  have hbound := Bytes.length_flatten_le _ hfit
  rwa [spare_flatten hcap] at hbound

/-! ## Loading -/

/-- A graph is decoded to the end of its source. -/
theorem fromGraphBytes_rest [Arith] {bytes rest : List UInt8} {h : Hnsw}
    (hdecode : Hnsw.fromGraphBytes (S := List UInt8) bytes = .ok (h, rest)) : rest = [] := by
  have hrequire : ∀ (ok : Bool) (e : HnswDecodeError) (s : List UInt8) (p : Unit × List UInt8),
      Decoder.require ok e s = .ok p → ok = true ∧ p.2 = s := by
    intro ok e s p hp
    cases ok with
    | true =>
      cases hp
      exact ⟨rfl, rfl⟩
    | false => cases hp
  have hchecked : ∀ {α : Type} (x : Outcome HnswDecodeError α) (s : List UInt8)
      (p : α × List UInt8), Decoder.checked x s = .ok p → p.2 = s := by
    intro α x s p hp
    obtain ⟨a, -, hp⟩ := Outcome.bind_eq_ok.mp hp
    cases hp
    rfl
  have hentry : ∀ hdr tables (s : List UInt8) (p : Unit × List UInt8),
      checkEntry hdr tables s = .ok p → p.2 = s := by
    intro hdr tables s p hp
    unfold checkEntry at hp
    cases he : hdr.entryPoint with
    | none =>
      rw [he] at hp
      exact (hrequire _ _ s p hp).2
    | some e =>
      rw [he] at hp
      simp only [Reader.bind_apply, Outcome.bind_eq_ok] at hp
      obtain ⟨stop, hstop, start, hstart, hp⟩ := hp
      rw [(hrequire _ _ _ p hp).2, hchecked _ _ _ hstart, hchecked _ _ _ hstop]
  unfold Hnsw.fromGraphBytes at hdecode
  simp only [Reader.bind_apply, Outcome.bind_eq_ok] at hdecode
  obtain ⟨hdr, -, left, -, tables, -, last, hlast, u, hend, u', hcheck, hdone⟩ := hdecode
  cases hlast
  cases hdone
  obtain ⟨hempty, hu⟩ := hrequire _ _ _ _ hend
  rw [hentry _ _ _ _ hcheck, hu]
  exact List.length_eq_zero_iff.mp (of_decide_eq_true hempty)

/-- The declared length is one the source can supply. -/
theorem readGraphLen_le {blob rest : List UInt8} {graphLen : Nat}
    (hread : readGraphLen blob = .ok (graphLen, rest)) : graphLen ≤ rest.length := by
  unfold readGraphLen at hread
  simp only [Reader.bind_apply, Outcome.bind_eq_ok] at hread
  obtain ⟨len, -, ⟨left, s⟩, hleft, ⟨u, s'⟩, hfits, hdone⟩ := hread
  cases hleft
  cases hdone
  unfold PayloadReader.require at hfits
  split_ifs at hfits with hle
  · cases hfits
    exact of_decide_eq_true hle
  · cases hfits

/-- The parts of a blob, one after another. -/
theorem decodeIndexPayload_ok {blob graph : List UInt8} {tids : List TidPair}
    {unrankable : List UnrankableRow} :
    decodeIndexPayload blob = .ok (graph, tids, unrankable) ↔
      ∃ graphLen s₁ s₂, readGraphLen blob = .ok (graphLen, s₁) ∧ graphLen ≤ s₁.length ∧
        graph = s₁.take graphLen ∧ readTidTable (s₁.drop graphLen) = .ok (tids, s₂) ∧
        readUnrankable s₂ = .ok (unrankable, []) := by
  unfold decodeIndexPayload
  simp only [Outcome.bind_eq_ok, Outcome.slice, Nat.zero_add, List.drop_zero]
  constructor
  · rintro ⟨⟨graphLen, s₁⟩, hlen, graph', hslice, ⟨tids', s₂⟩, htids, ⟨unrankable', s₃⟩, hrows, hend⟩
    split_ifs at hslice with hfit
    · cases hslice
      split_ifs at hend with hrest
      · cases hend
      · cases hend
        rw [not_not, List.length_eq_zero_iff] at hrest
        subst hrest
        exact ⟨graphLen, s₁, s₂, hlen, hfit, rfl, htids, hrows⟩
    · cases hslice
  · rintro ⟨graphLen, s₁, s₂, hlen, hfit, rfl, htids, hrows⟩
    refine ⟨(graphLen, s₁), hlen, _, if_pos hfit, (tids, s₂), htids, (unrankable, []), hrows, ?_⟩
    rfl

theorem loadSlice_ok [Arith] {arity : Nat} {generation : UInt64} {blob : List UInt8}
    {image : Image} :
    loadSlice arity generation blob = .ok image ↔
      ∃ graph hnsw tids unrankable, decodeIndexPayload blob = .ok (graph, tids, unrankable) ∧
        Hnsw.fromGraphBytes (S := List UInt8) graph = .ok (hnsw, []) ∧
        Image.load arity ⟨hnsw, tids, unrankable, generation⟩ = .ok image := by
  unfold loadSlice Hnsw.fromBytes
  simp only [Outcome.bind_eq_ok, Outcome.mapError_eq_ok]
  constructor
  · rintro ⟨⟨graph, tids, unrankable⟩, hpayload, _, ⟨⟨hnsw, rest⟩, hgraph, hdone⟩, himage⟩
    cases hdone
    cases fromGraphBytes_rest hgraph
    exact ⟨graph, hnsw, tids, unrankable, hpayload, hgraph, himage⟩
  · rintro ⟨graph, hnsw, tids, unrankable, hpayload, hgraph, himage⟩
    exact ⟨(graph, tids, unrankable), hpayload, hnsw, ⟨(hnsw, []), hgraph, rfl⟩, himage⟩

theorem loadIndexWithGeneration_ok [Arith] {arity : Nat} {fork : Fork capacity} {image : Image}
    {nblocks blobLen : Nat} {generation : UInt64}
    (hmeta : readMeta fork = .ok (nblocks, blobLen, generation)) :
    loadIndexWithGeneration arity fork = .ok image ↔
      ∃ graphLen hnsw tids unrankable, ∃ s₁ s₂ s₃ s₄ : PageBytes capacity,
        readGraphLen (PageBytes.new fork nblocks blobLen) = .ok (graphLen, s₁) ∧
        Hnsw.fromGraphBytes (s₁.limit graphLen) = .ok (hnsw, s₂) ∧ s₂.left = 0 ∧
        readTidTable (s₂.limit (s₁.left - graphLen)) = .ok (tids, s₃) ∧
        readUnrankable s₃ = .ok (unrankable, s₄) ∧ s₄.left = 0 ∧
        Image.load arity ⟨hnsw, tids, unrankable, generation⟩ = .ok image := by
  unfold loadIndexWithGeneration
  rw [hmeta]
  simp only [Outcome.ok_bind, Outcome.bind_eq_ok, Outcome.mapError_eq_ok]
  constructor
  · rintro ⟨⟨graphLen, s₁⟩, hlen, ⟨hnsw, s₂⟩, hgraph, hrest⟩
    split_ifs at hrest with hshort
    · cases hrest
    · simp only [Outcome.bind_eq_ok, Outcome.mapError_eq_ok] at hrest
      obtain ⟨⟨tids, s₃⟩, htids, ⟨unrankable, s₄⟩, hrows, hend⟩ := hrest
      split_ifs at hend with htrailing
      · cases hend
      · exact ⟨graphLen, hnsw, tids, unrankable, s₁, s₂, s₃, s₄, hlen, hgraph, not_not.mp hshort,
          htids, hrows, not_not.mp htrailing, Outcome.mapError_eq_ok.mp hend⟩
  · rintro ⟨graphLen, hnsw, tids, unrankable, s₁, s₂, s₃, s₄, hlen, hgraph, hshort, htids, hrows,
      htrailing, himage⟩
    have hshort' : ¬ GraphBytes.remaining s₂ ≠ 0 := not_not.mpr hshort
    have htrailing' : ¬ GraphBytes.remaining s₄ ≠ 0 := not_not.mpr htrailing
    refine ⟨(graphLen, s₁), hlen, (hnsw, s₂), hgraph, ?_⟩
    dsimp only
    rw [if_neg hshort']
    simp only [Outcome.bind_eq_ok, Outcome.mapError_eq_ok]
    refine ⟨(tids, s₃), htids, (unrankable, s₄), hrows, ?_⟩
    dsimp only
    rw [if_neg htrailing']
    exact Outcome.mapError_eq_ok.mpr himage

/-- The image loaded carries the generation of the metapage. -/
theorem loadIndexWithGeneration_generation [Arith] {arity : Nat} {fork : Fork capacity}
    {image : Image} {nblocks blobLen : Nat} {generation : UInt64}
    (hmeta : readMeta fork = .ok (nblocks, blobLen, generation))
    (hload : loadIndexWithGeneration arity fork = .ok image) : image.generation = generation := by
  obtain ⟨graphLen, hnsw, tids, unrankable, s₁, s₂, s₃, s₄, -, -, -, -, -, -, himage⟩ :=
    (loadIndexWithGeneration_ok hmeta).mp hload
  unfold Image.load at himage
  split at himage
  · cases himage
  · split_ifs at himage with hcount
    · cases himage
    · cases himage
      rfl

/-- Loading a fork that holds a blob's chunks is decoding the blob. -/
theorem load_iff_slice [Arith] (hcap : 0 < capacity) {fork : Fork capacity} {blob : List UInt8}
    {generation : UInt64} {spare : Nat}
    (h : Holds fork (encodeMeta blob.length generation ::
      (chunks capacity blob ++ List.replicate spare []))) (hlen : blob.length < 2 ^ 64)
    (arity : Nat) (image : Image) :
    loadIndexWithGeneration arity fork = .ok image ↔ loadSlice arity generation blob = .ok image := by
  have hserves := h.serves blob.length
  rw [spare_flatten hcap] at hserves
  have hfenced : PageBytes.Fenced [] (PageBytes.new fork fork.length blob.length) blob :=
    ⟨by rwa [List.append_nil], rfl⟩
  rw [loadIndexWithGeneration_ok (h.readMeta_spare hcap hlen), loadSlice_ok]
  simp only [decodeIndexPayload_ok]
  have hwalk : ∀ rest, Bisimilar (PageBytes.Fenced rest : PageBytes capacity → List UInt8 → Prop) :=
    PageBytes.bisimilar_fenced
  -- past the graph, the walk is fenced to what follows it
  have htables : ∀ {graphLen : Nat} {s₁ s₂ : PageBytes capacity} {t₁ : List UInt8},
      PageBytes.Fenced [] s₁ t₁ → PageBytes.Fenced (t₁.drop graphLen) s₂ [] →
      PageBytes.Fenced [] (s₂.limit (s₁.left - graphLen)) (t₁.drop graphLen) := by
    intro graphLen s₁ s₂ t₁ h₁ h₂
    have hunfenced := h₂.unfence
    rwa [List.length_drop, ← h₁.2] at hunfenced
  constructor
  · rintro ⟨graphLen, hnsw, tids, unrankable, s₁, s₂, s₃, s₄, hread, hgraph, -, htids, hrows,
      htrailing, himage⟩
    obtain ⟨⟨_, t₁⟩, hread', rfl, h₁⟩ := ((hwalk []).agrees_graphLen _ _ hfenced).of_left hread
    have hfit := readGraphLen_le hread'
    have hgraphFence := h₁.limit hfit
    rw [List.append_nil] at hgraphFence
    obtain ⟨⟨_, t₂⟩, hgraph', rfl, h₂⟩ :=
      ((hwalk _).agrees_fromGraphBytes _ _ hgraphFence).of_left hgraph
    cases fromGraphBytes_rest hgraph'
    obtain ⟨⟨_, t₃⟩, htids', rfl, h₃⟩ :=
      ((hwalk []).agrees_tidTable _ _ (htables h₁ h₂)).of_left htids
    obtain ⟨⟨_, t₄⟩, hrows', rfl, h₄⟩ := ((hwalk []).agrees_unrankable _ _ h₃).of_left hrows
    have hdone : t₄ = [] := List.length_eq_zero_iff.mp (h₄.2 ▸ htrailing)
    subst hdone
    exact ⟨_, hnsw, tids, unrankable, ⟨graphLen, t₁, t₃, hread', hfit, rfl, htids', hrows'⟩, hgraph',
      himage⟩
  · rintro ⟨_, hnsw, tids, unrankable, ⟨graphLen, t₁, t₃, hread, hfit, rfl, htids, hrows⟩, hgraph,
      himage⟩
    obtain ⟨⟨_, s₁⟩, hread', rfl, h₁⟩ := ((hwalk []).agrees_graphLen _ _ hfenced).of_right hread
    have hgraphFence := h₁.limit hfit
    rw [List.append_nil] at hgraphFence
    obtain ⟨⟨_, s₂⟩, hgraph', rfl, h₂⟩ :=
      ((hwalk _).agrees_fromGraphBytes _ _ hgraphFence).of_right hgraph
    obtain ⟨⟨_, s₃⟩, htids', rfl, h₃⟩ :=
      ((hwalk []).agrees_tidTable _ _ (htables h₁ h₂)).of_right htids
    obtain ⟨⟨_, s₄⟩, hrows', rfl, h₄⟩ := ((hwalk []).agrees_unrankable _ _ h₃).of_right hrows
    exact ⟨_, _, _, _, s₁, s₂, s₃, s₄, hread', hgraph', h₂.2, htids', hrows', h₄.2, himage⟩

/-! ## Any calls -/

/-- A call on a byte source. -/
inductive SourceCall where
  | readExact (k : Nat)
  | limit (bytes : Nat)
  deriving DecidableEq, Repr

/-- What a call hands back, if anything, and what `remaining` says after it. -/
abbrev SourceReply := Option (Except HnswDecodeError (List UInt8)) × Nat

def PageBytes.call (src : PageBytes capacity) :
    SourceCall → Outcome PageError (PageBytes capacity × SourceReply)
  | .readExact k => do
    let (out, src) ← src.readExact k
    return (src, some out, GraphBytes.remaining src)
  | .limit bytes => return (src.limit bytes, none, GraphBytes.remaining (src.limit bytes))

/-- A slice of which only the first `left` bytes may be read. -/
structure FencedSlice where
  unread : List UInt8
  left : Nat

namespace FencedSlice

def remaining (s : FencedSlice) : Nat := (s.unread.take s.left).length

def call (s : FencedSlice) : SourceCall → Outcome PageError (FencedSlice × SourceReply)
  | .readExact k =>
    if k > s.remaining then return (s, some (.error .truncated), s.remaining)
    else
      let t : FencedSlice := ⟨s.unread.drop k, s.left - k⟩
      return (t, some (.ok (s.unread.take k)), t.remaining)
  | .limit bytes =>
    let t : FencedSlice := ⟨s.unread, bytes⟩
    return (t, none, t.remaining)

/-- A limit asks for no more than the bytes still unread. -/
def Within (s : FencedSlice) : SourceCall → Prop
  | .readExact _ => True
  | .limit bytes => bytes ≤ s.unread.length

instance (s : FencedSlice) : ∀ call, Decidable (s.Within call)
  | .readExact _ => inferInstanceAs (Decidable True)
  | .limit bytes => inferInstanceAs (Decidable (bytes ≤ s.unread.length))

/-- The pages serve what is unread, under the same budget. -/
def Mirrors (s : FencedSlice) (src : PageBytes capacity) : Prop :=
  src.Serves s.unread ∧ src.left = s.left ∧ s.left ≤ s.unread.length

theorem call_matches (s : FencedSlice) (src : PageBytes capacity) (c : SourceCall)
    (h : s.Mirrors src) (hc : s.Within c) : Lockstep.Matches Mirrors (s.call c) (src.call c) := by
  obtain ⟨hserves, hleft, hunread⟩ := h
  have hremaining : s.remaining = s.left := List.length_take_of_le hunread
  cases c with
  | readExact k =>
    unfold FencedSlice.call PageBytes.call
    dsimp only
    by_cases hk : k ≤ s.left
    · obtain ⟨src', hread, hserves', hleft'⟩ := hserves.readExact (hleft ▸ hk) (hk.trans hunread)
      rw [hremaining, if_neg (Nat.not_lt.mpr hk), hread]
      have hrest : s.left - k ≤ (s.unread.drop k).length := by
        rw [List.length_drop]
        omega
      refine ⟨⟨hserves', hleft' ▸ hleft ▸ rfl, hrest⟩, Prod.ext rfl ?_⟩
      show ((s.unread.drop k).take (s.left - k)).length = src'.left
      rw [List.length_take_of_le hrest, hleft', hleft]
    · rw [hremaining, if_pos (Nat.not_le.mp hk), PageBytes.readExact_refused (by omega)]
      exact ⟨⟨hserves, hleft, hunread⟩, Prod.ext rfl hleft.symm⟩
  | limit bytes =>
    have hbytes : bytes ≤ s.unread.length := hc
    refine ⟨⟨⟨hserves.nblocks_le, hserves.pos_le, hserves.pages⟩, rfl, hbytes⟩, Prod.ext rfl ?_⟩
    exact List.length_take_of_le hbytes

end FencedSlice

/-- **The page walk is the slice.** Rewriting a fork with a blob and loading it gives what decoding
the blob gives, or both refuse. And over any pages that hold a blob, empty ones among them, any calls
whose limits stay within what is unread are answered as a slice fenced the same way answers them. -/
theorem page_walk_eq_slice [Arith] (hcap : metaSize ≤ capacity) :
    (∀ (fork : Fork capacity) (nblocks blobLen : Nat) (generation : UInt64),
      readMeta fork = .ok (nblocks, blobLen, generation) →
      ∀ blob : List UInt8, blob.length < 2 ^ 64 → ∀ arity,
      Ensures (rewriteIndexBlob fork blob) fun fork' => ∀ image,
        loadIndexWithGeneration arity fork' = .ok image ↔
          loadSlice arity (generation + 1) blob = .ok image) ∧
    ∀ (fork : Fork capacity) (first : List UInt8) (contents : List (List UInt8)),
      Holds fork (first :: contents) → ∀ calls : List SourceCall,
      Along (Lockstep.next FencedSlice.call) FencedSlice.Within
        ⟨contents.flatten, contents.flatten.length⟩ calls →
      Lockstep.outputs PageBytes.call
          (PageBytes.new fork fork.length contents.flatten.length) calls =
        Lockstep.outputs FencedSlice.call ⟨contents.flatten, contents.flatten.length⟩ calls := by
  constructor
  · intro fork nblocks blobLen generation hmeta blob hlen arity
    refine (rewriteIndexBlob_spec hcap hmeta blob).mono ?_
    rintro fork' ⟨spare, h⟩ image
    exact load_iff_slice (lt_of_lt_of_le (by decide) hcap) h hlen arity image
  · intro fork first contents h calls hwithin
    have hmirrors : FencedSlice.Mirrors ⟨contents.flatten, contents.flatten.length⟩
        (PageBytes.new fork fork.length contents.flatten.length) :=
      ⟨h.serves _, rfl, le_rfl⟩
    exact (Lockstep.outputs_eq FencedSlice.call_matches hmirrors hwithin).symm

/-- A fork whose metapage declares an empty blob, with a spare page. -/
def sampleFork : Fork 24 :=
  [Page.init (encodeMeta 0 firstGeneration) (by decide), Page.init [] (by decide)]

/-- Three bytes on pages of one, none and two. -/
def scatteredFork : Fork 24 :=
  [Page.init [] (by decide), Page.init [1] (by decide), Page.init [] (by decide),
    Page.init [2, 3] (by decide)]

theorem page_walk_eq_slice_sample :
    (Ensures (rewriteIndexBlob sampleFork (List.replicate 30 0)) fun fork' => ∀ image,
      @loadIndexWithGeneration 24 Arith.ieee 0 fork' = .ok image ↔
        @loadSlice Arith.ieee 0 2 (List.replicate 30 0) = .ok image) ∧
    Lockstep.outputs PageBytes.call (PageBytes.new scatteredFork 4 3)
        [.limit 2, .readExact 2, .readExact 1, .limit 1, .readExact 1] =
      Lockstep.outputs FencedSlice.call ⟨[1, 2, 3], 3⟩
        [.limit 2, .readExact 2, .readExact 1, .limit 1, .readExact 1] :=
  ⟨(@page_walk_eq_slice 24 Arith.ieee (by decide)).1 sampleFork 2 0 firstGeneration
      (by decide +kernel) (List.replicate 30 0) (by decide) 0,
    (@page_walk_eq_slice 24 Arith.ieee (by decide)).2 scatteredFork [] [[1], [], [2, 3]] rfl
      [.limit 2, .readExact 2, .readExact 1, .limit 1, .readExact 1] (by decide)⟩

end Brindle
