/-
# Brindle.Storage.Pages — the blob on the pages of the main fork.

Block 0 is a metapage: magic, version, blob length, generation. The blocks after it carry the blob cut
into chunks, one a page; `pd_lower` marks how much of a page's content area is used. A rewrite reuses
the pages that are there and re-initializes the ones the new blob leaves over. The loader walks the
pages through `PageBytes`, which pins one page at a time.
-/
import Brindle.Storage.Payload

namespace Brindle

open Bytes (leBytes ofLe chunks)
open Outcome (fail index)

/-- What the page layer raises. -/
inductive PageError where
  /-- `brindle: page chunk of {bytes} bytes exceeds page capacity`. -/
  | chunkTooBig (bytes : Nat)
  /-- `brindle: refusing to overwrite a non-empty index fork`. -/
  | nonEmptyFork
  /-- `brindle: corrupted index page {blkno} (pd_lower {pdLower})`. -/
  | corruptPage (blkno pdLower : Nat)
  /-- `brindle: index has no pages (never built?)`. -/
  | noPages
  /-- `brindle: metapage too short ({bytes} bytes)`. -/
  | metaTooShort (bytes : Nat)
  /-- `brindle: bad metapage magic {magic:#x}`. -/
  | badMagic (magic : Nat)
  /-- `brindle: index was written in storage format {version}, this build reads 3; REINDEX to rebuild
  it`. -/
  | otherFormat (version : Nat)
  /-- `brindle: metapage declares {blobLen} blob bytes but the index has {nblocks} pages`. -/
  | overlong (blobLen nblocks : Nat)
  /-- `brindle: {e}` for an error of the framing. -/
  | payload (e : PayloadError)
  /-- `brindle: {e}` for an error of the graph decoder. -/
  | decode (e : HnswDecodeError)
  /-- `brindle: graph is shorter than its declared length`. -/
  | shortGraph
  /-- What the checks on the decoded tables raise. -/
  | storage (e : StorageError)
  deriving DecidableEq, Repr

/-! ## Pages -/

/-- Where the content area of a page begins. -/
def pageContentsOffset : Nat := 24

/-- One page. Pages are at most 32 KiB, so the 16 bits of `pd_lower` hold every offset in one. -/
structure Page (capacity : Nat) where
  pdLower : Nat
  /-- The content area. -/
  area : List UInt8
  area_len : area.length = capacity

/-- The pages of a fork, in block order. -/
abbrev Fork (capacity : Nat) := List (Page capacity)

variable {capacity : Nat}

/-- The used part of a page, `none` where `pd_lower` lies outside the page. -/
def Page.contents? (page : Page capacity) : Option (List UInt8) :=
  if page.pdLower < pageContentsOffset ∨ page.pdLower > pageContentsOffset + capacity then none
  else some (page.area.take (page.pdLower - pageContentsOffset))

/-- A freshly initialized page that carries `contents`. -/
def Page.init (contents : List UInt8) (h : contents.length ≤ capacity) : Page capacity where
  pdLower := pageContentsOffset + contents.length
  area := contents ++ List.replicate (capacity - contents.length) 0
  area_len := by
    rw [List.length_append, List.length_replicate]
    omega

/-- Write `contents` as a fresh page at `blkno`, or as a new page at the end when there is none. -/
def writePage (fork : Fork capacity) (blkno : Option Nat) (contents : List UInt8) :
    Outcome PageError (Fork capacity) :=
  if h : contents.length ≤ capacity then
    match blkno with
    | none => .ok (fork ++ [.init contents h])
    | some blkno => Outcome.overwrite fork blkno [.init contents h]
  else fail (.chunkTooBig contents.length)

/-- The content area of `blkno`, up to `pd_lower`. -/
def readPageContents (fork : Fork capacity) (blkno : Nat) : Outcome PageError (List UInt8) := do
  let page ← index fork blkno
  match page.contents? with
  | some contents => return contents
  | none => fail (.corruptPage blkno page.pdLower)

/-! ## The metapage -/

def metaMagic : Nat := 0x42524E44
def storageVersion : Nat := 3
def metaSize : Nat := 24

def encodeMeta (blobLen : Nat) (generation : UInt64) : List UInt8 :=
  leBytes 4 metaMagic ++ leBytes 4 storageVersion ++ leBytes 8 blobLen
    ++ leBytes 8 generation.toNat

/-- Validate the metapage: block count, payload length, generation. -/
def readMeta (fork : Fork capacity) : Outcome PageError (Nat × Nat × UInt64) := do
  let nblocks := fork.length
  if nblocks = 0 then fail .noPages
  let bytes ← readPageContents fork 0
  -- magic and version come before the length check: an older metapage is shorter
  if bytes.length < 8 then fail (.metaTooShort bytes.length)
  let magic := ofLe (bytes.take 4)
  if magic ≠ metaMagic then fail (.badMagic magic)
  let version := ofLe ((bytes.drop 4).take 4)
  if version ≠ storageVersion then fail (.otherFormat version)
  if bytes.length < metaSize then fail (.metaTooShort bytes.length)
  let blobLen := ofLe ((bytes.drop 8).take 8)
  let generation := UInt64.ofNat (ofLe ((bytes.drop 16).take 8))
  if blobLen > (nblocks - 1) * capacity then fail (.overlong blobLen nblocks)
  return (nblocks, blobLen, generation)

/-! ## Writing the blob -/

/-- Write the whole blob into an empty fork. -/
def writeIndexBlob (fork : Fork capacity) (blob : List UInt8) :
    Outcome PageError (Fork capacity) := do
  if fork.length ≠ 0 then fail .nonEmptyFork
  let fork ← writePage fork none (encodeMeta blob.length firstGeneration)
  (chunks capacity blob).foldlM (fun fork chunk => writePage fork none chunk) fork

/-- Write `contents` at `blkno`, or at the end once the pages that were there are used up. -/
def rewritePage (existing : Nat) (at_ : Fork capacity × Nat) (contents : List UInt8) :
    Outcome PageError (Fork capacity × Nat) := do
  let (fork, blkno) := at_
  let fork ← writePage fork (if blkno < existing then some blkno else none) contents
  return (fork, blkno + 1)

/-- Replace the contents of the main fork with `blob`, under the next generation. -/
def rewriteIndexBlob (fork : Fork capacity) (blob : List UInt8) :
    Outcome PageError (Fork capacity) := do
  let existing := fork.length
  let (_, _, generation) ← readMeta fork
  let (fork, blkno) ← (encodeMeta blob.length (generation + 1) :: chunks capacity blob).foldlM
    (rewritePage existing) (fork, 0)
  -- leftover pages are re-initialized empty
  let (fork, _) ← (List.replicate (existing - blkno) []).foldlM (rewritePage existing) (fork, blkno)
  return fork

/-! ## The page walk -/

/-- The stored blob, delivered a page at a time. -/
structure PageBytes (capacity : Nat) where
  /-- The relation. -/
  index : Fork capacity
  /-- Next block to fault in; `nblocks` means the pages are exhausted. -/
  blkno : Nat
  nblocks : Nat
  /-- Used content of the pinned page; empty before the first page and after the last. -/
  page : List UInt8
  pos : Nat
  /-- Payload bytes not yet handed out. -/
  left : Nat

namespace PageBytes

/-- Block 0 is the metapage. -/
def new (fork : Fork capacity) (nblocks blobLen : Nat) : PageBytes capacity :=
  { index := fork, blkno := 1, nblocks, page := [], pos := 0, left := blobLen }

def release (src : PageBytes capacity) : PageBytes capacity := { src with page := [], pos := 0 }

/-- Pin the next page; `false` once none are left. -/
def advance (src : PageBytes capacity) : Outcome PageError (Bool × PageBytes capacity) :=
  let src := src.release
  if src.blkno ≥ src.nblocks then return (false, src)
  else do
    let page ← readPageContents src.index src.blkno
    return (true, { src with page, pos := 0, blkno := src.blkno + 1 })

/-- Restrict how many further bytes this source will hand out. -/
def limit (src : PageBytes capacity) (bytes : Nat) : PageBytes capacity := { src with left := bytes }

/-- The loop of `read_exact`: `k` bytes are wanted, `out` are filled. -/
def fill (k : Nat) : Nat → List UInt8 → PageBytes capacity →
    Outcome PageError (Except HnswDecodeError (List UInt8) × PageBytes capacity)
  | 0, _, _ => Outcome.starved
  | fuel + 1, out, src =>
    if out.length < k then
      if src.pos = src.page.length then do
        match ← src.advance with
        | (false, src) => return (.error .truncated, src)
        | (true, src) => fill k fuel out src
      else
        -- a value may straddle a page boundary: take what this page has
        let take := min (k - out.length) (src.page.length - src.pos)
        fill k fuel (out ++ (src.page.drop src.pos).take take) { src with pos := src.pos + take }
    else return (.ok out, src)

/-- A pass of the loop either consumes a byte or faults in a page. -/
def fuel (src : PageBytes capacity) (k : Nat) : Nat := k + (src.nblocks - src.blkno) + 1

/-- `read_exact`, with what it hands back and the state it leaves. -/
def readExact (k : Nat) (src : PageBytes capacity) :
    Outcome PageError (Except HnswDecodeError (List UInt8) × PageBytes capacity) :=
  if k > src.left then return (.error .truncated, src)
  else do
    match ← fill k (src.fuel k) [] src with
    | (.ok out, src) => return (.ok out, { src with left := src.left - k })
    | (.error e, src) => return (.error e, src)

/-- An `error!` raised under the decoder unwinds through it, as a panic does. -/
instance : GraphBytes (PageBytes capacity) where
  readExact k src :=
    match src.readExact k with
    | .ok (.ok out, src) => .ok (out, src)
    | .ok (.error e, _) => fail e
    | .error _ => Outcome.panicked
  remaining src := src.left

end PageBytes

/-! ## Loading -/

/-- `load_index_with_generation`: decode the stored image and check what ties its parts together. -/
def loadIndexWithGeneration [Arith] (arity : Nat) (fork : Fork capacity) :
    Outcome PageError Image := do
  let (nblocks, blobLen, generation) ← readMeta fork
  let src := PageBytes.new fork nblocks blobLen
  let (graphLen, src) ← (readGraphLen src).mapError .payload
  -- hand the decoder exactly the graph's bytes
  let afterGraph := GraphBytes.remaining src - graphLen
  let (hnsw, src) ← (Hnsw.fromGraphBytes (src.limit graphLen)).mapError .decode
  if GraphBytes.remaining src ≠ 0 then fail .shortGraph
  let (tids, src) ← (readTidTable (src.limit afterGraph)).mapError .payload
  let (unrankable, src) ← (readUnrankable src).mapError .payload
  if GraphBytes.remaining src ≠ 0 then fail (.payload .trailingBytes)
  (Image.load arity { hnsw, tids, unrankable, generation }).mapError .storage

/-- Decode a blob held as a slice, with the loader's checks. -/
def loadSlice [Arith] (arity : Nat) (generation : UInt64) (blob : List UInt8) :
    Outcome PageError Image := do
  let (graph, tids, unrankable) ← (decodeIndexPayload blob).mapError .payload
  let hnsw ← (Hnsw.fromBytes graph).mapError .decode
  (Image.load arity { hnsw, tids, unrankable, generation }).mapError .storage

end Brindle
