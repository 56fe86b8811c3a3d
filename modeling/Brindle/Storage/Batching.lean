/-
# Brindle.Storage.Batching — how the rows were batched leaves no trace.

As long as nothing is deleted, the blob on the pages is the encoding of one graph built from the rows
in write-back order, whichever backends wrote them, however they were cut into transactions, and
whether a flush stored its copy or replayed its rows. The generation counts the write-backs and each
of them brings a row, so it cannot wrap before the blob is longer than a machine word counts.
-/
import Brindle.Storage.ClusterSpec

namespace Brindle

open CacheWorld (generationAt)
open Hnsw (layersOf)
open Image (Added)
open IndexEvent (written)
open Outcome (Ensures ensures_pure)
open Row (counts)
open Run (Along run)

section

variable [Arith]

/-! ## The generation of an image -/

namespace Image

omit [Arith] in
/-- The image under another generation. -/
def relabel (image : Image) (generation : UInt64) : Image := { image with generation }

variable {image image' : Image}

/-- A row is added without a look at the generation. -/
theorem add_relabel {row : Row} (h : image.add row = .ok image') (generation : UInt64) :
    (image.relabel generation).add row = .ok (image'.relabel generation) := by
  obtain ⟨vector, attrs, tid⟩ := row
  cases vector with
  | none =>
    cases h
    rfl
  | some vector =>
    unfold add at h ⊢
    dsimp only [relabel] at h ⊢
    rw [Outcome.bind_eq_ok] at h
    obtain ⟨⟨hnsw, inserted⟩, hrun, h⟩ := h
    rw [hrun, Outcome.ok_bind]
    cases inserted with
    | error e => cases h
    | ok id =>
      cases h
      rfl

theorem addAll_relabel {rows : List Row} (h : image.addAll rows = .ok image')
    (generation : UInt64) :
    (image.relabel generation).addAll rows = .ok (image'.relabel generation) := by
  induction rows generalizing image with
  | nil =>
    cases h
    rfl
  | cons row rows ih =>
    unfold addAll at h ⊢
    rw [List.foldlM_cons, Outcome.bind_eq_ok] at h
    obtain ⟨image₁, hone, hrest⟩ := h
    rw [List.foldlM_cons, add_relabel hone, Outcome.ok_bind]
    exact ih hrest

theorem addAll_append {rows rows' : List Row} {image'' : Image}
    (h : image.addAll rows = .ok image') (h' : image'.addAll rows' = .ok image'') :
    image.addAll (rows ++ rows') = .ok image'' := by
  unfold addAll at h h' ⊢
  rw [List.foldlM_append, h, Outcome.ok_bind]
  exact h'

end Image

/-! ## Runs that only add -/

/-- Everything but a bulk delete. -/
def ClusterAction.Adds : ClusterAction → Prop
  | .vacuum _ => False
  | _ => True

instance : DecidablePred ClusterAction.Adds := fun a => by
  cases a <;> unfold ClusterAction.Adds <;> infer_instance

namespace Cluster

variable {capacity : Nat} {build : Build} {s : Cluster capacity} {image : Image}

/-- The index in memory is one build from the rows written so far. -/
structure Batched (build : Build) (s : Cluster capacity) (image : Image) : Prop where
  invariant : Invariant build s image
  built : ∃ built, ambuild build.params (build.rows ++ written s.history) = .ok built ∧
    image = built.relabel image.generation
  rows_eq : image.hnsw.n + image.unrankable.length = (build.rows ++ written s.history).length
  rewrites_le : s.rewrites ≤ (written s.history).length

theorem Batched.start (hcap : metaSize ≤ capacity) {fork : Fork capacity}
    (hfork : build.fork = .ok fork) (hfit : build.Fits) :
    ∃ image, Batched build (start fork) image := by
  obtain ⟨image, I, hbuilt, A⟩ := Invariant.start hcap hfork hfit
  have S := Image.Sound.new build.m_word build.ef_word
  have hrows : build.rows ++ written (Cluster.start fork).history = build.rows :=
    List.append_nil _
  refine ⟨image, I, ⟨image, ?_, rfl⟩, ?_, Nat.zero_le _⟩
  · rw [hrows]
    exact hbuilt
  · rw [hrows, A.n_eq S, A.unrankable_eq, ← Row.counts_sum]
    simp [Image.new, Hnsw.new, counts]

section Step

variable (B : Batched build s image)
include B

/-- Every write-back brought a row, and the blob has a byte for each. -/
theorem Batched.rewrites_lt : s.rewrites < 2 ^ 64 := by
  obtain ⟨blob, spare, henc, hlen, -⟩ := B.invariant.stores
  have hrows := encodeIndex_rows_le henc
  rw [B.invariant.sound.tids_len, B.rows_eq, List.length_append] at hrows
  have hfew := B.rewrites_le
  omega

theorem Batched.next (hcap : metaSize ≤ capacity) {a : ClusterAction} (hfit : s.Fits build a)
    (hadds : a.Adds) : ∃ image', Batched build (s.next build.arity a) image' := by
  obtain ⟨image', I', hadvance⟩ := B.invariant.next hcap B.rewrites_lt a hfit
  obtain ⟨built, hbuilt, himage⟩ := B.built
  refine ⟨image', ?_⟩
  cases hadvance with
  | still hhistory hrewrites hsame =>
    subst hsame
    refine ⟨I', ?_, ?_, ?_⟩
    · rw [hhistory]
      exact ⟨built, hbuilt, himage⟩
    · rw [hhistory]
      exact B.rows_eq
    · rw [hhistory, hrewrites]
      exact B.rewrites_le
  | vacuum => exact hadds.elim
  | batch hrows hgrown A hhistory hrewrites hsame =>
    rename_i rows grown
    -- the generation is the one thing the stored image has of its own
    have hwritten : written (s.next build.arity a).history = written s.history ++ rows := by
      rw [hhistory, IndexEvent.written_concat]
      rfl
    refine ⟨I', ⟨grown.relabel built.generation, ?_, ?_⟩, ?_, ?_⟩
    · have hrelabel := Image.addAll_relabel hgrown built.generation
      rw [himage] at hrelabel
      rw [hwritten, ← List.append_assoc]
      exact Image.addAll_append hbuilt hrelabel
    · rw [hsame]
      rfl
    · have hn := A.n_eq B.invariant.sound
      have hsum := Row.counts_sum rows
      have hold := B.rows_eq
      rw [hsame, hwritten]
      simp only [Image.rewrite, hn, A.unrankable_eq, List.length_append, counts] at hsum hold ⊢
      omega
    · have hfew := B.rewrites_le
      have hone := List.length_pos_iff.mpr hrows
      rw [hwritten, hrewrites, List.length_append]
      omega

end Step

/-- **Batching transparency.** After any run that only adds, the fork holds what a build over the
heap rows and the written rows, in write-back order, would have stored; and where a staged write is of
the stored image, storing it and replaying it write the same bytes. -/
theorem batching_transparent (hcap : metaSize ≤ capacity) (build : Build) (hfit : build.Fits)
    {fork : Fork capacity} (hfork : build.fork = .ok fork) (actions : List ClusterAction)
    (halong : Along (step build.arity) (fun s a => s.Fits build a ∧ a.Adds) (start fork) actions) :
    Ensures (run (step build.arity) (start fork) actions) fun s =>
      (∃ image blob, ambuild build.params (build.rows ++ written s.history) = .ok image ∧
        encodeIndex image.hnsw image.tids image.unrankable = .ok blob ∧
        ∃ generation spare, Holds s.fork (encodeMeta blob.length generation ::
          (Bytes.chunks capacity blob ++ List.replicate spare []))) ∧
      ∀ b w, s.Fits build (.commit b) →
        settlePending build.arity s.fork (s.backends b).write = .ok (some w) →
        (∃ nblocks blobLen, readMeta s.fork = .ok (nblocks, blobLen, w.baseGeneration)) →
        ∀ image image', loadIndexWithGeneration build.arity s.fork = .ok image →
          w.replay image = .ok image' →
          encodeIndex image'.hnsw image'.tids image'.unrankable =
            encodeIndex w.hnsw w.tids w.unrankable := by
  obtain ⟨image, hstart⟩ := Batched.start hcap hfork hfit
  refine (Run.ensures_run (I := fun s => ∃ image, Batched build s image) ?_ ⟨image, hstart⟩
    halong).mono ?_
  · rintro s a ⟨image, B⟩ ⟨hfit', hadds⟩
    exact ensures_pure.mpr (B.next hcap hfit' hadds)
  · rintro s ⟨image, B⟩
    have I := B.invariant
    refine ⟨?_, ?_⟩
    · obtain ⟨built, hbuilt, himage⟩ := B.built
      obtain ⟨blob, spare, henc, -, hholds⟩ := I.stores
      rw [himage] at henc
      exact ⟨built, blob, hbuilt, henc, _, spare, hholds⟩
    · rintro b w hfit' hsettle ⟨nblocks, blobLen, hcurrent⟩ copy copy' hload hreplay
      have hroom : layersOf build.params
          (image.hnsw.n + (counts (s.backends b).nest.all).1) < 2 ^ 32 := by
        rw [I.n_eq]
        exact hfit'
      obtain ⟨-, -, base, hstaged⟩ :=
        (I.slots b).settle hcap I.stores I.sound I.generation_eq hroom hsettle
      -- the write is of the image stored now, so both branches add its rows to the same index
      have himage := hstaged.current hcap I.stores I.generation_eq B.rewrites_lt hcurrent
      subst himage
      obtain ⟨grown, hgrown, A, T⟩ := hstaged.holding.built
      obtain ⟨Tload, -, -⟩ := I.stores.load hcap I.sound hload
      obtain ⟨grown', hgrown', -, T'⟩ := hstaged.holding.replay I.sound Tload hroom hreplay
      cases hgrown.symm.trans hgrown'
      exact (T'.encode_eq A.sound).trans (T.encode_eq A.sound).symm

omit [Arith] in
def sampleRow (vector : Option (List F32)) (offset : UInt16) : HeapRow :=
  ⟨⟨vector, [], (0, offset)⟩, Nat.two_pow_pos 64⟩

omit [Arith] in
/-- Two rows on the heap, one of them without a vector. -/
def sampleBuild : Build :=
  ⟨.default, HnswParams.default_m_word, HnswParams.default_ef_word, 0,
    [sampleRow (some [F32.one]) 1, sampleRow none 2]⟩

omit [Arith] in
/-- Two transactions stage over each other, so that the second to commit is replayed; one of them rolls
a row back and goes on, which reloads. -/
def sampleActions : List ClusterAction :=
  [.insert 0 (sampleRow (some [F32.zero]) 3), .insert 1 (sampleRow none 4), .savepoint 0,
    .insert 0 (sampleRow (some [F32.one]) 5), .rollback 0, .commit 1,
    .insert 0 (sampleRow none 6), .insert 1 (sampleRow (some [F32.one]) 7), .commit 0, .commit 1]

omit [Arith] in
theorem batching_transparent_sample :
    Ensures (@Build.fork 8168 Arith.ieee sampleBuild) fun fork =>
      Ensures (run (@step 8168 Arith.ieee sampleBuild.arity) (start fork) sampleActions) fun s =>
        (∃ image blob, @ambuild Arith.ieee sampleBuild.params
            (sampleBuild.rows ++ written s.history) = .ok image ∧
          encodeIndex image.hnsw image.tids image.unrankable = .ok blob ∧
          ∃ generation spare, Holds s.fork (encodeMeta blob.length generation ::
            (Bytes.chunks 8168 blob ++ List.replicate spare []))) ∧
        ∀ b w, @Fits 8168 Arith.ieee sampleBuild s (.commit b) →
          @settlePending 8168 Arith.ieee sampleBuild.arity s.fork (s.backends b).write =
            .ok (some w) →
          (∃ nblocks blobLen, readMeta s.fork = .ok (nblocks, blobLen, w.baseGeneration)) →
          ∀ image image',
            @loadIndexWithGeneration 8168 Arith.ieee sampleBuild.arity s.fork = .ok image →
            @PendingWrite.replay Arith.ieee w image = .ok image' →
            encodeIndex image'.hnsw image'.tids image'.unrankable =
              encodeIndex w.hnsw w.tids w.unrankable := by
  have hsample : Ensures (@Build.fork 8168 Arith.ieee sampleBuild) fun fork =>
      Along (@step 8168 Arith.ieee sampleBuild.arity)
        (fun s a => @Fits 8168 Arith.ieee sampleBuild s a ∧ a.Adds) (start fork)
        sampleActions := by
    decide +kernel
  obtain ⟨fork, hfork, halong⟩ := hsample
  exact ⟨fork, hfork, @batching_transparent Arith.ieee 8168 (by decide) sampleBuild
    (by decide +kernel) fork hfork sampleActions halong⟩

end Cluster

end

end Brindle
