/-
# Brindle.Storage.ClusterSpec — the pages hold one index, held in memory by nobody.

`Build.inMemory` is the abstract index: the build, and then every completed write-back and vacuum
applied to one graph that is never encoded. The stored fork holds the encoding of that index, and
every staged write is a copy of the index of some earlier moment with its transaction's rows added,
among them the ones a savepoint has rolled back and no settle has dropped yet. Every step of the
machine keeps this, so the schedule leaves no trace but the order of the write-backs.
-/
import Brindle.Storage.Cache
import Brindle.Storage.Cluster

namespace Brindle

open CacheWorld (generationAt generationAt_succ generationAt_inj)
open Hnsw (Twins layersOf)
open Image (Added)
open Outcome (Ensures ensures_pure fail)
open Rewind (Nest Sized Tracks)
open Row (counts)
open Run (After)

section

variable [Arith]

/-! ## A staged write -/

/-- The write is a copy of `base` with `rows` added. -/
structure Holding (params : HnswParams) (base : Image) (rows : List Row) (w : PendingWrite) :
    Prop where
  sound : base.Sound params
  words : ∀ row ∈ rows, row.attrs.length < 2 ^ 64
  built : ∃ image, base.addAll rows = .ok image ∧ Added params base rows image ∧ image.Same w.image
  baseN_eq : w.baseN = base.hnsw.n
  baseUnrankable_eq : w.baseUnrankable = base.unrankable.length

namespace Holding

variable {params : HnswParams} {base : Image} {rows : List Row} {w : PendingWrite}

theorem ofImage {image copy : Image} (S : image.Sound params) (T : image.Same copy) (oid : Oid) :
    Holding params image [] (PendingWrite.ofImage oid copy) where
  sound := S
  words := nofun
  built := ⟨image, rfl, ⟨S, (List.append_nil _).symm, (List.append_nil _).symm, rfl⟩, T.twins,
    T.tids_eq, T.unrankable_eq⟩
  baseN_eq := T.twins.n_eq
  baseUnrankable_eq := congrArg List.length T.unrankable_eq

variable (H : Holding params base rows w)
include H

theorem graphRows_eq : w.graphRows = base.graphRows ++ rows.filterMap Row.graph? := by
  obtain ⟨image, -, A, T⟩ := H.built
  exact T.graphRows_eq.trans A.rows_eq

theorem stagedRows_eq : w.stagedRows = rows.filterMap Row.graph? := by
  unfold PendingWrite.stagedRows
  rw [H.graphRows_eq, H.baseN_eq]
  exact List.drop_left' H.sound.length_graphRows

theorem stagedUnrankable_eq : w.stagedUnrankable = rows.filterMap Row.vectorless? := by
  obtain ⟨image, -, A, T⟩ := H.built
  have hunr : w.unrankable = base.unrankable ++ rows.filterMap Row.vectorless? :=
    T.unrankable_eq.trans A.unrankable_eq
  unfold PendingWrite.stagedUnrankable
  rw [hunr, H.baseUnrankable_eq]
  exact List.drop_left

theorem n_eq : w.hnsw.n = base.hnsw.n + (counts rows).1 := by
  obtain ⟨image, -, A, T⟩ := H.built
  have hn : w.hnsw.n = image.hnsw.n := T.twins.n_eq
  rw [hn, A.n_eq H.sound]

theorem coherent : w.Coherent := by
  obtain ⟨image, -, A, T⟩ := H.built
  have hunr : w.unrankable = base.unrankable ++ rows.filterMap Row.vectorless? :=
    T.unrankable_eq.trans A.unrankable_eq
  refine ⟨(A.sound.of_same T).valid, ?_, ?_, ?_⟩
  · rw [H.baseN_eq, H.n_eq]
    exact Nat.le_add_right _ _
  · rw [H.baseUnrankable_eq, hunr, List.length_append]
    exact Nat.le_add_right _ _
  · intro row hrow
    rw [H.stagedRows_eq] at hrow
    obtain ⟨row', -, hgraph⟩ := List.mem_filterMap.mp hrow
    obtain ⟨vector, -, rfl⟩ := Option.map_eq_some_iff.mp hgraph
    rfl

theorem staged_eq : w.staged = counts rows := by
  rw [H.coherent.staged_eq, H.stagedRows_eq, H.stagedUnrankable_eq]
  rfl

/-- The oldest staged rows, read back out of the graph. -/
theorem survivors_eq {kept : List Row} (hkept : kept <+: rows) :
    w.survivors (counts kept).1 = .ok (kept.filterMap Row.ranked?) := by
  obtain ⟨dropped, rfl⟩ := hkept
  have hle : w.baseN + (counts kept).1 ≤ w.hnsw.n := by
    rw [H.baseN_eq, H.n_eq, Row.counts_append]
    dsimp only
    omega
  obtain ⟨survivors, hread, hrows⟩ := H.coherent.survivors_spec hle
  have hranked : kept.filterMap Row.graph? = (kept.filterMap Row.ranked?).map liveRow := by
    rw [List.map_filterMap]
    exact List.filterMap_congr fun row _ => row.graph?_eq
  rw [H.stagedRows_eq, List.filterMap_append, List.take_left' (show _ = (counts kept).1 from rfl),
    hranked] at hrows
  have hinj : Function.Injective liveRow := by
    rintro ⟨v, a, t⟩ ⟨v', a', t'⟩ h
    simp only [liveRow, Prod.mk.injEq, Stored.mk.injEq, and_true] at h
    obtain ⟨⟨rfl, rfl⟩, rfl⟩ := h
    rfl
  rw [hread, List.map_injective_iff.mpr hinj hrows]

theorem take_unrankable {kept : List Row} (hkept : kept <+: rows) :
    w.stagedUnrankable.take (counts kept).2 = kept.filterMap Row.vectorless? := by
  obtain ⟨dropped, rfl⟩ := hkept
  rw [H.stagedUnrankable_eq, List.filterMap_append]
  exact List.take_left' rfl

/-- Savepoint bookkeeping is no row's business. -/
theorem mark (event : SubXactEvent) : Holding params base rows (w.applyMarkEvent event) := by
  cases event <;>
    exact ⟨H.sound, H.words, H.built, H.baseN_eq, H.baseUnrankable_eq⟩

/-- A row that is staged is added to the copy. -/
theorem stage {row : Row} (hrow : row.attrs.length < 2 ^ 64)
    (hroom : layersOf params (base.hnsw.n + (counts (rows ++ [row])).1) < 2 ^ 32)
    {w' : PendingWrite} (hstage : w.stage row = .ok w') :
    Holding params base (rows ++ [row]) w' ∧
      w' = { w with hnsw := w'.hnsw, tids := w'.tids, unrankable := w'.unrankable } := by
  have hadd : w.image.add row = .ok w'.image ∧
      w' = { w with hnsw := w'.hnsw, tids := w'.tids, unrankable := w'.unrankable } := by
    obtain ⟨vector, attrs, tid⟩ := row
    cases vector with
    | none =>
      cases hstage
      exact ⟨rfl, rfl⟩
    | some vector =>
      unfold PendingWrite.stage PendingWrite.stageVector at hstage
      simp only [Outcome.bind_eq_ok, Outcome.mapError_eq_ok] at hstage
      obtain ⟨⟨w'', raised⟩, ⟨⟨hnsw, raised'⟩, hone, hput⟩, hdone⟩ := hstage
      cases raised' with
      | error e =>
        cases hput
        cases hdone
      | ok u =>
        cases hput
        cases hdone
        refine ⟨?_, rfl⟩
        have happend : appendRow (w.image.hnsw, w.image.tids) (vector, attrs, tid) =
            .ok (hnsw, w.tids ++ [tid]) := by
          unfold appendRow
          rw [show applyOne w.image.hnsw w.image.tids.length vector attrs = _ from hone]
          rfl
        have hranked : (⟨some vector, attrs, tid⟩ : Row).ranked? = some (vector, attrs, tid) := rfl
        exact Image.add_of_appendRow hranked happend
  refine ⟨?_, hadd.2⟩
  -- the twin built in memory takes the same row
  obtain ⟨image, hall, A, T⟩ := H.built
  have hroom' : layersOf params (image.hnsw.n + (counts [row]).1) < 2 ^ 32 := by
    rw [A.n_eq H.sound, Nat.add_assoc]
    rwa [Row.counts_append] at hroom
  obtain ⟨image', hadd', T'⟩ := T.add A.sound hroom' hadd.1
  have B := (A.sound.add hrow hroom').elim hadd'
  refine ⟨H.sound, ?_, ⟨image', ?_, A.append B, T'⟩, ?_, ?_⟩
  · intro row' hmem
    rcases List.mem_append.mp hmem with hold | hnew
    · exact H.words row' hold
    · rw [List.mem_singleton.mp hnew]
      exact hrow
  · unfold Image.addAll at hall ⊢
    rw [List.foldlM_append, hall, Outcome.ok_bind, List.foldlM_cons, hadd', Outcome.ok_bind]
    rfl
  · rw [hadd.2]
    exact H.baseN_eq
  · rw [hadd.2]
    exact H.baseUnrankable_eq

/-- **A replay** adds the rows to the index that is stored now. -/
theorem replay {image copy copy' : Image} (S : image.Sound params) (T : image.Same copy)
    (hroom : layersOf params (image.hnsw.n + (counts rows).1) < 2 ^ 32)
    (hreplay : w.replay copy = .ok copy') :
    ∃ image', image.addAll rows = .ok image' ∧ Added params image rows image' ∧
      image'.Same copy' := by
  unfold PendingWrite.replay at hreplay
  rw [Outcome.bind_eq_ok] at hreplay
  obtain ⟨table, hfold, hdone⟩ := hreplay
  have hcount : w.hnsw.n - w.baseN = (counts rows).1 := by
    rw [H.n_eq, H.baseN_eq]
    exact Nat.add_sub_cancel_left _ _
  have hle : w.baseN + (counts rows).1 ≤ w.hnsw.n := by
    rw [H.baseN_eq, H.n_eq]
  rw [show w.stagedNodes = List.range' w.baseN (counts rows).1 by
    rw [← hcount]; rfl, H.coherent.replay_loop_eq _ hle,
    H.survivors_eq (List.prefix_refl rows), Outcome.ok_bind] at hfold
  cases hdone
  have hadd := Image.addAll_of_appendRows hfold
  rw [← H.stagedUnrankable_eq] at hadd
  exact T.addAll S H.words hroom hadd

end Holding

/-! ## The stored index -/

variable {capacity : Nat}

omit [Arith] in
/-- The fork holds the encoding of `image`. -/
def Stores (fork : Fork capacity) (image : Image) : Prop :=
  ∃ blob spare, image.encode = .ok blob ∧ blob.length < 2 ^ 64 ∧
    Holds fork (encodeMeta blob.length image.generation ::
      (Bytes.chunks capacity blob ++ List.replicate spare []))

namespace Stores

variable {params : HnswParams} {fork : Fork capacity} {image : Image}

omit [Arith] in
theorem readMeta (hcap : metaSize ≤ capacity) (h : Stores fork image) :
    ∃ nblocks blobLen, readMeta fork = .ok (nblocks, blobLen, image.generation) := by
  obtain ⟨blob, spare, -, hlen, hholds⟩ := h
  exact ⟨_, _, hholds.readMeta_spare (lt_of_lt_of_le (by decide) hcap) hlen⟩

/-- What is loaded from the fork is a copy of what it stores. -/
theorem load (hcap : metaSize ≤ capacity) (h : Stores fork image) (S : image.Sound params)
    {arity : Nat} {copy : Image} (hload : loadIndexWithGeneration arity fork = .ok copy) :
    image.Same copy ∧ copy.generation = image.generation ∧ copy.load arity = .ok copy := by
  obtain ⟨blob, spare, henc, hlen, hholds⟩ := h
  have hslice := (load_iff_slice (lt_of_lt_of_le (by decide) hcap) hholds hlen arity copy).mp hload
  obtain ⟨T, hgeneration⟩ := S.loaded henc hlen hslice
  exact ⟨T, hgeneration, Image.load_of_loadSlice hslice⟩

omit [Arith] in
/-- Storing the next image over the one there. -/
theorem store (hcap : metaSize ≤ capacity) (h : Stores fork image) {image' : Image}
    (hgeneration : image'.generation = image.generation + 1) {blob : List UInt8}
    (henc : image'.encode = .ok blob) {fork' : Fork capacity}
    (hstore : storeBlob fork blob = .ok fork') : Stores fork' image' := by
  unfold storeBlob at hstore
  split_ifs at hstore with hlen
  · obtain ⟨nblocks, blobLen, hmeta⟩ := h.readMeta hcap
    obtain ⟨fork'', hrun, spare, hholds⟩ := rewriteIndexBlob_spec hcap hmeta blob
    cases hstore.symm.trans hrun
    rw [← hgeneration] at hholds
    exact ⟨blob, spare, henc, hlen, hholds⟩
  · cases hstore

end Stores

/-! ## The slot of a backend -/

/-- `w` is a copy with `rows` added of the index as it was after some earlier rewrite, and the rows
of `nest` are the ones among them that its bookkeeping keeps. -/
structure Staged (params : HnswParams) (image : Image) (rewrites : Nat) (nest : Nest Row)
    (base : Image) (rows : List Row) (w : PendingWrite) : Prop where
  holding : Holding params base rows w
  kept : nest.all <+: rows
  ordered : w.sized.Ordered
  tracks : Tracks counts w.sized nest
  n_le : base.hnsw.n ≤ image.hnsw.n
  based : ∃ loadedAt ≤ rewrites, w.baseGeneration = generationAt loadedAt ∧
    (loadedAt = rewrites → base = image)

/-- What a backend has staged. -/
def Slot (params : HnswParams) (image : Image) (rewrites : Nat) (nest : Nest Row) :
    Option PendingWrite → Prop
  | none => nest.all = []
  | some w => ∃ base rows, rows ≠ [] ∧ Staged params image rewrites nest base rows w

/-- What it has staged once no rewind is outstanding. -/
def Ready (params : HnswParams) (image : Image) (rewrites : Nat) (nest : Nest Row) :
    Option PendingWrite → Prop
  | none => nest.all = []
  | some w => nest.all ≠ [] ∧ w.rewindTo = none ∧
      ∃ base, Staged params image rewrites nest base nest.all w

section Slots

variable {params : HnswParams} {image : Image} {rewrites : Nat} {nest : Nest Row}
  {write : Option PendingWrite}

theorem Ready.slot (R : Ready params image rewrites nest write) :
    Slot params image rewrites nest write := by
  cases write with
  | none => exact R
  | some w =>
    obtain ⟨hne, -, base, hstaged⟩ := R
    exact ⟨base, nest.all, hne, hstaged⟩

/-- Without an outstanding rewind every staged row is kept. -/
theorem Staged.all_eq {base : Image} {rows : List Row} {w : PendingWrite}
    (h : Staged params image rewrites nest base rows w) (hrewind : w.rewindTo = none) :
    nest.all = rows := by
  obtain ⟨dropped, rfl⟩ := h.kept
  have hlevel : w.staged = counts nest.all := by
    have htracks := h.tracks.level_eq
    have hnone : w.sized.cut = none := hrewind
    unfold Sized.level at htracks
    rw [hnone] at htracks
    exact htracks
  rw [h.holding.staged_eq, Row.counts_append, Prod.ext_iff] at hlevel
  dsimp only at hlevel
  have hzero : counts dropped = (0, 0) := Prod.ext (by omega) (by omega)
  rw [Row.counts_eq_zero.mp hzero, List.append_nil]

/-- The fork is rewritten by somebody else. -/
theorem Slot.later (h : Slot params image rewrites nest write) {image' : Image}
    (hle : image.hnsw.n ≤ image'.hnsw.n) : Slot params image' (rewrites + 1) nest write := by
  cases write with
  | none => exact h
  | some w =>
    obtain ⟨base, rows, hne, hstaged⟩ := h
    obtain ⟨loadedAt, hloaded, hgeneration, -⟩ := hstaged.based
    refine ⟨base, rows, hne, { hstaged with n_le := hstaged.n_le.trans hle, based := ?_ }⟩
    exact ⟨loadedAt, by omega, hgeneration, fun h => by omega⟩

/-- Savepoint bookkeeping. -/
theorem Slot.mark (h : Slot params image rewrites nest write) {event : SubXactEvent}
    {nest' : Nest Row} (hinitial : nest'.all <+: nest.all)
    (hmark : ∀ w : PendingWrite, w.sized.Ordered → Tracks counts w.sized nest →
      (w.applyMarkEvent event).sized.Ordered ∧ Tracks counts (w.applyMarkEvent event).sized nest') :
    Slot params image rewrites nest' (write.map fun w => w.applyMarkEvent event) := by
  cases write with
  | none =>
    have hnone : nest.all = [] := h
    rw [hnone] at hinitial
    exact List.prefix_nil.mp hinitial
  | some w =>
    obtain ⟨base, rows, hne, hstaged⟩ := h
    obtain ⟨hordered, htracks⟩ := hmark w hstaged.ordered hstaged.tracks
    refine ⟨base, rows, hne, hstaged.holding.mark event, hinitial.trans hstaged.kept, hordered,
      htracks, hstaged.n_le, ?_⟩
    have hgeneration : (w.applyMarkEvent event).baseGeneration = w.baseGeneration := by
      cases event <;> rfl
    rw [hgeneration]
    exact hstaged.based

variable {fork : Fork capacity} {arity : Nat}

/-- A copy just loaded, with rows added and the bookkeeping of a settled write. -/
theorem Staged.loaded {copy : Image} (hgeneration : copy.generation = generationAt rewrites)
    {w : PendingWrite} (H : Holding params image nest.all w)
    (hbase : w.baseGeneration = copy.generation) (ordered : w.sized.Ordered)
    (tracks : Tracks counts w.sized nest) : Staged params image rewrites nest image nest.all w where
  holding := H
  kept := List.prefix_refl _
  ordered := ordered
  tracks := tracks
  n_le := le_rfl
  based := ⟨rewrites, le_rfl, hbase.trans hgeneration, fun _ => rfl⟩

/-- **Settling** leaves the rows the savepoints kept, on the index stored now. -/
theorem Slot.settle (hcap : metaSize ≤ capacity) (h : Slot params image rewrites nest write)
    (stores : Stores fork image) (S : image.Sound params)
    (hgeneration : image.generation = generationAt rewrites)
    (hroom : layersOf params (image.hnsw.n + (counts nest.all).1) < 2 ^ 32)
    {write' : Option PendingWrite} (hsettle : settlePending arity fork write = .ok write') :
    Ready params image rewrites nest write' := by
  cases write with
  | none =>
    cases hsettle
    exact h
  | some w =>
    obtain ⟨base, rows, hne, hstaged⟩ := h
    have hlevel := hstaged.tracks.level_eq
    unfold Sized.level at hlevel
    unfold settlePending at hsettle
    dsimp only at hsettle
    cases hrewind : w.rewindTo with
    | none =>
      rw [hrewind] at hsettle
      cases hsettle
      have hall := hstaged.all_eq hrewind
      rw [← hall] at hstaged hne
      exact ⟨hne, hrewind, base, hstaged⟩
    | some mark =>
      have hcut : w.sized.cut = some mark := hrewind
      rw [hcut, Option.getD_some] at hlevel
      rw [hrewind] at hsettle
      dsimp only at hsettle
      split_ifs at hsettle with hzero
      · -- nothing survived the rollback: the slot is emptied
        cases hsettle
        exact Row.counts_eq_zero.mp (hlevel.symm.trans hzero)
      · -- otherwise the survivors are replayed on a fresh copy of the stored image
        subst hlevel
        have H := hstaged.holding
        simp only [H.survivors_eq hstaged.kept, Outcome.bind_eq_ok, Outcome.mapError_eq_ok]
          at hsettle
        obtain ⟨_, hread, copy, hload, table, happend, hdone⟩ := hsettle
        cases hread
        obtain ⟨T, hcopy, -⟩ := stores.load hcap S hload
        have hwords : ∀ row ∈ nest.all, row.attrs.length < 2 ^ 64 :=
          fun row hrow => H.words row (hstaged.kept.subset hrow)
        have hadd := Image.addAll_of_appendRows happend
        rw [← H.take_unrankable hstaged.kept] at hadd
        have hbuilt := T.addAll S hwords hroom hadd
        cases hdone
        refine ⟨fun hnil => hzero (by rw [hnil]; rfl), rfl, image, ?_⟩
        have H' : Holding params image nest.all
            { PendingWrite.ofImage w.indexOid copy with
              hnsw := table.1
              tids := table.2
              unrankable := copy.unrankable ++ w.stagedUnrankable.take (counts nest.all).2
              marks := w.marks } :=
          ⟨S, hwords, hbuilt, T.twins.n_eq, congrArg List.length T.unrankable_eq⟩
        have hlevel : w.sized.level = counts nest.all := by
          unfold Sized.level
          rw [hcut]
          rfl
        have hsized := hstaged.ordered.settled
        have htracks := hstaged.tracks.settled
        rw [hlevel, ← H'.staged_eq] at hsized htracks
        exact Staged.loaded (hcopy.trans hgeneration) H' rfl hsized htracks

/-- **An insert** stages its row after the rows kept. -/
theorem Slot.insert (hcap : metaSize ≤ capacity) (h : Slot params image rewrites nest write)
    (stores : Stores fork image) (S : image.Sound params)
    (hgeneration : image.generation = generationAt rewrites) {row : Row}
    (hrow : row.attrs.length < 2 ^ 64)
    (hroom : layersOf params (image.hnsw.n + (counts (nest.all ++ [row])).1) < 2 ^ 32)
    {w' : PendingWrite} (hinsert : pendingInsert arity fork write row = .ok w') :
    Slot params image rewrites (nest.add row) (some w') := by
  unfold pendingInsert at hinsert
  simp only [Outcome.bind_eq_ok] at hinsert
  obtain ⟨write₁, hsettle, w, hload, hstage⟩ := hinsert
  have hless : (counts nest.all).1 ≤ (counts (nest.all ++ [row])).1 := by
    rw [Row.counts_append]
    exact Nat.le_add_right _ _
  have hroom₁ : layersOf params (image.hnsw.n + (counts nest.all).1) < 2 ^ 32 :=
    (Hnsw.layersOf_mono params (Nat.add_le_add_left hless _)).trans_lt hroom
  have R : Ready params image rewrites nest write₁ :=
    h.settle hcap stores S hgeneration hroom₁ hsettle
  -- the write the row goes into: what was staged, or a copy just loaded
  obtain ⟨base, hrewind, hstaged⟩ : ∃ base, w.rewindTo = none ∧
      Staged params image rewrites nest base nest.all w := by
    cases write₁ with
    | none =>
      have hnil : nest.all = [] := R
      unfold loadPending at hload
      simp only [Outcome.bind_eq_ok] at hload
      obtain ⟨copy, hcopy, hdone⟩ := hload
      cases hdone
      obtain ⟨T, hcopyGeneration, -⟩ := stores.load hcap S hcopy
      have H := Holding.ofImage S T 0
      have hcount : (PendingWrite.ofImage 0 copy).staged = ⊥ := H.staged_eq
      have hsized : (PendingWrite.ofImage 0 copy).sized = ⟨⊥, none, []⟩ := by
        rw [← hcount]
        rfl
      rw [← hnil] at H
      refine ⟨image, rfl, Staged.loaded (hcopyGeneration.trans hgeneration) H rfl ?_ ?_⟩
      · exact Rewind.Sized.ordered_fresh _
      · rw [hsized]
        exact Rewind.tracks_fresh hnil rfl
    | some w₁ =>
      cases hload
      obtain ⟨-, hrewind, base, hstaged⟩ := R
      exact ⟨base, hrewind, hstaged⟩
  have hbase : layersOf params (base.hnsw.n + (counts (nest.all ++ [row])).1) < 2 ^ 32 :=
    (Hnsw.layersOf_mono params (Nat.add_le_add_right hstaged.n_le _)).trans_lt hroom
  obtain ⟨H, hfields⟩ := hstaged.holding.stage hrow hbase hstage
  have hsized : w'.sized = { w.sized with count := w'.staged } := by
    have hmarks : w'.marks = w.marks := by rw [hfields]
    have hcut : w'.rewindTo = w.rewindTo := by rw [hfields]
    unfold PendingWrite.sized
    rw [hmarks, hcut]
  have hgrown : w.sized.count ≤ w'.staged := by
    show w.staged ≤ w'.staged
    rw [hstaged.holding.staged_eq, H.staged_eq, Row.counts_append]
    exact Prod.le_def.mpr ⟨Nat.le_add_right _ _, Nat.le_add_right _ _⟩
  refine ⟨base, nest.all ++ [row], by simp, H, ?_, ?_, ?_, hstaged.n_le, ?_⟩
  · rw [Nest.all_add]
  · rw [hsized]
    exact hstaged.ordered.grown hrewind hgrown
  · rw [hsized]
    exact hstaged.tracks.added hrewind H.staged_eq
  · have hgeneration : w'.baseGeneration = w.baseGeneration := by rw [hfields]
    rw [hgeneration]
    exact hstaged.based

/-- Where nobody wrote since the load, the copy is of the index stored now. -/
theorem Staged.current (hcap : metaSize ≤ capacity) {base : Image} {rows : List Row}
    {w : PendingWrite} (h : Staged params image rewrites nest base rows w)
    (stores : Stores fork image) (hgeneration : image.generation = generationAt rewrites)
    (hfew : rewrites < 2 ^ 64) {nblocks blobLen : Nat}
    (hmeta : readMeta fork = .ok (nblocks, blobLen, w.baseGeneration)) : base = image := by
  obtain ⟨nblocks', blobLen', hmeta'⟩ := stores.readMeta hcap
  obtain ⟨loadedAt, hle, hloaded, hcurrent⟩ := h.based
  have hsame : image.generation = w.baseGeneration := by
    rw [hmeta] at hmeta'
    simp only [Except.ok.injEq, Prod.mk.injEq] at hmeta'
    exact hmeta'.2.2.symm
  refine hcurrent (generationAt_inj (by omega) hfew ?_)
  rw [← hloaded, ← hsame, hgeneration]

/-- **A flush** adds the rows to the stored index, by either branch. -/
theorem Ready.flush (hcap : metaSize ≤ capacity) {w : PendingWrite}
    (R : Ready params image rewrites nest (some w)) (stores : Stores fork image)
    (S : image.Sound params) (hgeneration : image.generation = generationAt rewrites)
    (hfew : rewrites < 2 ^ 64)
    (hroom : layersOf params (image.hnsw.n + (counts nest.all).1) < 2 ^ 32)
    {fork' : Fork capacity} (hflush : flushLocked arity fork w = .ok fork') :
    ∃ image', image.addAll nest.all = .ok image' ∧ Added params image nest.all image' ∧
      Stores fork' (image.rewrite image') := by
  obtain ⟨-, -, base, hstaged⟩ := R
  obtain ⟨nblocks, blobLen, hmeta⟩ := stores.readMeta hcap
  unfold flushLocked at hflush
  simp only [hmeta, Outcome.ok_bind] at hflush
  suffices H : ∃ image' blob, image.addAll nest.all = .ok image' ∧
      Added params image nest.all image' ∧ image'.encode = .ok blob ∧
      storeBlob fork blob = .ok fork' by
    obtain ⟨image', blob, hadd, A, henc, hstore⟩ := H
    have henc' : (image.rewrite image').encode = .ok blob := henc
    exact ⟨image', hadd, A, stores.store hcap rfl henc' hstore⟩
  split_ifs at hflush with hsame
  · -- nobody wrote since the load
    simp only [Outcome.bind_eq_ok, Outcome.mapError_eq_ok] at hflush
    obtain ⟨blob, henc, hstore⟩ := hflush
    have himage := hstaged.current hcap stores hgeneration hfew (hsame ▸ hmeta)
    subst himage
    obtain ⟨image', hadd, A, T⟩ := hstaged.holding.built
    exact ⟨image', blob, hadd, A, by rw [← T.encode_eq A.sound, henc], hstore⟩
  · simp only [Outcome.bind_eq_ok, Outcome.mapError_eq_ok] at hflush
    obtain ⟨copy, hload, copy', hreplay, blob, henc, hstore⟩ := hflush
    obtain ⟨T, -, -⟩ := stores.load hcap S hload
    obtain ⟨image', hadd, A, T'⟩ := hstaged.holding.replay S T hroom hreplay
    exact ⟨image', blob, hadd, A, by rw [← T'.encode_eq A.sound, henc], hstore⟩

/-- **A vacuum** of the pages is a vacuum of the index they store. -/
theorem Stores.vacuum (hcap : metaSize ≤ capacity) (stores : Stores fork image)
    (S : image.Sound params) {isDead : TidPair → Bool} {fork? : Option (Fork capacity)}
    (hvac : bulkDelete arity fork isDead = .ok fork?) :
    ∃ image', ambulkdelete arity isDead image = .ok image' ∧ image'.Sound params ∧
      image'.hnsw.n = image.hnsw.n ∧
      match fork? with
      | none => image' = image
      | some fork' => Stores fork' image' ∧ image'.generation = image.generation + 1 := by
  unfold bulkDelete at hvac
  simp only [Outcome.bind_eq_ok, Outcome.mapError_eq_ok] at hvac
  obtain ⟨copy, hload, g, htomb, hvac⟩ := hvac
  obtain ⟨T, -, hcheck⟩ := stores.load hcap S hload
  split_ifs at hvac with hwent
  · simp only [Outcome.bind_eq_ok, Outcome.mapError_eq_ok] at hvac
    obtain ⟨blob, henc, fork', hstore, hdone⟩ := hvac
    cases hdone
    have hcopy : ambulkdelete arity isDead copy = .ok (copy.rewrite
        { copy with
          hnsw := g
          unrankable := copy.unrankable.filter fun row => !isDead row.1 }) := by
      unfold ambulkdelete
      rw [hcheck, Outcome.ok_bind, htomb, Outcome.ok_bind]
      exact if_pos hwent
    obtain ⟨image', hrun, T', S', hn, hgenerations⟩ := T.ambulkdelete S hcopy
    have hnext : image'.generation = image.generation + 1 := by
      rcases hgenerations with ⟨hkept, -⟩ | ⟨-, hnext⟩
      · -- a rewrite moves the generation
        have hone : copy.generation + 1 = copy.generation := hkept
        simp at hone
      · exact hnext
    refine ⟨image', hrun, S', hn, stores.store hcap hnext ?_ hstore, hnext⟩
    rw [← T'.encode_eq S']
    exact henc
  · cases hvac
    have hcopy : ambulkdelete arity isDead copy = .ok copy := by
      unfold ambulkdelete
      rw [hcheck, Outcome.ok_bind, htomb, Outcome.ok_bind]
      exact if_neg hwent
    obtain ⟨image', hrun, T', S', hn, hgenerations⟩ := T.ambulkdelete S hcopy
    have hsame : image' = image := by
      rcases hgenerations with ⟨-, hsame⟩ | ⟨hmoved, -⟩
      · exact hsame
      · simp at hmoved
    exact ⟨image', hrun, S', hn, hsame⟩

end Slots

/-! ## The index in memory -/

/-- One completed change, made to the index held in memory. -/
def Image.apply (arity : Nat) (image : Image) : IndexEvent → Outcome StorageError Image
  | .batch rows => return image.rewrite (← image.addAll rows)
  | .vacuum isDead => ambulkdelete arity isDead image

/-- The build, and then the changes of a history, made to one index held in memory. -/
def Build.inMemory (build : Build) (history : List IndexEvent) : Outcome StorageError Image := do
  history.foldlM (Image.apply build.arity) (← ambuild build.params build.rows)

theorem Build.inMemory_concat {build : Build} {history : List IndexEvent} {image image' : Image}
    (h : build.inMemory history = .ok image) {e : IndexEvent}
    (he : image.apply build.arity e = .ok image') :
    build.inMemory (history ++ [e]) = .ok image' := by
  unfold Build.inMemory at h ⊢
  rw [Outcome.bind_eq_ok] at h
  obtain ⟨built, hbuilt, hrun⟩ := h
  rw [hbuilt, Outcome.ok_bind, List.foldlM_append, hrun, Outcome.ok_bind, List.foldlM_cons, he,
    Outcome.ok_bind]
  rfl

omit [Arith] in
theorem Build.words (build : Build) : ∀ row ∈ build.rows, row.attrs.length < 2 ^ 64 := by
  intro row hrow
  obtain ⟨row, -, rfl⟩ := List.mem_map.mp hrow
  exact row.attrs_word

/-- The layers of the built graph are counted by a `u32`. -/
def Build.Fits (build : Build) : Prop := layersOf build.params (counts build.rows).1 < 2 ^ 32

instance (build : Build) : Decidable build.Fits := inferInstanceAs (Decidable (_ < _))

/-! ## The invariant -/

namespace Cluster

variable {build : Build} {s : Cluster capacity} {image : Image}

/-- **The invariant**: the fork holds the index in memory, and every slot a copy of it as it was. -/
structure Invariant (build : Build) (s : Cluster capacity) (image : Image) : Prop where
  history_eq : build.inMemory s.history = .ok image
  sound : image.Sound build.params
  n_eq : image.hnsw.n = s.nodes build
  generation_eq : image.generation = generationAt s.rewrites
  stores : Stores s.fork image
  slots : ∀ b, Slot build.params image s.rewrites (s.backends b).nest (s.backends b).write

/-- What a step does to the index in memory. -/
inductive Advance (build : Build) (s : Cluster capacity) (image : Image) (s' : Cluster capacity)
    (image' : Image) : ClusterAction → Prop where
  | still {a : ClusterAction} (hhistory : s'.history = s.history)
      (hrewrites : s'.rewrites = s.rewrites) (himage : image' = image) :
      Advance build s image s' image' a
  | batch {a : ClusterAction} {rows : List Row} {grown : Image} (hrows : rows ≠ [])
      (hgrown : image.addAll rows = .ok grown) (added : Added build.params image rows grown)
      (hhistory : s'.history = s.history ++ [.batch rows])
      (hrewrites : s'.rewrites = s.rewrites + 1) (himage : image' = image.rewrite grown) :
      Advance build s image s' image' a
  | vacuum {isDead : TidPair → Bool} (hvac : ambulkdelete build.arity isDead image = .ok image')
      (hhistory : s'.history = s.history ++ [.vacuum isDead])
      (hrewrites : s'.rewrites ≤ s.rewrites + 1) :
      Advance build s image s' image' (.vacuum isDead)

/-- A new index. -/
theorem Invariant.start (hcap : metaSize ≤ capacity) {fork : Fork capacity}
    (hfork : build.fork = .ok fork) (hfit : build.Fits) :
    ∃ image, Invariant build (start fork) image ∧
      ambuild build.params build.rows = .ok image ∧
      Added build.params (Image.new build.params) build.rows image := by
  unfold Build.fork at hfork
  simp only [Outcome.bind_eq_ok, Outcome.mapError_eq_ok] at hfork
  obtain ⟨image, hbuilt, blob, henc, hwrite⟩ := hfork
  split_ifs at hwrite with hlen
  · obtain ⟨fork', hrun, hholds⟩ := writeIndexBlob_spec hcap blob
    cases hwrite.symm.trans hrun
    have S := Image.Sound.new build.m_word build.ef_word
    have hzero : (Image.new build.params).hnsw.n = 0 := rfl
    have hroom : layersOf build.params
        ((Image.new build.params).hnsw.n + (counts build.rows).1) < 2 ^ 32 := by
      rw [hzero, Nat.zero_add]
      exact hfit
    have A := (S.addAll build.words hroom).elim hbuilt
    have hgeneration : image.generation = firstGeneration := A.generation_eq
    refine ⟨image, ⟨?_, A.sound, ?_, hgeneration, ⟨blob, 0, henc, hlen, ?_⟩, fun b => rfl⟩,
      hbuilt, A⟩
    · unfold Build.inMemory
      rw [hbuilt]
      rfl
    · rw [A.n_eq S, hzero, Nat.zero_add]
      simp [nodes, Cluster.start, IndexEvent.written]
    · rw [hgeneration, List.replicate_zero, List.append_nil]
      exact hholds
  · cases hwrite

namespace Invariant

variable (I : Invariant build s image)
include I

/-- One backend goes on. -/
theorem setBackend (b : Nat) {t : Transaction}
    (h : Slot build.params image s.rewrites t.nest t.write) :
    Invariant build (s.setBackend b t) image := by
  refine { I with slots := fun b' => ?_ }
  rcases eq_or_ne b' b with rfl | hne
  · simpa [Cluster.setBackend] using h
  · simpa [Cluster.setBackend, Function.update_of_ne hne] using I.slots b'

theorem idle (b : Nat) : Invariant build (s.setBackend b .idle) image := I.setBackend b rfl

/-- The fork is rewritten. -/
theorem store {image' : Image} {e : IndexEvent} {fork : Fork capacity}
    (happly : image.apply build.arity e = .ok image') (S : image'.Sound build.params)
    (hn : image'.hnsw.n = image.hnsw.n + (counts e.rows).1)
    (hgeneration : image'.generation = image.generation + 1) (stores : Stores fork image') :
    Invariant build (s.store fork e) image' where
  history_eq := Build.inMemory_concat I.history_eq happly
  sound := S
  n_eq := by
    rw [hn, I.n_eq]
    simp only [nodes, Cluster.store, IndexEvent.written_concat, Row.counts_append]
    omega
  generation_eq := by
    rw [hgeneration, I.generation_eq, generationAt_succ]
    rfl
  stores := stores
  slots b := (I.slots b).later (hn ▸ Nat.le_add_right _ _)

/-- What a flush that returned has stored. -/
theorem flushed (hcap : metaSize ≤ capacity) (hfew : s.rewrites < 2 ^ 64) {b : Nat}
    (hfit : s.Fits build (.commit b)) {fork? : Option (Fork capacity)}
    (hrun : flushPending build.arity s.fork (s.backends b).write = .ok fork?) :
    match fork? with
    | none => (s.backends b).nest.all = []
    | some fork => (s.backends b).nest.all ≠ [] ∧ ∃ grown,
        image.addAll (s.backends b).nest.all = .ok grown ∧
        Added build.params image (s.backends b).nest.all grown ∧
        Stores fork (image.rewrite grown) := by
  have hroom : layersOf build.params
      (image.hnsw.n + (counts (s.backends b).nest.all).1) < 2 ^ 32 := by
    rw [I.n_eq]
    exact hfit
  unfold flushPending at hrun
  rw [Outcome.bind_eq_ok] at hrun
  obtain ⟨write, hsettle, hrun⟩ := hrun
  have R : Ready build.params image s.rewrites (s.backends b).nest write :=
    (I.slots b).settle hcap I.stores I.sound I.generation_eq hroom hsettle
  cases write with
  | none =>
    cases hrun
    exact R
  | some w =>
    simp only [Outcome.bind_eq_ok] at hrun
    obtain ⟨fork, hflush, hdone⟩ := hrun
    cases hdone
    exact ⟨R.1, R.flush hcap I.stores I.sound I.generation_eq hfew hroom hflush⟩

theorem flush (hcap : metaSize ≤ capacity) (hfew : s.rewrites < 2 ^ 64) {b : Nat}
    {after : Transaction} (hafter : after.write = none ∧ after.nest.all = [])
    (hfit : s.Fits build (.commit b)) (a : ClusterAction) :
    ∃ image', Invariant build (s.flush build.arity b after) image' ∧
      Advance build s image (s.flush build.arity b after) image' a := by
  have hempty : ∀ image rewrites, Slot build.params image rewrites after.nest after.write := by
    intro image rewrites
    rw [hafter.1]
    exact hafter.2
  unfold Cluster.flush
  cases hrun : flushPending build.arity s.fork (s.backends b).write with
  | error fault =>
    simp only [hrun]
    exact ⟨image, I.idle b, .still rfl rfl rfl⟩
  | ok fork? =>
    simp only [hrun]
    have hflushed := I.flushed hcap hfew hfit hrun
    cases fork? with
    | none => exact ⟨image, I.setBackend b (hempty _ _), .still rfl rfl rfl⟩
    | some fork =>
      -- the rows kept are one batch of the history
      obtain ⟨hrows, grown, hadd, A, stores⟩ := hflushed
      have happly : image.apply build.arity (.batch (s.backends b).nest.all) =
          .ok (image.rewrite grown) := by
        unfold Image.apply
        dsimp only
        rw [hadd]
        rfl
      have S : (image.rewrite grown).Sound build.params :=
        ⟨A.sound.kept, A.sound.paced, A.sound.tids_len, A.sound.words⟩
      exact ⟨_, (I.setBackend b (hempty _ _)).store happly S (A.n_eq I.sound) rfl stores,
        .batch hrows hadd A rfl rfl rfl⟩

/-- **Every step keeps the invariant**, while the generation has not wrapped. -/
theorem next (hcap : metaSize ≤ capacity) (hfew : s.rewrites < 2 ^ 64) (a : ClusterAction)
    (hfit : s.Fits build a) :
    ∃ image', Invariant build (s.next build.arity a) image' ∧
      Advance build s image (s.next build.arity a) image' a := by
  cases a with
  | insert b row =>
    have hroom : layersOf build.params (image.hnsw.n +
        (counts ((s.backends b).nest.all ++ [row.toRow])).1) < 2 ^ 32 := by
      rw [I.n_eq]
      exact hfit
    unfold Cluster.next
    cases hrun : pendingInsert build.arity s.fork (s.backends b).write row.toRow with
    | error fault =>
      simp only [hrun]
      exact ⟨image, I.idle b, .still rfl rfl rfl⟩
    | ok w =>
      simp only [hrun]
      have hslot := (I.slots b).insert hcap I.stores I.sound I.generation_eq row.attrs_word hroom
        hrun
      exact ⟨image, I.setBackend b hslot, .still rfl rfl rfl⟩
  | settle b =>
    have hroom : layersOf build.params
        (image.hnsw.n + (counts (s.backends b).nest.all).1) < 2 ^ 32 := by
      rw [I.n_eq]
      exact hfit
    unfold Cluster.next
    cases hrun : settlePending build.arity s.fork (s.backends b).write with
    | error fault =>
      simp only [hrun]
      exact ⟨image, I.idle b, .still rfl rfl rfl⟩
    | ok write =>
      simp only [hrun]
      have R := (I.slots b).settle hcap I.stores I.sound I.generation_eq hroom hrun
      exact ⟨image, I.setBackend b R.slot, .still rfl rfl rfl⟩
  | savepoint b =>
    refine ⟨image, I.setBackend b ((I.slots b).mark ?_ fun w O T => ?_), .still rfl rfl rfl⟩
    · rw [Nest.all_opened]
    · exact ⟨O.opened, T.opened O⟩
  | release b =>
    unfold Cluster.next
    dsimp only
    by_cases houter : (s.backends b).nest.outer = []
    · -- no savepoint is open
      rw [if_pos houter]
      exact ⟨image, I, .still rfl rfl rfl⟩
    · rw [if_neg houter]
      refine ⟨image, I.setBackend b ((I.slots b).mark ?_ fun w O T => ?_), .still rfl rfl rfl⟩
      · rw [Nest.all_released]
      · exact ⟨O.released, T.released⟩
  | rollback b =>
    unfold Cluster.next
    dsimp only
    by_cases houter : (s.backends b).nest.outer = []
    · rw [if_pos houter]
      exact ⟨image, I, .still rfl rfl rfl⟩
    · rw [if_neg houter]
      refine ⟨image, I.setBackend b ((I.slots b).mark ?_ fun w O T => ?_), .still rfl rfl rfl⟩
      · rw [Nest.all_rolledBack houter]
        exact Nest.before_prefix _ _
      · have hsized : (w.applyMarkEvent .abortSub).sized = w.sized.rolledBack := by
          rw [PendingWrite.abortSub_eq]
          rfl
        rw [hsized]
        exact ⟨O.rolledBack, T.rolledBack O houter⟩
  | writeBack b => exact I.flush hcap hfew ⟨rfl, Nest.all_cleared _⟩ hfit _
  | commit b => exact I.flush hcap hfew ⟨rfl, rfl⟩ hfit _
  | abort b => exact ⟨image, I.idle b, .still rfl rfl rfl⟩
  | vacuum isDead =>
    unfold Cluster.next
    cases hrun : bulkDelete build.arity s.fork isDead with
    | error fault =>
      simp only [hrun]
      exact ⟨image, I, .still rfl rfl rfl⟩
    | ok fork? =>
      obtain ⟨image', hvac, S, hn, hleft⟩ := I.stores.vacuum hcap I.sound hrun
      cases fork? with
      | none =>
        -- nothing was dead: the pages are not rewritten, and neither is the generation
        simp only [hrun]
        cases hleft
        refine ⟨image, { I with history_eq := ?_, n_eq := ?_ },
          .vacuum hvac rfl (Nat.le_succ _)⟩
        · exact Build.inMemory_concat I.history_eq hvac
        · rw [I.n_eq]
          simp [nodes, IndexEvent.written_concat, IndexEvent.rows]
      | some fork =>
        simp only [hrun]
        obtain ⟨stores, hgeneration⟩ := hleft
        refine ⟨image', I.store hvac S ?_ hgeneration stores, .vacuum hvac rfl le_rfl⟩
        rw [hn]
        rfl

end Invariant

end Cluster

end

end Brindle
