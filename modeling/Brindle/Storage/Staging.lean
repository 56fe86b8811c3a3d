/-
# Brindle.Storage.Staging — what each call does to the slot.

One specification a function: the slot and the image after the call when it returns, and the state it
leaves when it raises. The savepoint bookkeeping of a write is `Rewind` at pairs of counts, so what a
subtransaction boundary does to a write is read off that library; the rows that survive an
outstanding rewind are the staged rows up to its level.
-/
import Mathlib.Order.Lattice.Nat
import Mathlib.Order.Nat
import Brindle.Lib.Rewind
import Brindle.Storage.ImageSpec
import Brindle.Storage.Session

namespace Brindle

open Outcome (fail panicked starved)
open Rewind (Sized)
open Run (After)

/-! ## Marks -/

namespace PendingWrite

/-- The counts, the outstanding rewind and the marks of a write. -/
def sized (w : PendingWrite) : Sized (Nat × Nat) := ⟨w.staged, w.rewindTo, w.marks⟩

/-- The same staged rows under other bookkeeping. -/
def withSized (w : PendingWrite) (m : Sized (Nat × Nat)) : PendingWrite :=
  { w with marks := m.marks, rewindTo := m.cut }

theorem abortSub_eq (w : PendingWrite) :
    w.applyMarkEvent .abortSub = w.withSized w.sized.rolledBack := by
  have hif : ∀ mark : Nat × Nat, (if mark.1 < w.staged.1 ∨ mark.2 < w.staged.2 then
      some (minPair (w.rewindTo.getD mark) mark) else w.rewindTo) =
      if w.staged ≤ mark then w.rewindTo else some (w.rewindTo.getD mark ⊓ mark) := by
    intro mark
    by_cases hle : w.staged ≤ mark
    · rw [if_pos hle, if_neg]
      have hle := Prod.le_def.mp hle
      omega
    · rw [if_neg hle, if_pos]
      · rfl
      · rw [Prod.le_def] at hle
        omega
  have hmark : w.sized.top = w.marks.headD (0, 0) := rfl
  show { w with marks := _, rewindTo := _ } = w.withSized w.sized.rolledBack
  rw [hif]
  rfl

/-- The staged rows an outstanding rewind keeps. -/
def survivingRows (w : PendingWrite) : List GraphRow := w.stagedRows.take w.sized.level.1

def survivingUnrankable (w : PendingWrite) : List UnrankableRow :=
  w.stagedUnrankable.take w.sized.level.2

/-- A write as the code keeps it. -/
structure Kept (w : PendingWrite) : Prop extends w.Coherent where
  ordered : w.sized.Ordered

namespace Kept

variable {w : PendingWrite} (K : w.Kept)
include K

/-- Only the bookkeeping changes at a boundary. -/
theorem withSized {m : Sized (Nat × Nat)} (O : m.Ordered) (hcount : m.count = w.staged) :
    (w.withSized m).Kept where
  toInStep := K.toInStep
  base_le := K.base_le
  baseUnrankable_le := K.baseUnrankable_le
  alive := K.alive
  ordered := by
    have hsized : (w.withSized m).sized = m := by
      show Sized.mk w.staged m.cut m.marks = m
      rw [← hcount]
    rw [hsized]
    exact O

theorem applyMarkEvent (event : SubXactEvent) : (w.applyMarkEvent event).Kept := by
  cases event with
  | startSub => exact K.withSized K.ordered.opened rfl
  | commitSub => exact K.withSized K.ordered.released rfl
  | abortSub =>
    rw [abortSub_eq]
    exact K.withSized K.ordered.rolledBack rfl

/-- Rolling back a subtransaction that has just begun changes nothing. -/
theorem abort_start : (w.applyMarkEvent .startSub).applyMarkEvent .abortSub = w := by
  rw [abortSub_eq]
  show w.withSized w.sized.opened.rolledBack = w
  rw [K.ordered.rolledBack_opened]
  rfl

/-- Rolling back past a released subtransaction rolls back both. -/
theorem abort_commit : (w.applyMarkEvent .commitSub).applyMarkEvent .abortSub =
    (w.applyMarkEvent .abortSub).applyMarkEvent .abortSub := by
  rw [abortSub_eq, abortSub_eq, abortSub_eq]
  show w.withSized w.sized.released.rolledBack = w.withSized w.sized.rolledBack.rolledBack
  rw [K.ordered.rolledBack_released]

end Kept

end PendingWrite

/-! ## Calls that raise -/

/-- A call that returns gives `ok`, one that raises leaves `bad` behind. -/
def Ends {α : Type} (call : Outcome Raised α) (ok : α → Prop) (bad : World → Prop) : Prop :=
  match call with
  | .ok a => ok a
  | .error (.error raised) => bad raised.world
  | .error _ => True

namespace Ends

variable {α β : Type} {ok ok' : α → Prop} {bad bad' : World → Prop}

theorem bind {call : Outcome Raised α} {next : α → Outcome Raised β} {done : β → Prop}
    (h : Ends call ok bad) (hnext : ∀ a, ok a → Ends (next a) done bad) :
    Ends (call >>= next) done bad := by
  cases call with
  | ok a => exact hnext a h
  | error fault =>
    cases fault with
    | error raised => exact h
    | panic => trivial
    | fuel => trivial

theorem mono {call : Outcome Raised α} (h : Ends call ok bad) (hok : ∀ a, ok a → ok' a)
    (hbad : ∀ world, bad world → bad' world) : Ends call ok' bad' := by
  cases call with
  | ok a => exact hok a h
  | error fault =>
    cases fault with
    | error raised => exact hbad raised.world h
    | panic => trivial
    | fuel => trivial

/-- An error raised from `world` leaves `world` behind. -/
theorem raising {world : World} {x : Outcome StorageError α} (h : After ok x) (hbad : bad world) :
    Ends (world.raising x) ok bad := by
  cases x with
  | ok a => exact h
  | error fault =>
    cases fault with
    | error e => exact hbad
    | panic => trivial
    | fuel => trivial

/-- The pages of a relation are touched first. -/
theorem access {world : World} (works : Bool) (hbad : bad world) :
    Ends (world.raising (World.access works)) (fun _ => True) bad := by
  refine raising ?_ hbad
  cases works <;> trivial

/-- A load that returns gives the image itself. -/
theorem load {world : World} {image : Image} (arity : Nat) (hbad : bad world) :
    Ends (world.raising (image.load arity)) (fun loaded => loaded = image) bad :=
  raising (Run.after_iff.mpr fun _ hload => (load_eq hload).1) hbad

end Ends

/-! ## Settling -/

/-- `w'` is `w` with its rewind carried out on `image`. -/
structure Resettled (image : Image) (w w' : PendingWrite) : Prop where
  coherent : w'.Coherent
  rows_eq : w'.stagedRows = w.survivingRows
  unrankable_eq : w'.stagedUnrankable = w.survivingUnrankable
  indexOid_eq : w'.indexOid = w.indexOid
  marks_eq : w'.marks = w.marks
  rewindTo_eq : w'.rewindTo = none
  baseGeneration_eq : w'.baseGeneration = image.generation
  extends_image : w'.Extends image

/-- What settling makes of a slot that holds `w`. -/
inductive Settled (world : World) (w : PendingWrite) : Option PendingWrite → Prop where
  | kept (hrewind : w.rewindTo = none) : Settled world w (some w)
  /-- Nothing staged survives. -/
  | dropped (hrewind : w.rewindTo = some (0, 0)) : Settled world w none
  /-- The index is gone. -/
  | gone {mark : Nat × Nat} (hrewind : w.rewindTo = some mark) (hmark : mark ≠ (0, 0))
      (hgone : world.catalog w.indexOid = none) : Settled world w none
  | again {mark : Nat × Nat} {file : Nat} {w' : PendingWrite} (hrewind : w.rewindTo = some mark)
      (hmark : mark ≠ (0, 0)) (hfile : world.catalog w.indexOid = some file)
      (hagain : Resettled (world.disk w.indexOid file) w w') : Settled world w (some w')

namespace PendingWrite

theorem Coherent.staged_eq {w : PendingWrite} (C : w.Coherent) :
    w.staged = (w.stagedRows.length, w.stagedUnrankable.length) := by
  rw [C.length_stagedRows]
  rfl

namespace Kept

variable {w : PendingWrite} (K : w.Kept)
include K

theorem level_le : w.sized.level ≤ w.staged := K.ordered.level_le

theorem length_survivingRows : w.survivingRows.length = w.sized.level.1 := by
  have hle := (Prod.le_def.mp K.level_le).1
  rw [K.toCoherent.staged_eq] at hle
  exact List.length_take_of_le hle

theorem length_survivingUnrankable : w.survivingUnrankable.length = w.sized.level.2 := by
  have hle := (Prod.le_def.mp K.level_le).2
  exact List.length_take_of_le hle

end Kept

end PendingWrite

theorem Resettled.sized_eq {image : Image} {w w' : PendingWrite} (R : Resettled image w w')
    (K : w.Kept) : w'.sized = ⟨w.sized.level, none, w.marks⟩ := by
  have hstaged : w'.staged = w.sized.level := by
    rw [R.coherent.staged_eq, R.rows_eq, R.unrankable_eq, K.length_survivingRows,
      K.length_survivingUnrankable]
  show Sized.mk w'.staged w'.rewindTo w'.marks = _
  rw [hstaged, R.rewindTo_eq, R.marks_eq]

theorem Resettled.kept {image : Image} {w w' : PendingWrite} (R : Resettled image w w')
    (K : w.Kept) : w'.Kept where
  toCoherent := R.coherent
  ordered := by
    rw [R.sized_eq K]
    exact K.ordered.settled

/-- The surviving rows of `w` appended to a copy of `image`. -/
theorem resettled_of {image : Image} (V : image.Valid) {w : PendingWrite} (K : w.Kept)
    {mark : Nat × Nat} (hlevel : w.sized.level = mark) {hnsw : Hnsw} {tids : List TidPair}
    (T : InStep hnsw tids) (htable : tableRows hnsw tids = image.graphRows ++ w.survivingRows) :
    Resettled image w
      { PendingWrite.ofImage w.indexOid image with
        hnsw
        tids
        unrankable := image.unrankable ++ w.stagedUnrankable.take mark.2
        marks := w.marks } := by
  have hlen : image.graphRows.length = image.hnsw.n := V.length_tableRows
  have hn : image.hnsw.n ≤ hnsw.n := by
    have hcount := congrArg List.length htable
    rw [T.length_tableRows, List.length_append, hlen] at hcount
    omega
  have hdrop : (tableRows hnsw tids).drop image.hnsw.n = w.survivingRows := by
    rw [htable, List.drop_left' hlen]
  have hunr : w.survivingUnrankable = w.stagedUnrankable.take mark.2 := by
    rw [PendingWrite.survivingUnrankable, hlevel]
  refine ⟨⟨T, hn, ?_, ?_⟩, hdrop, ?_, rfl, rfl, rfl, rfl, ⟨?_, ?_⟩⟩
  · simp [PendingWrite.ofImage]
  · intro row hrow
    have hrow : row ∈ (tableRows hnsw tids).drop image.hnsw.n := hrow
    rw [hdrop] at hrow
    exact K.alive row (List.mem_of_mem_take hrow)
  · rw [hunr]
    exact List.drop_left
  · show (tableRows hnsw tids).take image.hnsw.n = image.graphRows
    rw [htable]
    exact List.take_left' hlen
  · exact List.take_left

namespace World

variable {world : World}

theorem setPending_self {p : Option PendingWrite} (h : world.pending = p) :
    world.setPending p = world := by
  rw [← h]
  rfl

variable [Arith]

theorem resettle_spec (works : Bool) (hslot : world.pending = none) {w : PendingWrite}
    (K : w.Kept) {mark : Nat × Nat} (hrewind : w.rewindTo = some mark) (hmark : mark ≠ (0, 0))
    (hvalid : ∀ oid file, (world.disk oid file).Valid) :
    Ends (world.resettle works w mark)
      (fun world' => ∃ p, Settled world w p ∧ world' = world.setPending p)
      (fun world' => world' = world) := by
  have hlevel : w.sized.level = mark := by
    show w.rewindTo.getD w.staged = mark
    rw [hrewind]
    rfl
  have hle : w.baseN + mark.1 ≤ w.hnsw.n := by
    have hle := (Prod.le_def.mp K.level_le).1
    rw [hlevel] at hle
    have hlen : w.staged.1 = w.hnsw.n - w.baseN := List.length_range'
    have hbase := K.base_le
    omega
  obtain ⟨survivors, hread, hrows⟩ := K.toCoherent.survivors_spec hle
  unfold resettle
  rw [hread]
  refine Ends.bind (show Ends (.ok survivors) (· = survivors) (· = world) from rfl) ?_
  intro rows hsame
  subst hsame
  cases hfile : world.catalog w.indexOid with
  | none => exact ⟨none, Settled.gone hrewind hmark hfile, (setPending_self hslot).symm⟩
  | some file =>
    have V := hvalid w.indexOid file
    refine Ends.bind (Ends.access works rfl) fun _ _ => ?_
    refine Ends.bind (Ends.load _ rfl) ?_
    intro image himage
    subst himage
    have T₀ : InStep ((world.disk w.indexOid file).hnsw, (world.disk w.indexOid file).tids).1
        ((world.disk w.indexOid file).hnsw, (world.disk w.indexOid file).tids).2 := V
    refine Ends.bind (Ends.raising (appendRows_spec T₀ rows) rfl) ?_
    rintro ⟨hnsw, tids⟩ ⟨T, htable⟩
    have hsurvive : rows.map liveRow = w.survivingRows := by
      rw [hrows, PendingWrite.survivingRows, hlevel]
    rw [hsurvive] at htable
    exact ⟨_, Settled.again hrewind hmark hfile (resettled_of V K hlevel T htable), rfl⟩

/-- **Settling**: a rewind is carried out on the stored image; a call that raises has emptied the
slot, which held a rewind that keeps some rows. -/
theorem settlePending_spec (works : Bool) {w : PendingWrite} (hw : world.pending = some w)
    (K : w.Kept) (hvalid : ∀ oid file, (world.disk oid file).Valid) :
    Ends (world.settlePending works)
      (fun world' => ∃ p, Settled world w p ∧ world' = world.setPending p)
      (fun world' => world' = world.setPending none) := by
  unfold settlePending
  rw [hw]
  cases hrewind : w.rewindTo with
  | none =>
    simp only [hrewind]
    exact ⟨some w, Settled.kept hrewind, (setPending_self hw).symm⟩
  | some mark =>
    by_cases hmark : mark = (0, 0)
    · rw [hmark] at hrewind
      simp only [hrewind, if_true]
      exact ⟨none, Settled.dropped hrewind, rfl⟩
    · simp only [hrewind, if_neg hmark]
      have hslot : (world.setPending none).pending = none := rfl
      refine (resettle_spec works hslot K hrewind hmark hvalid).mono ?_ ?_
      · rintro world' ⟨p, hp, rfl⟩
        refine ⟨p, ?_, rfl⟩
        cases hp with
        | kept h => exact Settled.kept h
        | dropped h => exact Settled.dropped h
        | gone h h' h'' => exact Settled.gone h h' h''
        | again h h' h'' R => exact Settled.again h h' h'' R
      · rintro world' rfl
        rfl

/-- What a write-back makes of the stored images. -/
inductive Flushed (world : World) (w : PendingWrite) : World → Prop where
  | gone (hgone : world.catalog w.indexOid = none) : Flushed world w world
  | stored {file : Nat} {image : Image} (hfile : world.catalog w.indexOid = some file)
      (hvalid : image.Valid)
      (hrows : image.graphRows = (world.disk w.indexOid file).graphRows ++ w.stagedRows)
      (hunrankable : image.unrankable =
        (world.disk w.indexOid file).unrankable ++ w.stagedUnrankable)
      (hgeneration : image.generation = (world.disk w.indexOid file).generation + 1) :
      Flushed world w (world.store w.indexOid file image)

/-- **A write-back** appends the staged rows to the image of the file the index lives in; a call that
raises leaves the image alone. -/
theorem flushLocked_spec (works : Bool) {w : PendingWrite} (C : w.Coherent)
    (hvalid : ∀ oid file, (world.disk oid file).Valid)
    (hbase : ∀ file, world.catalog w.indexOid = some file →
      (world.disk w.indexOid file).generation = w.baseGeneration →
        w.Extends (world.disk w.indexOid file)) :
    Ends (world.flushLocked works (some w)) (Flushed world w) (fun world' => world' = world) := by
  unfold flushLocked
  dsimp only
  cases hfile : world.catalog w.indexOid with
  | none => exact Flushed.gone hfile
  | some file =>
    refine Ends.bind (Ends.access works rfl) fun _ _ => ?_
    refine Ends.bind (Ends.raising (C.writeBack_spec _ (hvalid w.indexOid file)
      (hbase file hfile)) rfl) ?_
    rintro image ⟨V, hrows, hunr, hgen⟩
    exact Flushed.stored hfile V hrows hunr hgen

omit [Arith] in
/-- Loading an empty slot copies the stored image. -/
theorem loadPending_spec (works : Bool) (oid : Oid) (hslot : world.pending = none) :
    Ends (world.loadPending works oid)
      (fun r => ∃ file, world.catalog oid = some file ∧
        r.1 = world.setPending (some r.2) ∧
        r.2 = PendingWrite.ofImage oid (world.disk oid file))
      (fun world' => world' = world) := by
  unfold loadPending
  rw [hslot]
  dsimp only
  cases hfile : world.catalog oid with
  | none => exact rfl
  | some file =>
    refine Ends.bind (Ends.access works rfl) fun _ _ => ?_
    refine Ends.bind (Ends.load _ rfl) ?_
    intro image himage
    subst himage
    exact ⟨file, rfl, rfl, rfl⟩

/-- Staging a row fills the slot with a write of one row more; a row the graph refuses leaves the
slot filled with the same rows. -/
theorem stageRow_spec {w : PendingWrite} (hslot : world.pending = some w) (C : w.Coherent)
    (row : Row) :
    Ends (world.stageRow w row.vector row.attrs row.tid)
      (fun world' => ∃ w', w.Stages w' row.graph?.toList row.vectorless?.toList ∧
        world' = world.setPending (some w'))
      (fun world' => ∃ w', w.Stages w' [] [] ∧ world' = world.setPending (some w')) := by
  unfold stageRow
  obtain ⟨vector, attrs, tid⟩ := row
  cases vector with
  | none => exact ⟨_, C.stageUnrankable_spec attrs tid, rfl⟩
  | some vector =>
    refine Ends.bind (Ends.raising (C.stageVector_spec vector attrs tid)
      ⟨w, C.stages_refl, (setPending_self hslot).symm⟩) ?_
    rintro ⟨w', raised⟩ hstages
    cases raised with
    | ok u => exact ⟨w', hstages, rfl⟩
    | error e => exact ⟨w', hstages, rfl⟩

end World

namespace PendingWrite

/-- A write with more rows staged keeps its marks, once no rewind is outstanding. -/
theorem Stages.kept {w w' : PendingWrite} {rows : List GraphRow}
    {unrankable : List UnrankableRow} (S : w.Stages w' rows unrankable) (K : w.Kept)
    (hrewind : w.rewindTo = none) : w'.Kept where
  toCoherent := S.coherent
  ordered := by
    have hle : w.sized.count ≤ w'.staged := by
      show w.staged ≤ w'.staged
      rw [K.toCoherent.staged_eq, S.coherent.staged_eq, S.rows_eq, S.unrankable_eq,
        List.length_append, List.length_append]
      exact Prod.le_def.mpr ⟨Nat.le_add_right _ _, Nat.le_add_right _ _⟩
    have hsized : w'.sized = { w.sized with count := w'.staged } := by
      show Sized.mk w'.staged w'.rewindTo w'.marks = ⟨w'.staged, w.rewindTo, w.marks⟩
      rw [S.rewindTo_eq, S.marks_eq]
    rw [hsized]
    exact K.ordered.grown hrewind hle

theorem kept_ofImage {image : Image} (V : image.Valid) (oid : Oid) : (ofImage oid image).Kept where
  toCoherent := coherent_ofImage V oid
  ordered := Rewind.Sized.ordered_fresh _

end PendingWrite

/-! ## A build, row by row -/

namespace Image

/-- The image a build starts from. -/
def new [Arith] (params : HnswParams) : Image := ⟨Hnsw.new params, [], [], firstGeneration⟩

/-- One row of a build. -/
def add [Arith] (image : Image) (row : Row) : Outcome StorageError Image :=
  match row.vector with
  | none => return { image with unrankable := image.unrankable ++ [(row.tid, row.attrs)] }
  | some vector => do
    match ← (image.hnsw.insertWithAttrs vector row.attrs).mapError .hnsw with
    | (hnsw, .ok _) => return { image with hnsw, tids := image.tids ++ [row.tid] }
    | (_, .error e) => fail (.hnsw e)

/-- Rows one after another. -/
def addAll [Arith] (image : Image) (rows : List Row) : Outcome StorageError Image :=
  rows.foldlM add image

/-- `image'` is `image` with more rows. -/
structure Extended (image : Image) (rows : List Row) (image' : Image) : Prop where
  valid : image'.Valid
  rows_eq : image'.graphRows = image.graphRows ++ rows.filterMap Row.graph?
  unrankable_eq : image'.unrankable = image.unrankable ++ rows.filterMap Row.vectorless?

theorem Extended.append {image image' image'' : Image} {rows rows' : List Row}
    (E : image.Extended rows image') (E' : image'.Extended rows' image'') :
    image.Extended (rows ++ rows') image'' where
  valid := E'.valid
  rows_eq := by rw [E'.rows_eq, E.rows_eq, List.append_assoc, ← List.filterMap_append]
  unrankable_eq := by
    rw [E'.unrankable_eq, E.unrankable_eq, List.append_assoc, ← List.filterMap_append]

variable [Arith] {image : Image}

theorem valid_new (params : HnswParams) : (new params).Valid :=
  ⟨(Hnsw.WellFormed.new params).toSound.rowed, rfl⟩

/-- A row goes into the table of its kind. -/
theorem Valid.add (V : image.Valid) (row : Row) : After (image.Extended [row]) (image.add row) := by
  obtain ⟨vector, attrs, tid⟩ := row
  cases vector with
  | none => exact ⟨V, (List.append_nil _).symm, rfl⟩
  | some vector =>
    unfold Image.add
    dsimp only
    cases hrun : (image.hnsw.insertWithAttrs vector attrs).mapError StorageError.hnsw with
    | error fault => trivial
    | ok r =>
      obtain ⟨hnsw, inserted⟩ := r
      have hins := (Hnsw.insertWithAttrs_rows V.rowed vector attrs).elim
        (Outcome.mapError_eq_ok.mp hrun)
      cases inserted with
      | error e => trivial
      | ok id =>
        obtain ⟨G, hid, hrows⟩ := hins
        have hn : hnsw.n = image.hnsw.n + 1 := by
          have hlen := congrArg List.length hrows
          simpa using hlen
        obtain ⟨T, htable⟩ := InStep.append V G hn hrows tid
        exact ⟨T, htable, (List.append_nil _).symm⟩

/-- Rows are added in order. -/
theorem Valid.addAll (V : image.Valid) (rows : List Row) :
    After (image.Extended rows) (image.addAll rows) := by
  refine Run.after_foldlM (fun done image' => image.Extended done image') rows ?_
    ⟨V, (List.append_nil _).symm, (List.append_nil _).symm⟩
  intro done row image' _ E
  exact (E.valid.add row).mono fun image'' E' => E.append E'

end Image

end Brindle
