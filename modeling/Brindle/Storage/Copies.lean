/-
# Brindle.Storage.Copies — an index in memory, and copies of it that went through their bytes.

`Image.add` is one row of a build. An index held in memory takes rows one at a time; a copy of it,
decoded from the stored blob, has a twin of its graph and the same tables. Rows added to a copy, rows
replayed onto it and a vacuum of it do to the copy what they do to the index in memory, so that the
two encode to the same bytes afterwards.
-/
import Brindle.Hnsw.Paced
import Brindle.Storage.PayloadSpec
import Brindle.Storage.Staging

namespace Brindle

open Outcome (Ensures fail)
open Run (After after_iff after_foldlM)
open Hnsw (Kept Paced Twins Grown layersOf)

namespace Row

/-- The row as a replay hands it on. -/
def ranked? (row : Row) : Option (List F32 × List AttrValue × TidPair) :=
  row.vector.map fun vector => (vector, row.attrs, row.tid)

theorem graph?_eq (row : Row) : row.graph? = row.ranked?.map liveRow := by
  obtain ⟨vector, attrs, tid⟩ := row
  cases vector <;> rfl

/-- How many rows of each kind there are. -/
def counts (rows : List Row) : Nat × Nat :=
  ((rows.filterMap graph?).length, (rows.filterMap vectorless?).length)

theorem counts_append (rows rows' : List Row) :
    counts (rows ++ rows') = ((counts rows).1 + (counts rows').1,
      (counts rows).2 + (counts rows').2) := by
  simp [counts, List.filterMap_append]

/-- A row is of one kind or the other. -/
theorem counts_sum (rows : List Row) : (counts rows).1 + (counts rows).2 = rows.length := by
  induction rows with
  | nil => rfl
  | cons row rows ih =>
    have hone : (counts [row]).1 + (counts [row]).2 = 1 := by
      obtain ⟨vector, attrs, tid⟩ := row
      cases vector <;> rfl
    rw [show row :: rows = [row] ++ rows from rfl, counts_append, List.length_append,
      List.length_singleton]
    dsimp only
    omega

theorem counts_eq_zero {rows : List Row} : counts rows = (0, 0) ↔ rows = [] := by
  constructor
  · intro h
    have hsum := counts_sum rows
    rw [h] at hsum
    exact List.length_eq_zero_iff.mp hsum.symm
  · rintro rfl
    rfl

end Row

open Row (counts)

/-- The blob of an image. -/
def Image.encode (image : Image) : Outcome HnswError (List UInt8) :=
  encodeIndex image.hnsw image.tids image.unrankable

section

variable [Arith]

/-- An image grown from `new`: its graph kept and paced, its tables in step. -/
structure Image.Sound (params : HnswParams) (image : Image) : Prop where
  kept : Kept image.hnsw
  paced : Paced params image.hnsw
  tids_len : image.tids.length = image.hnsw.n
  words : ∀ row ∈ image.unrankable, row.2.length < 2 ^ 64

omit [Arith] in
/-- The same index, up to unused slots of the graph. -/
structure Image.Same (image copy : Image) : Prop where
  twins : Twins image.hnsw copy.hnsw
  tids_eq : copy.tids = image.tids
  unrankable_eq : copy.unrankable = image.unrankable

namespace Image

variable {params : HnswParams} {image copy : Image}

theorem Sound.new {params : HnswParams} (hm : params.m < 2 ^ 64)
    (hef : params.efConstruction < 2 ^ 64) : (Image.new params).Sound params where
  kept := ⟨Hnsw.WellFormed.new _, Hnsw.Configured.new hm hef⟩
  paced := Paced.new params
  tids_len := rfl
  words := nofun

theorem Sound.valid (S : image.Sound params) : image.Valid :=
  ⟨S.kept.1.toSound.rowed, S.tids_len⟩

theorem Sound.length_graphRows (S : image.Sound params) : image.graphRows.length = image.hnsw.n :=
  S.valid.length_tableRows

theorem Sound.of_same (S : image.Sound params) (T : image.Same copy) : copy.Sound params where
  kept := S.kept.twins T.twins
  paced := S.paced.twins T.twins
  tids_len := by rw [T.tids_eq, T.twins.n_eq, S.tids_len]
  words := by
    rw [T.unrankable_eq]
    exact S.words

omit [Arith] in
theorem Same.graphRows_eq (T : image.Same copy) : copy.graphRows = image.graphRows := by
  have hrows : copy.hnsw.rows = image.hnsw.rows := T.twins.field Hnsw.rows fun _ _ => rfl
  unfold graphRows tableRows
  rw [hrows, T.tids_eq]

/-- **A copy has the same bytes.** -/
theorem Same.encode_eq (S : image.Sound params) (T : image.Same copy) :
    copy.encode = image.encode := by
  unfold encode
  rw [T.tids_eq, T.unrankable_eq]
  exact T.twins.encodeIndex_eq S.kept _ _

/-! ## Adding rows -/

/-- What adding rows leaves. -/
structure Added (params : HnswParams) (image : Image) (rows : List Row) (image' : Image) :
    Prop where
  sound : image'.Sound params
  rows_eq : image'.graphRows = image.graphRows ++ rows.filterMap Row.graph?
  unrankable_eq : image'.unrankable = image.unrankable ++ rows.filterMap Row.vectorless?
  generation_eq : image'.generation = image.generation

theorem Added.n_eq {rows : List Row} {image' : Image} (A : Added params image rows image')
    (S : image.Sound params) : image'.hnsw.n = image.hnsw.n + (counts rows).1 := by
  rw [← A.sound.length_graphRows, A.rows_eq, List.length_append, S.length_graphRows]
  rfl

theorem Sound.add (S : image.Sound params) {row : Row} (hrow : row.attrs.length < 2 ^ 64)
    (hroom : layersOf params (image.hnsw.n + (counts [row]).1) < 2 ^ 32) :
    After (Added params image [row]) (image.add row) := by
  obtain ⟨vector, attrs, tid⟩ := row
  cases vector with
  | none =>
    refine ⟨⟨S.kept, S.paced, S.tids_len, ?_⟩, ?_, rfl, rfl⟩
    · intro row hmem
      rcases List.mem_append.mp hmem with hold | hnew
      · exact S.words row hold
      · rw [List.mem_singleton.mp hnew]
        exact hrow
    · exact (List.append_nil _).symm
  | some vector =>
    obtain ⟨⟨hnsw, inserted⟩, hrun, K, P, hgrown⟩ :=
      S.kept.insert_grown S.paced vector hrow hroom
    have hins := (Hnsw.insertWithAttrs_rows S.valid.rowed vector attrs).elim hrun
    unfold Image.add
    dsimp only
    rw [hrun]
    cases inserted with
    | error e => trivial
    | ok id =>
      obtain ⟨hrowed, hid, hrows⟩ := hins
      obtain ⟨T, htable⟩ := S.valid.append hrowed hgrown.2 hrows tid
      exact ⟨⟨K, P, T.tids_len, S.words⟩, htable, (List.append_nil _).symm, rfl⟩

theorem Added.append {rows rows' : List Row} {image' image'' : Image}
    (A : Added params image rows image') (B : Added params image' rows' image'') :
    Added params image (rows ++ rows') image'' where
  sound := B.sound
  rows_eq := by rw [B.rows_eq, A.rows_eq, List.append_assoc, ← List.filterMap_append]
  unrankable_eq := by
    rw [B.unrankable_eq, A.unrankable_eq, List.append_assoc, ← List.filterMap_append]
  generation_eq := B.generation_eq.trans A.generation_eq

/-- The room for rows is room for the first of them, and then for the others. -/
theorem room_cons {row : Row} {rows : List Row} {n : Nat}
    (hroom : layersOf params (n + (counts (row :: rows)).1) < 2 ^ 32) :
    layersOf params (n + (counts [row]).1) < 2 ^ 32 ∧
      layersOf params (n + (counts [row]).1 + (counts rows).1) < 2 ^ 32 := by
  have hsplit : (counts (row :: rows)).1 = (counts [row]).1 + (counts rows).1 :=
    congrArg Prod.fst (Row.counts_append [row] rows)
  rw [hsplit, ← Nat.add_assoc] at hroom
  exact ⟨(Hnsw.layersOf_mono params (Nat.le_add_right _ _)).trans_lt hroom, hroom⟩

theorem Sound.addAll {rows : List Row} (S : image.Sound params)
    (hrows : ∀ row ∈ rows, row.attrs.length < 2 ^ 64)
    (hroom : layersOf params (image.hnsw.n + (counts rows).1) < 2 ^ 32) :
    After (Added params image rows) (image.addAll rows) := by
  induction rows generalizing image with
  | nil => exact ⟨S, (List.append_nil _).symm, (List.append_nil _).symm, rfl⟩
  | cons row rows ih =>
    obtain ⟨hfirst, hrest⟩ := room_cons hroom
    unfold Image.addAll
    rw [List.foldlM_cons]
    refine (S.add (hrows row List.mem_cons_self) hfirst).bind fun image' A => ?_
    rw [← A.n_eq S] at hrest
    have hrows' := fun row' hmem => hrows row' (List.mem_cons_of_mem row hmem)
    exact (ih A.sound hrows' hrest).mono fun image'' B => A.append B

/-- A row added to a copy is added to the index it is a copy of. -/
theorem Same.add (T : image.Same copy) (S : image.Sound params) {row : Row}
    (hroom : layersOf params (image.hnsw.n + (counts [row]).1) < 2 ^ 32) {copy' : Image}
    (hadd : copy.add row = .ok copy') : ∃ image', image.add row = .ok image' ∧ image'.Same copy' := by
  obtain ⟨vector, attrs, tid⟩ := row
  cases vector with
  | none =>
    cases hadd
    exact ⟨_, rfl, T.twins, T.tids_eq, by rw [T.unrankable_eq]⟩
  | some vector =>
    have hnext : image.hnsw.NextFits := S.paced.nextFits.mpr hroom
    obtain ⟨-, -, -, -, hdrawn⟩ := T.twins.scans_eq
    obtain ⟨h', g', r, hrun, hrun', T'⟩ :=
      T.twins.insertDrawn S.kept.1 vector attrs hnext
    rw [← Hnsw.insertWithAttrs_eq] at hrun
    rw [← hdrawn, ← Hnsw.insertWithAttrs_eq] at hrun'
    unfold Image.add at hadd ⊢
    dsimp only at hadd ⊢
    rw [hrun'] at hadd
    rw [hrun]
    cases r with
    | error e => cases hadd
    | ok id =>
      cases hadd
      exact ⟨_, rfl, T', by rw [T.tids_eq], T.unrankable_eq⟩

/-- **Rows added to a copy** are added to the index it is a copy of. -/
theorem Same.addAll {rows : List Row} (T : image.Same copy) (S : image.Sound params)
    (hrows : ∀ row ∈ rows, row.attrs.length < 2 ^ 64)
    (hroom : layersOf params (image.hnsw.n + (counts rows).1) < 2 ^ 32) {copy' : Image}
    (hadd : copy.addAll rows = .ok copy') :
    ∃ image', image.addAll rows = .ok image' ∧ Added params image rows image' ∧
      image'.Same copy' := by
  suffices H : ∃ image', image.addAll rows = .ok image' ∧ image'.Same copy' by
    obtain ⟨image', hadd', T'⟩ := H
    exact ⟨image', hadd', (S.addAll hrows hroom).elim hadd', T'⟩
  induction rows generalizing image copy with
  | nil =>
    cases hadd
    exact ⟨image, rfl, T⟩
  | cons row rows ih =>
    obtain ⟨hfirst, hrest⟩ := room_cons hroom
    unfold Image.addAll at hadd ⊢
    rw [List.foldlM_cons, Outcome.bind_eq_ok] at hadd
    obtain ⟨copy₁, hone, hadd⟩ := hadd
    obtain ⟨image₁, hone', T₁⟩ := T.add S hfirst hone
    have A := (S.add (hrows row List.mem_cons_self) hfirst).elim hone'
    rw [← A.n_eq S] at hrest
    have hrows' := fun row' hmem => hrows row' (List.mem_cons_of_mem row hmem)
    obtain ⟨image', hadd', T'⟩ := ih T₁ A.sound hrows' hrest hadd
    refine ⟨image', ?_, T'⟩
    rw [List.foldlM_cons, hone', Outcome.ok_bind]
    exact hadd'

/-! ## Replaying -/

/-- A row that lands on its id is one row of a build. -/
theorem add_of_appendRow {image : Image} {row : Row}
    {ranked : List F32 × List AttrValue × TidPair} (hranked : row.ranked? = some ranked)
    {table : Hnsw × List TidPair} (happend : appendRow (image.hnsw, image.tids) ranked = .ok table) :
    image.add row = .ok { image with hnsw := table.1, tids := table.2 } := by
  obtain ⟨vector, attrs, tid⟩ := row
  obtain ⟨vector, rfl, rfl⟩ := Option.map_eq_some_iff.mp hranked
  unfold appendRow applyOne at happend
  simp only [Outcome.bind_eq_ok] at happend
  obtain ⟨⟨hnsw, raised⟩, ⟨⟨hnsw', inserted⟩, hrun, happlied⟩, happend⟩ := happend
  unfold Image.add
  dsimp only at happlied happend hrun ⊢
  rw [hrun]
  cases inserted with
  | error e =>
    cases happlied
    cases happend
  | ok id =>
    cases happlied
    split_ifs at happend with hid
    · cases happend
    · cases happend
      rfl

/-- **A replay adds the rows.** The graph rows and the vectorless ones are appended apart, which is
the same, since neither kind looks at the table of the other. -/
theorem addAll_of_appendRows {rows : List Row} {image : Image} {table : Hnsw × List TidPair}
    (happend : (rows.filterMap Row.ranked?).foldlM appendRow (image.hnsw, image.tids) =
      .ok table) :
    image.addAll rows = .ok
      { image with
        hnsw := table.1
        tids := table.2
        unrankable := image.unrankable ++ rows.filterMap Row.vectorless? } := by
  induction rows generalizing image with
  | nil =>
    cases happend
    simp [addAll]
    rfl
  | cons row rows ih =>
    unfold Image.addAll
    rw [List.foldlM_cons]
    cases hranked : row.ranked? with
    | none =>
      -- a row without a vector moves the side table alone
      have hvector : row.vector = none := Option.map_eq_none_iff.mp hranked
      have hadd : image.add row =
          .ok { image with unrankable := image.unrankable ++ [(row.tid, row.attrs)] } := by
        unfold Image.add
        rw [hvector]
        rfl
      have hless : row.vectorless? = some (row.tid, row.attrs) := by
        unfold Row.vectorless?
        rw [hvector]
      rw [List.filterMap_cons_none hranked] at happend
      rw [hadd, Outcome.ok_bind, List.filterMap_cons_some hless]
      have hrest := @ih { image with
        unrankable := image.unrankable ++ [(row.tid, row.attrs)] } happend
      refine hrest.trans ?_
      simp
    | some ranked =>
      have hless : row.vectorless? = none := by
        obtain ⟨vector, hvector, -⟩ := Option.map_eq_some_iff.mp hranked
        unfold Row.vectorless?
        rw [hvector]
      rw [List.filterMap_cons_some hranked, List.foldlM_cons, Outcome.bind_eq_ok] at happend
      obtain ⟨table₁, hone, happend⟩ := happend
      rw [add_of_appendRow hranked hone, Outcome.ok_bind, List.filterMap_cons_none hless]
      exact @ih { image with hnsw := table₁.1, tids := table₁.2 } happend

/-! ## Loading -/

/-- An image decoded from its blob is a copy. -/
theorem Sound.loaded (S : image.Sound params) {blob : List UInt8} (henc : image.encode = .ok blob)
    (hlen : blob.length < 2 ^ 64) {arity : Nat} {generation : UInt64}
    (hload : loadSlice arity generation blob = .ok copy) :
    image.Same copy ∧ copy.generation = generation := by
  obtain ⟨T, hcopy⟩ := S.kept.loadSlice S.words henc hlen hload
  rw [hcopy]
  exact ⟨⟨T, rfl, rfl⟩, rfl⟩

/-- What a load hands back has passed its checks. -/
theorem load_of_loadSlice {arity : Nat} {generation : UInt64} {blob : List UInt8} {loaded : Image}
    (hload : loadSlice arity generation blob = .ok loaded) : loaded.load arity = .ok loaded := by
  obtain ⟨-, _, _, _, -, -, himage⟩ := loadSlice_ok.mp hload
  cases (load_eq himage).1
  exact himage

omit [Arith] in
/-- The checks of a load see what copies share. -/
theorem Same.load (T : image.Same copy) {arity : Nat} {loaded : Image}
    (hload : copy.load arity = .ok loaded) : image.load arity = .ok image := by
  unfold Image.load at hload ⊢
  rw [T.unrankable_eq, T.tids_eq, T.twins.n_eq] at hload
  split at hload
  · cases hload
  · split_ifs at hload ⊢
    · cases hload
    · rfl

/-! ## Vacuuming -/

/-- The loop of a vacuum, over twins. -/
theorem vacuumSteps_twins {isDead : TidPair → Bool} {entries : List (TidPair × Nat)}
    {h g g' : Hnsw} (T : Twins h g) (K : Kept h) (P : Paced params h)
    (hrun : entries.foldlM (vacuumStep isDead) g = .ok g') :
    ∃ h', entries.foldlM (vacuumStep isDead) h = .ok h' ∧ Twins h' g' ∧ Kept h' ∧
      Paced params h' ∧ h'.n = h.n := by
  induction entries generalizing h g with
  | nil =>
    cases hrun
    exact ⟨h, rfl, T, K, P, rfl⟩
  | cons entry entries ih =>
    rw [List.foldlM_cons, Outcome.bind_eq_ok] at hrun
    obtain ⟨g₁, hone, hrun⟩ := hrun
    rw [List.foldlM_cons]
    by_cases hdead : isDead entry.1 = true
    · unfold vacuumStep at hone
      rw [if_pos hdead] at hone
      cases hdel : g.delete entry.2 with
      | error e =>
        rw [hdel] at hone
        cases hone
      | ok g₂ =>
        rw [hdel] at hone
        cases hone
        -- the tombstones are the same list, so the delete is in range for both
        have hdeleted : g.deleted = h.deleted := T.field Hnsw.deleted fun _ _ => rfl
        have hid := (Hnsw.delete_eq hdel).1
        rw [hdeleted] at hid
        have hdel' := Hnsw.delete_eq_ok hid
        obtain ⟨g₃, hdel'', T₁⟩ := T.delete hdel'
        cases hdel.symm.trans hdel''
        obtain ⟨h', hrun', T', K', P', hn⟩ :=
          ih T₁ ⟨K.1.delete hdel', K.2.delete hdel'⟩ (P.delete hdel') hrun
        have hstep : vacuumStep isDead h entry =
            .ok { h with deleted := h.deleted.set entry.2 true } := by
          unfold vacuumStep
          rw [if_pos hdead, hdel']
          rfl
        refine ⟨h', ?_, T', K', P', hn⟩
        rw [hstep, Outcome.ok_bind]
        exact hrun'
    · have hskip : ∀ h : Hnsw, vacuumStep isDead h entry = .ok h := by
        intro h
        unfold vacuumStep
        rw [if_neg hdead]
        rfl
      rw [hskip] at hone
      cases hone
      rw [hskip, Outcome.ok_bind]
      exact ih T K P hrun

/-- **A vacuum of a copy** is a vacuum of the index it is a copy of. -/
theorem Same.ambulkdelete (T : image.Same copy) (S : image.Sound params) {arity : Nat}
    {isDead : TidPair → Bool} {copy' : Image}
    (hvac : Brindle.ambulkdelete arity isDead copy = .ok copy') :
    ∃ image', Brindle.ambulkdelete arity isDead image = .ok image' ∧ image'.Same copy' ∧
      image'.Sound params ∧ image'.hnsw.n = image.hnsw.n ∧
      (copy'.generation = copy.generation ∧ image' = image ∨
        copy'.generation = copy.generation + 1 ∧ image'.generation = image.generation + 1) := by
  unfold Brindle.ambulkdelete at hvac ⊢
  rw [Outcome.bind_eq_ok] at hvac
  obtain ⟨loaded, hload, hvac⟩ := hvac
  cases (load_eq hload).1
  rw [Outcome.bind_eq_ok] at hvac
  obtain ⟨g, htomb, hvac⟩ := hvac
  unfold tombstoneDead at htomb
  rw [T.tids_eq] at htomb
  obtain ⟨h, hrun, T', K', P', hn⟩ := vacuumSteps_twins T.twins S.kept S.paced htomb
  have htomb' : tombstoneDead isDead image = .ok h := hrun
  have hcount : g.deletedCount = h.deletedCount := T'.field Hnsw.deletedCount fun _ _ => rfl
  have hcount' : copy.hnsw.deletedCount = image.hnsw.deletedCount :=
    T.twins.field Hnsw.deletedCount fun _ _ => rfl
  rw [T.load hload, Outcome.ok_bind, htomb', Outcome.ok_bind]
  dsimp only at hvac ⊢
  rw [hcount, hcount', T.unrankable_eq] at hvac
  split_ifs at hvac ⊢
  · cases hvac
    refine ⟨_, rfl, ⟨T', T.tids_eq, rfl⟩, ⟨K', P', ?_, ?_⟩, hn, .inr ⟨rfl, rfl⟩⟩
    · exact S.tids_len.trans hn.symm
    · exact fun row hrow => S.words row (List.mem_of_mem_filter hrow)
  · cases hvac
    exact ⟨image, rfl, T, S, rfl, .inl ⟨rfl, rfl⟩⟩

end Image

end

end Brindle
