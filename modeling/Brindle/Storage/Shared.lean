/-
# Brindle.Storage.Shared — many backends, one stored image.

Nothing is locked while a backend stages rows, so any number of backends may hold copies of images
that have been rewritten since. The machine interleaves loads, staging, aborts, write-backs and
vacuums in any order; each of the last two runs under the exclusive image lock and is one step. A
call that raises aborts the transaction that made it and leaves the image alone.

What the image should hold is read off the history of completed write-backs and vacuums: every row
of a write-back arrives when it completes, in order, and what becomes of it is decided by the vacuums
that come after.
-/
import Brindle.Storage.ImageSpec

namespace Brindle

open Run (After)
open PendingWrite (ofImage)

/-! ## The history -/

/-- A change of the stored image. -/
inductive ImageEvent where
  | flushed (rows : List GraphRow) (unrankable : List UnrankableRow)
  | vacuumed (isDead : TidPair → Bool)

namespace ImageEvent

/-- Whether the event is a vacuum that reports `tid` dead. -/
def reports (tid : TidPair) : ImageEvent → Bool
  | .flushed _ _ => false
  | .vacuumed isDead => isDead tid

/-- The graph rows an event brings. -/
def rows : ImageEvent → List GraphRow
  | .flushed rows _ => rows
  | .vacuumed _ => []

/-- The vectorless rows an event brings. -/
def unrankable : ImageEvent → List UnrankableRow
  | .flushed _ unrankable => unrankable
  | .vacuumed _ => []

/-- The rows that arrive in a history, each with the events after its arrival. -/
def arrivals {ρ : Type} (brings : ImageEvent → List ρ) :
    List ImageEvent → List (ρ × List ImageEvent)
  | [] => []
  | e :: later => (brings e).map (·, later) ++ arrivals brings later

/-- The same, with the rows that were there before the history. -/
def arrived {ρ : Type} (brings : ImageEvent → List ρ) (initial : List ρ)
    (history : List ImageEvent) : List (ρ × List ImageEvent) :=
  initial.map (·, history) ++ arrivals brings history

/-- A graph row that arrived with `later` still to come: tombstoned by a vacuum that reports it. -/
def settled (arrival : GraphRow × List ImageEvent) : GraphRow :=
  if arrival.2.any (reports arrival.1.2) then GraphRow.killed arrival.1 else arrival.1

/-- Whether a vectorless row that arrived with `later` still to come is never reported. -/
def kept (arrival : UnrankableRow × List ImageEvent) : Bool :=
  !arrival.2.any (reports arrival.1.1)

/-- The graph rows an image that held `initial` holds after the history. -/
def expectedRows (initial : List GraphRow) (history : List ImageEvent) : List GraphRow :=
  (arrived rows initial history).map settled

/-- The vectorless rows an image that held `initial` holds after the history. -/
def expectedUnrankable (initial : List UnrankableRow) (history : List ImageEvent) :
    List UnrankableRow :=
  ((arrived unrankable initial history).filter kept).map Prod.fst

/-- An arrival with one more event after it. -/
def past {ρ : Type} (e : ImageEvent) (arrival : ρ × List ImageEvent) : ρ × List ImageEvent :=
  (arrival.1, arrival.2 ++ [e])

theorem arrivals_concat {ρ : Type} (brings : ImageEvent → List ρ) (history : List ImageEvent)
    (e : ImageEvent) :
    arrivals brings (history ++ [e]) =
      (arrivals brings history).map (past e) ++ (brings e).map (·, []) := by
  induction history with
  | nil => simp [arrivals]
  | cons first history ih => simp [arrivals, ih, past]

/-- One more event comes after everything that has arrived, and brings its own rows. -/
theorem arrived_concat {ρ : Type} (brings : ImageEvent → List ρ) (initial : List ρ)
    (history : List ImageEvent) (e : ImageEvent) :
    arrived brings initial (history ++ [e]) =
      (arrived brings initial history).map (past e) ++ (brings e).map (·, []) := by
  simp [arrived, arrivals_concat, past]

theorem expectedRows_flushed (initial : List GraphRow) (history : List ImageEvent)
    (new : List GraphRow) (vectorless : List UnrankableRow) :
    expectedRows initial (history ++ [.flushed new vectorless]) =
      expectedRows initial history ++ new := by
  have hold : ∀ arrival, settled (past (.flushed new vectorless) arrival) = settled arrival := by
    intro arrival
    simp [settled, past, reports]
  have hnew : (new.map fun row => settled (row, [])) = new := by
    simp [settled]
  unfold expectedRows
  rw [arrived_concat, List.map_append, List.map_map, List.map_map]
  simp only [Function.comp_def, hold, rows, hnew]

theorem expectedRows_vacuumed (initial : List GraphRow) (history : List ImageEvent)
    (isDead : TidPair → Bool) :
    expectedRows initial (history ++ [.vacuumed isDead]) =
      (expectedRows initial history).map (GraphRow.vacuumed isDead) := by
  have hold : ∀ arrival, settled (past (.vacuumed isDead) arrival) =
      GraphRow.vacuumed isDead (settled arrival) := by
    rintro ⟨row, later⟩
    simp only [settled, past, List.any_append, List.any_cons, List.any_nil, Bool.or_false, reports,
      GraphRow.vacuumed]
    by_cases hlater : later.any (reports row.2) = true
    · -- already tombstoned: another report changes nothing
      simp [hlater, GraphRow.killed, Stored.killed]
    · simp [hlater]
  unfold expectedRows
  rw [arrived_concat, List.map_append, List.map_map, List.map_map, List.map_map]
  simp only [Function.comp_def, hold, rows, List.map_nil, List.append_nil]

theorem expectedUnrankable_flushed (initial : List UnrankableRow) (history : List ImageEvent)
    (new : List GraphRow) (vectorless : List UnrankableRow) :
    expectedUnrankable initial (history ++ [.flushed new vectorless]) =
      expectedUnrankable initial history ++ vectorless := by
  have hold : kept ∘ past (.flushed new vectorless) = kept := by
    funext arrival
    simp [kept, past, reports]
  have hfst : (Prod.fst ∘ past (.flushed new vectorless) :
      UnrankableRow × List ImageEvent → UnrankableRow) = Prod.fst := rfl
  have hnew : ((vectorless.map fun row => (row, ([] : List ImageEvent))).filter kept).map
      Prod.fst = vectorless := by
    simp [List.filter_map, kept, Function.comp_def]
  unfold expectedUnrankable
  rw [arrived_concat, List.filter_append, List.map_append, List.filter_map, List.map_map, hold,
    hfst]
  exact congrArg _ hnew

theorem expectedUnrankable_vacuumed (initial : List UnrankableRow) (history : List ImageEvent)
    (isDead : TidPair → Bool) :
    expectedUnrankable initial (history ++ [.vacuumed isDead]) =
      (expectedUnrankable initial history).filter fun row => !isDead row.1 := by
  have hold : kept ∘ past (.vacuumed isDead) =
      fun arrival => !isDead arrival.1.1 && kept arrival := by
    funext arrival
    simp [kept, past, reports, Bool.and_comm]
  have hfst : (Prod.fst ∘ past (.vacuumed isDead) :
      UnrankableRow × List ImageEvent → UnrankableRow) = Prod.fst := rfl
  unfold expectedUnrankable
  rw [arrived_concat, List.filter_append, List.map_append, List.filter_map, List.map_map, hold,
    hfst]
  simp [unrankable, List.filter_map, List.filter_filter, Function.comp_def]

end ImageEvent

/-! ## The machine -/

/-- A backend's staged write, and the rows its transaction offered since it began. -/
structure Staging where
  write : PendingWrite
  rows : List GraphRow
  unrankable : List UnrankableRow

/-- One stored image and the backends that stage rows for it. -/
structure Shared where
  image : Image
  backends : Nat → Option Staging
  /-- The completed write-backs and vacuums. -/
  history : List ImageEvent
  /-- How often the image has been rewritten. -/
  rewrites : Nat

inductive SharedAction where
  /-- Load the image and its generation under the share lock. -/
  | load (backend : Nat)
  | stageVector (backend : Nat) (vector : List F32) (attrs : List AttrValue) (tid : TidPair)
  | stageUnrankable (backend : Nat) (attrs : List AttrValue) (tid : TidPair)
  | abort (backend : Nat)
  /-- The write-back of a commit, under the exclusive lock. -/
  | flush (backend : Nat)
  /-- A bulk-delete pass, under the exclusive lock. -/
  | vacuum (isDead : TidPair → Bool)

namespace Shared

/-- No backend has anything staged. -/
def start (image : Image) : Shared := ⟨image, fun _ => none, [], 0⟩

/-- Replace one backend's staging. -/
def setBackend (s : Shared) (b : Nat) (staging : Option Staging) : Shared :=
  { s with backends := Function.update s.backends b staging }

/-- Store the image an event made of the one there was. -/
def setImage (s : Shared) (image : Image) (e : ImageEvent) : Shared :=
  { s with
    image
    history := s.history ++ [e]
    rewrites := if image = s.image then s.rewrites else s.rewrites + 1 }

variable [Arith]

/-- Take one step. A call that raises aborts its transaction. -/
def step (arity : Nat) (s : Shared) : SharedAction → Shared
  | .load b =>
    match s.backends b with
    | some _ => s
    | none =>
      match s.image.load arity with
      | .ok image => s.setBackend b (some ⟨ofImage 0 image, [], []⟩)
      | .error _ => s
  | .stageVector b vector attrs tid =>
    match s.backends b with
    | none => s
    | some staging =>
      match staging.write.stageVector vector attrs tid with
      | .ok (write, .ok ()) => s.setBackend b
          (some { staging with write, rows := staging.rows ++ [liveRow (vector, attrs, tid)] })
      | .ok (_, .error _) => s.setBackend b none
      | .error _ => s.setBackend b none
  | .stageUnrankable b attrs tid =>
    match s.backends b with
    | none => s
    | some staging => s.setBackend b (some
        { staging with
          write := staging.write.stageUnrankable attrs tid
          unrankable := staging.unrankable ++ [(tid, attrs)] })
  | .abort b => s.setBackend b none
  | .flush b =>
    match s.backends b with
    | none => s
    | some staging =>
      match staging.write.writeBack arity s.image with
      | .ok image => (s.setBackend b none).setImage image (.flushed staging.rows staging.unrankable)
      | .error _ => s.setBackend b none
  | .vacuum isDead =>
    match ambulkdelete arity isDead s.image with
    | .ok image => s.setImage image (.vacuumed isDead)
    | .error _ => s

/-- Take the steps of an interleaving one after another. -/
def run (arity : Nat) (s : Shared) (actions : List SharedAction) : Shared :=
  actions.foldl (step arity) s

/-! ## The invariant -/

omit [Arith] in
/-- A staging holds what its transaction offered, on a copy of an image that is the current one
unless it has been rewritten since. -/
structure Follows (first : UInt64) (s : Shared) (staging : Staging) : Prop where
  coherent : staging.write.Coherent
  rows_eq : staging.write.stagedRows = staging.rows
  unrankable_eq : staging.write.stagedUnrankable = staging.unrankable
  based : ∃ loadedAt ≤ s.rewrites,
    staging.write.baseGeneration = first + UInt64.ofNat loadedAt ∧
      (loadedAt = s.rewrites → staging.write.Extends s.image)

omit [Arith] in
/-- Staging more keeps it in step with the transaction. -/
theorem Follows.stages {first : UInt64} {s : Shared} {staging staging' : Staging}
    (F : Follows first s staging) {rows : List GraphRow} {unrankable : List UnrankableRow}
    (G : staging.write.Stages staging'.write rows unrankable)
    (hrows : staging'.rows = staging.rows ++ rows)
    (hunrankable : staging'.unrankable = staging.unrankable ++ unrankable) :
    Follows first s staging' := by
  obtain ⟨loadedAt, hle, hbase, hext⟩ := F.based
  exact
    { coherent := G.coherent
      rows_eq := by rw [G.rows_eq, F.rows_eq, hrows]
      unrankable_eq := by rw [G.unrankable_eq, F.unrankable_eq, hunrankable]
      based := ⟨loadedAt, hle, G.baseGeneration_eq.trans hbase, fun h => G.extends_of _ (hext h)⟩ }

omit [Arith] in
structure Invariant (initial : Image) (s : Shared) : Prop where
  valid : s.image.Valid
  rows_eq : s.image.graphRows = ImageEvent.expectedRows initial.graphRows s.history
  unrankable_eq : s.image.unrankable =
    ImageEvent.expectedUnrankable initial.unrankable s.history
  generation_eq : s.image.generation = initial.generation + UInt64.ofNat s.rewrites
  follows : ∀ b staging, s.backends b = some staging → Follows initial.generation s staging

omit [Arith] in
theorem Invariant.start {initial : Image} (V : initial.Valid) :
    Invariant initial (Shared.start initial) where
  valid := V
  rows_eq := by
    have hid : ImageEvent.settled ∘ (fun row => (row, ([] : List ImageEvent))) = id := by
      funext row
      simp [ImageEvent.settled]
    show initial.graphRows = _
    simp [Shared.start, ImageEvent.expectedRows, ImageEvent.arrived, ImageEvent.arrivals, hid]
  unrankable_eq := by
    have hall : ImageEvent.kept ∘ (fun row => (row, ([] : List ImageEvent))) = fun _ => true := by
      funext row
      simp [ImageEvent.kept]
    show initial.unrankable = _
    simp [Shared.start, ImageEvent.expectedUnrankable, ImageEvent.arrived, ImageEvent.arrivals,
      List.filter_map, hall, Function.comp_def]
  generation_eq := by simp [Shared.start]
  follows b staging hb := nomatch hb

namespace Invariant

variable {initial : Image} {s : Shared} (I : Invariant initial s)
include I

omit [Arith] in
/-- One backend's staging changes; the image does not. -/
theorem setBackend (b : Nat) {staging : Option Staging}
    (h : ∀ st, staging = some st → Follows initial.generation s st) :
    Invariant initial (s.setBackend b staging) := by
  refine { I with follows := ?_ }
  intro b' st hst
  have F : Follows initial.generation s st := by
    rcases eq_or_ne b' b with rfl | hne
    · exact h st (by simpa [Shared.setBackend] using hst)
    · exact I.follows b' st (by simpa [Shared.setBackend, Function.update_of_ne hne] using hst)
  exact ⟨F.coherent, F.rows_eq, F.unrankable_eq, F.based⟩

omit [Arith] in
/-- The image is rewritten, or left as it was: what every backend has staged is now based on an
older image, or on the same one. -/
theorem setImage {image : Image} {e : ImageEvent} (V : image.Valid)
    (hrows : image.graphRows =
      ImageEvent.expectedRows initial.graphRows (s.history ++ [e]))
    (hunr : image.unrankable =
      ImageEvent.expectedUnrankable initial.unrankable (s.history ++ [e]))
    (hgen : image = s.image ∨ image.generation = s.image.generation + 1) :
    Invariant initial (s.setImage image e) := by
  by_cases hsame : image = s.image
  · have hcount : (s.setImage image e).rewrites = s.rewrites := if_pos hsame
    refine ⟨V, hrows, hunr, ?_, fun b st hst => ?_⟩
    · rw [hcount]
      show image.generation = _
      rw [hsame]
      exact I.generation_eq
    · have F := I.follows b st hst
      refine ⟨F.coherent, F.rows_eq, F.unrankable_eq, ?_⟩
      obtain ⟨loadedAt, hle, hbase, hext⟩ := F.based
      refine ⟨loadedAt, by rw [hcount]; exact hle, hbase, fun hat => ?_⟩
      show st.write.Extends image
      rw [hsame]
      exact hext (hat.trans hcount)
  · have hcount : (s.setImage image e).rewrites = s.rewrites + 1 := if_neg hsame
    refine ⟨V, hrows, hunr, ?_, fun b st hst => ?_⟩
    · rw [hcount]
      show image.generation = _
      rw [hgen.resolve_left hsame, I.generation_eq, UInt64.ofNat_add]
      exact UInt64.add_assoc ..
    · have F := I.follows b st hst
      refine ⟨F.coherent, F.rows_eq, F.unrankable_eq, ?_⟩
      obtain ⟨loadedAt, hle, hbase, -⟩ := F.based
      refine ⟨loadedAt, by omega, hbase, fun hat => ?_⟩
      omega

omit [Arith] in
/-- While there have been fewer than 2^64 rewrites, a generation that has not moved means an image
that has not changed. -/
theorem extends_of_generation (hfew : s.rewrites < 2 ^ 64) {staging : Staging}
    (F : Follows initial.generation s staging)
    (hgen : s.image.generation = staging.write.baseGeneration) :
    staging.write.Extends s.image := by
  obtain ⟨loadedAt, hle, hbase, hext⟩ := F.based
  apply hext
  have hsame : UInt64.ofNat s.rewrites = UInt64.ofNat loadedAt := by
    rw [I.generation_eq, hbase] at hgen
    exact (UInt64.add_right_inj _).mp hgen
  have hmod := congrArg UInt64.toNat hsame
  rw [UInt64.toNat_ofNat', UInt64.toNat_ofNat', Nat.mod_eq_of_lt hfew,
    Nat.mod_eq_of_lt (hle.trans_lt hfew)] at hmod
  exact hmod.symm

/-- **One step keeps the invariant**, whichever backend takes it. -/
theorem step (arity : Nat) (hfew : s.rewrites < 2 ^ 64) (a : SharedAction) :
    Invariant initial (s.step arity a) := by
  cases a with
  | load b =>
    cases hb : s.backends b with
    | some staging =>
      simp only [Shared.step, hb]
      exact I
    | none =>
      cases hload : s.image.load arity with
      | error fault =>
        simp only [Shared.step, hb, hload]
        exact I
      | ok image =>
        simp only [Shared.step, hb, hload]
        obtain ⟨rfl, -⟩ := load_eq hload
        refine I.setBackend b fun st hst => ?_
        cases hst
        exact ⟨PendingWrite.coherent_ofImage I.valid 0, PendingWrite.stagedRows_ofImage I.valid 0,
          PendingWrite.stagedUnrankable_ofImage 0 _, s.rewrites, le_rfl, I.generation_eq,
          fun _ => PendingWrite.extends_ofImage I.valid 0⟩
  | stageVector b vector attrs tid =>
    cases hb : s.backends b with
    | none =>
      simp only [Shared.step, hb]
      exact I
    | some staging =>
      have F := I.follows b staging hb
      cases hstage : staging.write.stageVector vector attrs tid with
      | error fault =>
        -- a fault drops the staged work with the transaction
        simp only [Shared.step, hb, hstage]
        exact I.setBackend b fun st hst => nomatch hst
      | ok r =>
        obtain ⟨write, raised⟩ := r
        have G := (F.coherent.stageVector_spec vector attrs tid).elim hstage
        cases raised with
        | error e =>
          simp only [Shared.step, hb, hstage]
          exact I.setBackend b fun st hst => nomatch hst
        | ok u =>
          dsimp only at G
          simp only [Shared.step, hb, hstage]
          refine I.setBackend b fun st hst => ?_
          cases hst
          exact F.stages G rfl (List.append_nil _).symm
  | stageUnrankable b attrs tid =>
    cases hb : s.backends b with
    | none =>
      simp only [Shared.step, hb]
      exact I
    | some staging =>
      have F := I.follows b staging hb
      have G := F.coherent.stageUnrankable_spec attrs tid
      simp only [Shared.step, hb]
      refine I.setBackend b fun st hst => ?_
      cases hst
      exact F.stages G (List.append_nil _).symm rfl
  | abort b => exact I.setBackend b fun st hst => nomatch hst
  | flush b =>
    cases hb : s.backends b with
    | none =>
      simp only [Shared.step, hb]
      exact I
    | some staging =>
      have F := I.follows b staging hb
      -- the slot is taken before the write-back is tried
      have I' : Invariant initial (s.setBackend b none) := I.setBackend b fun st hst => nomatch hst
      cases hback : staging.write.writeBack arity s.image with
      | error fault =>
        simp only [Shared.step, hb, hback]
        exact I'
      | ok image =>
        obtain ⟨V, hrows, hunr, hgen⟩ := (F.coherent.writeBack_spec arity I.valid
          (I.extends_of_generation hfew F)).elim hback
        simp only [Shared.step, hb, hback]
        refine I'.setImage V ?_ ?_ (Or.inr hgen)
        · rw [ImageEvent.expectedRows_flushed, hrows, F.rows_eq, I.rows_eq]
          rfl
        · rw [ImageEvent.expectedUnrankable_flushed, hunr, F.unrankable_eq, I.unrankable_eq]
          rfl
  | vacuum isDead =>
    cases hdel : ambulkdelete arity isDead s.image with
    | error fault =>
      simp only [Shared.step, hdel]
      exact I
    | ok image =>
      obtain ⟨V, hrows, hunr, hgen⟩ := (ambulkdelete_spec arity isDead I.valid).elim hdel
      simp only [Shared.step, hdel]
      refine I.setImage V ?_ ?_ hgen
      · rw [ImageEvent.expectedRows_vacuumed, hrows, I.rows_eq]
      · rw [ImageEvent.expectedUnrankable_vacuumed, hunr, I.unrankable_eq]

end Invariant

theorem rewrites_le_step (arity : Nat) (s : Shared) (a : SharedAction) :
    s.rewrites ≤ (s.step arity a).rewrites := by
  have himage : ∀ (s : Shared) (image : Image) (e : ImageEvent),
      s.rewrites ≤ (s.setImage image e).rewrites := by
    intro s image e
    unfold setImage
    dsimp only
    split_ifs <;> omega
  -- only a write-back and a vacuum set the image
  cases a <;> simp only [step] <;> (repeat' split) <;> try exact le_rfl
  · exact himage (s.setBackend _ none) _ (.flushed _ _)
  · exact himage s _ _

theorem rewrites_le_run (arity : Nat) (s : Shared) (actions : List SharedAction) :
    s.rewrites ≤ (s.run arity actions).rewrites := by
  induction actions generalizing s with
  | nil => exact le_rfl
  | cons a actions ih => exact (rewrites_le_step arity s a).trans (ih (s.step arity a))

theorem Invariant.run {initial : Image} {s : Shared} (I : Invariant initial s) (arity : Nat)
    (actions : List SharedAction) (hfew : (s.run arity actions).rewrites < 2 ^ 64) :
    Invariant initial (s.run arity actions) := by
  induction actions generalizing s with
  | nil => exact I
  | cons a actions ih =>
    have hnow : s.rewrites < 2 ^ 64 := (rewrites_le_run arity s (a :: actions)).trans_lt hfew
    exact ih (I.step arity hnow a) hfew

/-- **No row is lost and none duplicated across backends.** After any interleaving of loads,
staging, aborts, write-backs and vacuums, with fewer than 2^64 rewrites of the image: its graph rows
are those it started with and those of the completed write-backs, in order, each tombstoned exactly
when it was from the start or a vacuum after its arrival reported it; its vectorless rows are the
ones no vacuum after their arrival reported; and each rewrite advanced the generation by one. -/
theorem image_follows_history (arity : Nat) (initial : Image) (hvalid : initial.Valid)
    (actions : List SharedAction)
    (hfew : ((start initial).run arity actions).rewrites < 2 ^ 64) :
    let s := (start initial).run arity actions
    s.image.graphRows = ImageEvent.expectedRows initial.graphRows s.history ∧
      s.image.unrankable = ImageEvent.expectedUnrankable initial.unrankable s.history ∧
      s.image.generation = initial.generation + UInt64.ofNat s.rewrites := by
  have I := (Invariant.start hvalid).run arity actions hfew
  exact ⟨I.rows_eq, I.unrankable_eq, I.generation_eq⟩

/-! ## Two backends -/

omit [Arith] in
/-- An image with one vectorless row, freshly built. -/
def sampleImage : Image := ⟨@Hnsw.new Arith.ieee HnswParams.default, [], [((9, 1), [])], 1⟩

omit [Arith] in
/-- Two backends load the same image; the first to commit is replayed under by the second, and a
vacuum then removes a row of each kind. -/
def sampleActions : List SharedAction :=
  [.load 0, .load 1, .stageVector 0 [F32.one] [] (0, 1), .stageVector 1 [F32.zero] [] (0, 2),
    .stageUnrankable 1 [] (0, 3), .flush 0, .flush 1, .vacuum fun tid => tid = (0, 1) || tid = (9, 1)]

omit [Arith] in
theorem image_follows_history_sample :
    let s := @run Arith.ieee 0 (start sampleImage) sampleActions
    s.image.graphRows = ImageEvent.expectedRows sampleImage.graphRows s.history ∧
      s.image.unrankable = ImageEvent.expectedUnrankable sampleImage.unrankable s.history ∧
      s.image.generation = sampleImage.generation + UInt64.ofNat s.rewrites :=
  @image_follows_history Arith.ieee 0 sampleImage
    ⟨⟨rfl, rfl, rfl, fun h => absurd h (by decide +kernel)⟩, rfl⟩ sampleActions
    (by decide +kernel)

omit [Arith] in
example : let s := @run Arith.ieee 0 (start sampleImage) sampleActions
    s.rewrites = 3 ∧ s.image.graphRows = [(⟨[F32.one], [], true⟩, (0, 1)), (⟨[F32.zero], [], false⟩, (0, 2))] ∧
      s.image.unrankable = [((0, 3), [])] := by
  decide +kernel

end Shared

end Brindle
