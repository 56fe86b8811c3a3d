/-
# Brindle.Storage.Vacuum — what a vacuum reports about the index.

A vacuum calls `ambulkdelete` once for each batch of dead tuples and `amvacuumcleanup` at the end, and
other backends write in between. The counts it hands back span the graph and the rows without a vector:
after a pass they are those of the index the pass left, and the tuples removed add up over the passes.
Counters that the source keeps as `f64` are natural numbers here.
-/
import Mathlib.Data.Multiset.Filter
import Brindle.Storage.Unordered

namespace Brindle

open Outcome (Ensures ensures_pure fail)
open Run (Along run)

/-! ## The calls -/

/-- `IndexBulkDeleteResult`. -/
structure BulkDeleteResult where
  numPages : Nat
  estimatedCount : Bool
  numIndexTuples : Nat
  tuplesRemoved : Nat
  deriving DecidableEq, Repr

/-- As `alloc0` hands it out. -/
def BulkDeleteResult.zeroed : BulkDeleteResult := ⟨0, false, 0, 0⟩

/-- What a vacuum knows of the table, and whether the index has a predicate. -/
structure VacuumInfo where
  analyzeOnly : Bool
  numHeapTuples : Nat
  estimatedCount : Bool
  hasPredicate : Bool
  deriving DecidableEq, Repr

section

variable {capacity : Nat} [Arith]

/-- `ambulkdelete`: the fork it leaves, and the result it has accumulated into. -/
def ambulkdeletePass (arity : Nat) (fork : Fork capacity) (isDead : TidPair → Bool)
    (stats : Option BulkDeleteResult) : Outcome PageError (Fork capacity × BulkDeleteResult) := do
  let image ← loadIndexWithGeneration arity fork
  let hnsw ← (tombstoneDead isDead image).mapError .storage
  let unrankable := image.unrankable.filter fun row => !isDead row.1
  let removed := hnsw.deletedCount - image.hnsw.deletedCount
  let unrankableRemoved := image.unrankable.length - unrankable.length
  let fork ← (if removed > 0 ∨ unrankableRemoved > 0 then
      (encodeIndex hnsw image.tids unrankable).mapError hnswError >>= storeBlob fork
    else pure fork : Outcome PageError (Fork capacity))
  let result := stats.getD .zeroed
  return (fork, { result with
    numPages := fork.length
    numIndexTuples := hnsw.liveLen + unrankable.length
    tuplesRemoved := result.tuplesRemoved + (removed + unrankableRemoved) })

omit [Arith] in
def amvacuumcleanup (info : VacuumInfo) (fork : Fork capacity) (stats : Option BulkDeleteResult) :
    Option BulkDeleteResult :=
  if info.analyzeOnly then stats
  else
    match stats with
    | some result => some { result with numPages := fork.length }
    | none =>
      if info.hasPredicate then none
      else some { BulkDeleteResult.zeroed with
        numPages := fork.length
        numIndexTuples := info.numHeapTuples
        estimatedCount := info.estimatedCount }

/-- The pass stores what `bulkDelete` does. -/
theorem ambulkdeletePass_fork {arity : Nat} {fork : Fork capacity} {isDead : TidPair → Bool}
    {stats : Option BulkDeleteResult} {left : Fork capacity} {result : BulkDeleteResult}
    (h : ambulkdeletePass arity fork isDead stats = .ok (left, result)) :
    ∃ fork?, bulkDelete arity fork isDead = .ok fork? ∧ left = fork?.getD fork := by
  unfold ambulkdeletePass at h
  simp only [Outcome.bind_eq_ok] at h
  obtain ⟨image, hload, hnsw, htomb, fork', hstore, hdone⟩ := h
  cases hdone
  unfold bulkDelete
  rw [hload, Outcome.ok_bind, htomb, Outcome.ok_bind]
  dsimp only
  split_ifs at hstore with hremoved
  · obtain ⟨blob, hblob, hstore⟩ := Outcome.bind_eq_ok.mp hstore
    rw [if_pos hremoved, hblob, Outcome.ok_bind, hstore]
    exact ⟨some left, rfl, rfl⟩
  · cases hstore
    rw [if_neg hremoved]
    exact ⟨none, rfl, rfl⟩

end

/-! ## The counts -/

/-- The live rows of the graph and the others, counted. -/
theorem card_heapRows (rows : List GraphRow) (unrankable : List UnrankableRow) :
    (heapRows rows unrankable).card =
      rows.countP (fun row => !row.1.dead) + unrankable.length := by
  unfold heapRows
  rw [Multiset.coe_card, List.length_append, List.length_map, List.length_map,
    ← List.countP_eq_length_filter]

/-- `live_len` counts the rows that are no tombstones. -/
theorem InStep.liveLen_eq {hnsw : Hnsw} {tids : List TidPair} (T : InStep hnsw tids) :
    hnsw.liveLen = (tableRows hnsw tids).countP fun row => !row.1.dead := by
  unfold Hnsw.liveLen
  have hsplit := List.length_eq_countP_add_countP (l := tableRows hnsw tids)
    fun row : GraphRow => row.1.dead
  rw [T.length_tableRows] at hsplit
  have hother : (tableRows hnsw tids).countP (fun row => decide ¬row.1.dead = true) =
      (tableRows hnsw tids).countP fun row => !row.1.dead :=
    List.countP_congr fun row _ => by simp
  rw [hother] at hsplit
  rw [T.deletedCount_eq]
  omega

/-- Rows that go and rows that stay. -/
theorem card_filter_dead (isDead : TidPair → Bool) (rows : Multiset Row) :
    (rows.filter fun row => isDead row.tid = true).card +
      (rows.filter fun row => isDead row.tid = false).card = rows.card := by
  rw [← Multiset.card_add]
  refine congrArg Multiset.card ?_
  have h := Multiset.filter_add_not (fun row : Row => isDead row.tid = true) rows
  simpa only [Bool.not_eq_true] using h

/-! ## Every run -/

/-- What was there to count when a pass ended. -/
structure Seen where
  rows : Multiset Row
  pages : Nat

/-- A vacuum under way. -/
structure Vacuum (capacity : Nat) where
  cluster : Cluster capacity
  stats : Option BulkDeleteResult
  /-- What the last pass left. No call looks at it. -/
  seen : Option Seen
  /-- The indexed rows the passes have been asked to remove. No call looks at it. -/
  removed : Nat

inductive VacuumAction where
  | others (a : ClusterAction)
  | pass (isDead : TidPair → Bool)

namespace Vacuum

variable {capacity : Nat}

/-- A vacuum begins. -/
def start (cluster : Cluster capacity) : Vacuum capacity := ⟨cluster, none, none, 0⟩

variable [Arith]

def step (build : Build) (s : Vacuum capacity) :
    VacuumAction → Outcome PageError (Vacuum capacity)
  | .others a => return { s with cluster := s.cluster.next build.arity a }
  | .pass isDead => do
    let (fork, result) ← ambulkdeletePass build.arity s.cluster.fork isDead s.stats
    let cluster := s.cluster.next build.arity (.vacuum isDead)
    return {
      cluster
      stats := some result
      seen := some ⟨build.indexed cluster.history, fork.length⟩
      removed := s.removed +
        ((build.indexed s.cluster.history).filter fun row => isDead row.tid = true).card }

/-- What other backends do is within the limits of the indexed graph, and the pages have been rewritten
fewer than 2^64 times. -/
def Fits (build : Build) (s : Vacuum capacity) : VacuumAction → Prop
  | .others a => s.cluster.Fits build a ∧ s.cluster.rewrites < 2 ^ 64
  | .pass _ => s.cluster.rewrites < 2 ^ 64

instance (build : Build) (s : Vacuum capacity) : ∀ a, Decidable (s.Fits build a)
  | .others _ => inferInstanceAs (Decidable (_ ∧ _))
  | .pass _ => inferInstanceAs (Decidable (_ < _))

/-- The result holds what the last pass left and what all of them have removed. -/
def Reports (s : Vacuum capacity) : Prop :=
  s.stats = s.seen.map fun seen => ⟨seen.pages, false, seen.rows.card, s.removed⟩

/-- Cleaning up keeps the counts of the passes; without a pass it goes by the heap, where the index
covers it. -/
def CleansUp (s : Vacuum capacity) : Prop :=
  ∀ info, info.analyzeOnly = false → amvacuumcleanup info s.cluster.fork s.stats =
    match s.seen with
    | some seen => some ⟨s.cluster.fork.length, false, seen.rows.card, s.removed⟩
    | none =>
      if info.hasPredicate then none
      else some ⟨s.cluster.fork.length, info.estimatedCount, info.numHeapTuples, 0⟩

open Cluster (Indexed)

variable {build : Build} {s : Vacuum capacity} {image : Image}

/-- **A pass** counts the rows it leaves and adds those it removes. -/
theorem pass_spec (hcap : metaSize ≤ capacity) (X : Indexed build s.cluster image)
    {isDead : TidPair → Bool} {fork : Fork capacity}
    {result : BulkDeleteResult}
    (h : ambulkdeletePass build.arity s.cluster.fork isDead s.stats = .ok (fork, result)) :
    (s.cluster.next build.arity (.vacuum isDead)).fork = fork ∧
      (s.cluster.next build.arity (.vacuum isDead)).history =
        s.cluster.history ++ [.vacuum isDead] ∧
      result = ⟨fork.length, (s.stats.getD .zeroed).estimatedCount,
        ((build.indexed s.cluster.history).filter fun row => isDead row.tid = false).card,
        (s.stats.getD .zeroed).tuplesRemoved +
          ((build.indexed s.cluster.history).filter fun row => isDead row.tid = true).card⟩ := by
  obtain ⟨fork?, hdelete, hleft⟩ := ambulkdeletePass_fork h
  have hnext : (s.cluster.next build.arity (.vacuum isDead)).fork = fork ∧
      (s.cluster.next build.arity (.vacuum isDead)).history =
        s.cluster.history ++ [.vacuum isDead] := by
    unfold Cluster.next
    dsimp only
    rw [hdelete, hleft]
    cases fork? <;> exact ⟨rfl, rfl⟩
  refine ⟨hnext.1, hnext.2, ?_⟩
  unfold ambulkdeletePass at h
  simp only [Outcome.bind_eq_ok, Outcome.mapError_eq_ok] at h
  obtain ⟨copy, hload, hnsw, htomb, stored, -, hdone⟩ := h
  cases hdone
  obtain ⟨S, hcontents⟩ := X.loaded hcap hload
  obtain ⟨T, hrows⟩ := (tombstoneDead_spec isDead S.valid).elim htomb
  have hbefore : copy.contents.card = copy.hnsw.liveLen + copy.unrankable.length := by
    rw [S.valid.liveLen_eq]
    exact card_heapRows _ _
  have hafter : (copy.contents.filter fun row => isDead row.tid = false).card =
      hnsw.liveLen + (copy.unrankable.filter fun row => !isDead row.1).length := by
    unfold Image.contents
    rw [← heapRows_vacuumed, ← hrows, T.liveLen_eq]
    exact card_heapRows _ _
  have hsplit := card_filter_dead isDead copy.contents
  -- a tombstone leaves the number of nodes, and adds to the deleted ones
  have hn : hnsw.n = copy.hnsw.n := by
    rw [← T.length_tableRows, hrows, List.length_map]
    exact S.length_graphRows
  have hdeleted : hnsw.deletedCount ≤ hnsw.n ∧ copy.hnsw.deletedCount ≤ copy.hnsw.n := by
    rw [T.deletedCount_eq, S.valid.deletedCount_eq, ← T.length_tableRows,
      ← S.valid.length_tableRows]
    exact ⟨List.countP_le_length, List.countP_le_length⟩
  have hgrown : copy.hnsw.deletedCount ≤ hnsw.deletedCount := by
    rw [T.deletedCount_eq, S.valid.deletedCount_eq, hrows, List.countP_map]
    refine List.countP_mono_left fun row _ hdead => ?_
    unfold Function.comp GraphRow.vacuumed
    dsimp only
    split_ifs
    · rfl
    · exact hdead
  have hfewer := List.length_filter_le (fun row : UnrankableRow => !isDead row.1) copy.unrankable
  rw [← hcontents, hafter]
  unfold Hnsw.liveLen at hbefore hafter ⊢
  refine congrArg₂ (BulkDeleteResult.mk fork.length _) rfl (congrArg _ ?_)
  omega

/-- The counts are right, and the index in memory in step. -/
def Sound (build : Build) (s : Vacuum capacity) : Prop :=
  (∃ image, Indexed build s.cluster image) ∧ s.Reports ∧ (s.seen = none → s.removed = 0)

theorem Sound.step (hcap : metaSize ≤ capacity) (H : s.Sound build) {a : VacuumAction}
    (hfit : s.Fits build a) : Run.After (Sound build) (s.step build a) := by
  obtain ⟨⟨image, X⟩, hstats, hfirst⟩ := H
  cases a with
  | others a =>
    obtain ⟨hfit, hfew⟩ := hfit
    exact ⟨X.next hcap hfew hfit, hstats, hfirst⟩
  | pass isDead =>
    show Run.After (Sound build) (ambulkdeletePass build.arity s.cluster.fork isDead s.stats >>= _)
    cases hpass : ambulkdeletePass build.arity s.cluster.fork isDead s.stats with
    | error fault => trivial
    | ok left =>
      obtain ⟨fork, result⟩ := left
      obtain ⟨hfork, hhistory, rfl⟩ := pass_spec hcap X hpass
      refine ⟨X.next hcap hfit (a := .vacuum isDead) trivial, ?_, nofun⟩
      -- the first pass counts from nothing, a later one goes on
      have hprior : (s.stats.getD .zeroed).estimatedCount = false ∧
          (s.stats.getD .zeroed).tuplesRemoved = s.removed := by
        rw [show s.stats = _ from hstats]
        cases hseen : s.seen with
        | none => exact ⟨rfl, (hfirst hseen).symm⟩
        | some seen => exact ⟨rfl, rfl⟩
      unfold Reports
      dsimp only
      rw [hhistory, Build.indexed_concat, hprior.1, hprior.2]
      rfl

/-- **What a vacuum reports.** Whatever other backends insert, roll back and write back between its
passes, the result counts the rows and pages of the index the last pass left, and every indexed row
that a pass was asked to remove; cleaning up keeps these counts. -/
theorem vacuum_reports (hcap : metaSize ≤ capacity) (fork : Fork capacity) (hfit : build.Fits)
    (hfork : build.fork = .ok fork) (actions : List VacuumAction)
    (halong : Along (step build) (Fits build) (start (.start fork)) actions) :
    Run.Throughout (step build) (fun s => s.Reports ∧ s.CleansUp) (start (.start fork)) actions := by
  refine Run.throughout_of_invariant (I := Sound build) (fun s a H hfit => H.step hcap hfit) ?_
    ⟨Indexed.start hcap hfork hfit, rfl, fun _ => rfl⟩ halong
  rintro s ⟨-, hstats, -⟩
  refine ⟨hstats, fun info hinfo => ?_⟩
  unfold amvacuumcleanup
  rw [if_neg (by rw [hinfo]; exact Bool.false_ne_true), show s.stats = _ from hstats]
  cases s.seen <;> rfl

omit [Arith] in
/-- Two passes, each over a row of either kind, and a transaction between them. -/
def sampleActions : List VacuumAction :=
  [.others (.insert 0 (Cluster.sampleRow (some [F32.zero]) 3)), .others (.commit 0),
    .pass fun tid => tid = (0, 1) || tid = (0, 2),
    .others (.insert 1 (Cluster.sampleRow none 2)), .others (.commit 1),
    .pass fun tid => tid = (0, 3)]

omit [Arith] in
theorem vacuum_reports_sample : Ensures (@Build.fork 8168 Arith.ieee Cluster.sampleBuild) fun fork =>
    Run.Throughout (@step 8168 Arith.ieee Cluster.sampleBuild) (fun s => s.Reports ∧ s.CleansUp)
      (start (.start fork)) sampleActions := by
  have hsample : Ensures (@Build.fork 8168 Arith.ieee Cluster.sampleBuild) fun fork =>
      Along (@step 8168 Arith.ieee Cluster.sampleBuild)
        (@Fits 8168 Arith.ieee Cluster.sampleBuild) (start (.start fork)) sampleActions := by
    decide +kernel
  obtain ⟨fork, hfork, halong⟩ := hsample
  exact ⟨fork, hfork, @vacuum_reports 8168 Arith.ieee Cluster.sampleBuild (by decide) fork
    (by decide +kernel) hfork sampleActions halong⟩

omit [Arith] in
example : Ensures (@Build.fork 8168 Arith.ieee Cluster.sampleBuild) fun fork =>
    Ensures (Run.run (@step 8168 Arith.ieee Cluster.sampleBuild) (start (.start fork))
      sampleActions) fun s => s.stats = some ⟨s.cluster.fork.length, false, 1, 3⟩ := by
  decide +kernel

end Vacuum

end Brindle
