/-
# Brindle.Storage.Wrapped — a transaction that stays open while the generation wraps.

The generation is a `u64` that every rewrite advances, with wrapping. A staged write remembers the
generation it was loaded under, and a flush takes an equal one to mean that nobody wrote since. Here one
transaction stages a row; an insert, a commit and a vacuum of everything then alternate 2^63 times in
another backend, which is 2^64 rewrites; and the first commits the copy it loaded before all of them.
No row has a vector, so the graph stays empty and only the side table moves.
-/
import Brindle.Storage.Batching
import Brindle.Storage.Unordered

namespace Brindle

open CacheWorld (generationAt generationAt_succ)
open Cluster (step start sampleRow)
open IndexEvent (written)
open Outcome (Ensures ensures_pure)
open PendingWrite (ofImage)
open Rewind (Nest)
open Row (counts)
open Run (Along run)

/-- The checks of a load do not look at the generation. -/
theorem Image.load_relabel {arity : Nat} {image : Image} (h : image.load arity = .ok image)
    (generation : UInt64) :
    (image.relabel generation).load arity = .ok (image.relabel generation) := by
  obtain ⟨hnsw, tids, unrankable, generation'⟩ := image
  unfold relabel load at *
  dsimp only at h ⊢
  split at h
  · cases h
  · split_ifs at h ⊢
    · cases h
    · rfl

namespace Wrapped

/-- The index after `k` rewrites, if it has these rows then. -/
def plain (rows : List UnrankableRow) (k : Nat) : Image :=
  ⟨@Hnsw.new Arith.ieee HnswParams.default, [], rows, generationAt k⟩

/-- The rows are encoded, and decoded again. -/
def Durable (rows : List UnrankableRow) : Prop :=
  Ensures (plain rows 0).encode fun blob =>
    blob.length < 2 ^ 64 ∧ @loadSlice Arith.ieee 0 firstGeneration blob = .ok (plain rows 0)

instance (rows : List UnrankableRow) : Decidable (Durable rows) :=
  inferInstanceAs (Decidable (Ensures _ _))

section

attribute [local instance] Arith.ieee

variable {fork : Fork 8168} {rows rows' : List UnrankableRow} {k : Nat}

/-- Where the fork holds these rows, they are loaded. -/
theorem load (hrows : Durable rows) (stores : Stores fork (plain rows k)) :
    loadIndexWithGeneration 0 fork = .ok (plain rows k) := by
  obtain ⟨blob, henc, hlen, hslice⟩ := hrows
  obtain ⟨blob', spare, henc', -, hholds⟩ := stores
  cases henc.symm.trans henc'
  refine (load_iff_slice (by decide) hholds hlen 0 _).mpr ?_
  obtain ⟨graph, hnsw, tids, unrankable, hpayload, hgraph, himage⟩ := loadSlice_ok.mp hslice
  cases (load_eq himage).1
  exact loadSlice_ok.mpr ⟨graph, _, _, _, hpayload, hgraph, Image.load_relabel himage _⟩

/-- A durable set of rows is stored over whatever is there. -/
theorem store (hrows : Durable rows') (stores : Stores fork (plain rows k)) :
    ∃ blob fork', (plain rows' (k + 1)).encode = .ok blob ∧ storeBlob fork blob = .ok fork' ∧
      Stores fork' (plain rows' (k + 1)) := by
  obtain ⟨blob, henc, hlen, -⟩ := hrows
  obtain ⟨nblocks, blobLen, hmeta⟩ := stores.readMeta (by decide)
  obtain ⟨fork', hrun, -⟩ := rewriteIndexBlob_spec (by decide) hmeta blob
  have henc' : (plain rows' (k + 1)).encode = .ok blob := henc
  have hstore : storeBlob fork blob = .ok fork' := by
    unfold storeBlob
    rw [if_pos hlen]
    exact hrun
  have hnext : (plain rows' (k + 1)).generation = (plain rows k).generation + 1 :=
    (generationAt_succ k).symm
  exact ⟨blob, fork', henc', hstore, stores.store (by decide) hnext henc' hstore⟩

/-- A row without a vector. -/
def bare (offset : UInt16) : HeapRow := sampleRow none offset

def entry (offset : UInt16) : UnrankableRow := ((0, offset), [])

/-- A write that added one such row to a copy of the index. -/
def holding (rows : List UnrankableRow) (k : Nat) (offset : UInt16) : PendingWrite :=
  (ofImage 0 (plain rows k)).stageUnrankable [] (0, offset)

variable {s : Cluster 8168}

/-- A first insert loads the index and stages its row. -/
theorem next_insert (hrows : Durable rows) (stores : Stores s.fork (plain rows k)) {b : Nat}
    (hidle : (s.backends b).write = none) (offset : UInt16) :
    s.next 0 (.insert b (bare offset)) = s.setBackend b
      ⟨some (holding rows k offset), (s.backends b).nest.add (bare offset).toRow⟩ := by
  have hrun : pendingInsert 0 s.fork (s.backends b).write (bare offset).toRow =
      .ok (holding rows k offset) := by
    rw [hidle]
    unfold pendingInsert settlePending loadPending
    simp only [Outcome.ok_bind, load hrows stores]
    rfl
  unfold Cluster.next
  dsimp only
  rw [hrun]

/-- A write that is flushed under the generation of its load stores the copy. -/
theorem flush_holding (stores : Stores fork (plain rows k)) {k' : Nat} {offset : UInt16}
    (hrows' : Durable (rows' ++ [entry offset])) (hsame : generationAt k = generationAt k') :
    ∃ fork', flushPending 0 fork (some (holding rows' k' offset)) = .ok (some fork') ∧
      Stores fork' (plain (rows' ++ [entry offset]) (k + 1)) := by
  obtain ⟨nblocks, blobLen, hmeta⟩ := stores.readMeta (by decide)
  obtain ⟨blob, fork', henc, hstore, stores'⟩ := store hrows' stores
  have hsettle : settlePending 0 fork (some (holding rows' k' offset)) =
      .ok (some (holding rows' k' offset)) := rfl
  have hcurrent : (plain rows k).generation = (holding rows' k' offset).baseGeneration := hsame
  have henc' : (holding rows' k' offset).image.encode = .ok blob := henc
  refine ⟨fork', ?_, stores'⟩
  unfold flushPending
  rw [hsettle, Outcome.ok_bind]
  unfold flushLocked
  simp only [hmeta, Outcome.ok_bind, if_pos hcurrent, henc', Outcome.mapError, hstore]
  rfl

/-- A commit that stores the copy. -/
theorem next_commit (stores : Stores s.fork (plain rows k)) {b k' : Nat} {offset : UInt16}
    (hrows' : Durable (rows' ++ [entry offset]))
    (hwrite : (s.backends b).write = some (holding rows' k' offset))
    (hsame : generationAt k = generationAt k') :
    ∃ fork', s.next 0 (.commit b) =
        (s.setBackend b .idle).store fork' (.batch (s.backends b).nest.all) ∧
      Stores fork' (plain (rows' ++ [entry offset]) (k + 1)) := by
  obtain ⟨fork', hrun, stores'⟩ := flush_holding stores hrows' hsame
  refine ⟨fork', ?_, stores'⟩
  unfold Cluster.next Cluster.flush
  simp only [hwrite, hrun]

/-- A vacuum of everything empties the index. -/
theorem next_vacuum (hrows : Durable rows) (hne : rows ≠ []) (hnone : Durable [])
    (stores : Stores s.fork (plain rows k)) :
    ∃ fork, s.next 0 (.vacuum fun _ => true) = s.store fork (.vacuum fun _ => true) ∧
      Stores fork (plain [] (k + 1)) := by
  obtain ⟨blob, fork, henc, hstore, stores'⟩ := store hnone stores
  have hrun : bulkDelete 0 s.fork (fun _ => true) = .ok (some fork) := by
    have htomb : tombstoneDead (fun _ => true) (plain rows k) = .ok (plain rows k).hnsw := rfl
    have hwent : (plain rows k).unrankable.length - ([] : List UnrankableRow).length > 0 :=
      List.length_pos_iff.mpr hne
    have henc' : encodeIndex (plain rows k).hnsw (plain rows k).tids [] = .ok blob := henc
    unfold bulkDelete
    rw [load hrows stores, Outcome.ok_bind, htomb, Outcome.mapError, Outcome.ok_bind]
    simp only [Bool.not_true, List.filter_false]
    rw [if_pos (.inr hwent), henc', Outcome.mapError, Outcome.ok_bind, hstore]
    rfl
  refine ⟨fork, ?_, stores'⟩
  unfold Cluster.next
  simp only [hrun]

/-! ## The run -/

/-- One row without a vector on the heap. -/
def build : Build :=
  ⟨.default, HnswParams.default_m_word, HnswParams.default_ef_word, 0, [bare 9]⟩

/-- The transaction that stays open. -/
def waiting : Transaction := ⟨some (holding [entry 9] 0 0), ⟨[(bare 0).toRow], []⟩⟩

/-- Another backend writes a row, and everything is vacuumed. -/
def cycle : List ClusterAction := [.insert 1 (bare 1), .commit 1, .vacuum fun _ => true]

/-- The index has these rows after `k` rewrites, the first backend waits and the second does nothing. -/
structure At (rows : List UnrankableRow) (k : Nat) (s : Cluster 8168) : Prop where
  stores : Stores s.fork (plain rows k)
  first : s.backends 0 = waiting
  second : s.backends 1 = .idle
  nodes_eq : s.nodes build = 0
  indexed_eq : build.indexed s.history = ↑(rows.map Row.ofUnrankable)

/-- Without a vector on either side there is always room. -/
theorem fits {rows : List Row} (hnodes : s.nodes build = 0) (hrows : (counts rows).1 = 0) :
    Hnsw.layersOf build.params (s.nodes build + (counts rows).1) < 2 ^ 32 := by
  rw [hnodes, hrows]
  decide +kernel

theorem At.cycled (h : At rows k s) (hrows : Durable rows) (hnext : Durable (rows ++ [entry 1]))
    (hnone : Durable []) :
    Along (step 0) (fun s a => s.Fits build a) s cycle ∧
      Ensures (run (step 0) s cycle) (At [] (k + 2)) := by
  have hidle : (s.backends 1).write = none := by
    rw [h.second]
    rfl
  have hinsert := next_insert hrows h.stores hidle 1
  generalize hs₁ : s.setBackend 1
    ⟨some (holding rows k 1), (s.backends 1).nest.add (bare 1).toRow⟩ = s₁ at hinsert
  have hwrite : (s₁.backends 1).write = some (holding rows k 1) := by
    simp [← hs₁, Cluster.setBackend]
  have hall : (s₁.backends 1).nest.all = [(bare 1).toRow] := by
    simp [← hs₁, Cluster.setBackend, h.second, Transaction.idle, Nest.all, Nest.add, Nest.empty, Nest.flat]
  have hnodes₁ : s₁.nodes build = 0 := by
    rw [← hs₁]
    exact h.nodes_eq
  have stores₁ : Stores s₁.fork (plain rows k) := by
    rw [← hs₁]
    exact h.stores
  obtain ⟨fork₂, hcommit, stores₂⟩ := next_commit stores₁ hnext hwrite rfl
  generalize hs₂ : (s₁.setBackend 1 .idle).store fork₂ (.batch (s₁.backends 1).nest.all) = s₂
    at hcommit
  have stores₂' : Stores s₂.fork (plain (rows ++ [entry 1]) (k + 1)) := by
    rw [← hs₂]
    exact stores₂
  obtain ⟨fork₃, hvacuum, stores₃⟩ := next_vacuum hnext (by simp) hnone stores₂'
  -- insert, commit, vacuum: two rewrites, and the row is gone again
  have hrun : run (step 0) s cycle = .ok (s₂.store fork₃ (.vacuum fun _ => true)) := by
    show Except.ok (((s.next 0 (.insert 1 (bare 1))).next 0 (.commit 1)).next 0
      (.vacuum fun _ => true)) = _
    rw [hinsert, hcommit, hvacuum]
  have hhistory : (s₂.store fork₃ (.vacuum fun _ => true)).history =
      s.history ++ [.batch [(bare 1).toRow]] ++ [.vacuum fun _ => true] := by
    show s₂.history ++ _ = _
    rw [← hs₂, Cluster.store, hall, ← hs₁]
    rfl
  refine ⟨⟨fits h.nodes_eq (by rw [h.second]; rfl), ?_⟩, _, hrun, ⟨stores₃, ?_, ?_, ?_, ?_⟩⟩
  · show Along (step 0) _ (s.next 0 (.insert 1 (bare 1))) _
    rw [hinsert]
    exact ⟨fits hnodes₁ (by rw [hall]; rfl), trivial, trivial⟩
  · rw [← hs₂, ← hs₁]
    exact h.first
  · rw [← hs₂]
    simp [Cluster.store, Cluster.setBackend]
  · have hnodes := h.nodes_eq
    unfold Cluster.nodes at hnodes ⊢
    rw [hhistory, IndexEvent.written_concat, IndexEvent.written_concat, ← List.append_assoc,
      ← List.append_assoc, Row.counts_append, Row.counts_append, hnodes]
    rfl
  · rw [hhistory, Build.indexed_concat]
    simp [IndexEvent.change]

theorem At.cycles (h : At [] k s) (hnone : Durable []) (hone : Durable [entry 1]) (n : Nat) :
    Along (step 0) (fun s a => s.Fits build a) s (List.replicate n cycle).flatten ∧
      Ensures (run (step 0) s (List.replicate n cycle).flatten) (At [] (k + 2 * n)) := by
  induction n generalizing k s with
  | zero => exact ⟨trivial, ensures_pure.mpr h⟩
  | succ n ih =>
    obtain ⟨halong, s', hrun, h'⟩ := h.cycled hnone hone hnone
    obtain ⟨halong', hrest⟩ := ih h'
    rw [List.replicate_succ, List.flatten_cons]
    refine ⟨Run.along_append halong hrun halong', ?_⟩
    rw [Run.run_append, hrun, Outcome.ok_bind, show k + 2 * (n + 1) = k + 2 + 2 * n by omega]
    exact hrest

/-- The row is staged, and then others write. -/
def history (n : Nat) : List ClusterAction :=
  .insert 0 (bare 0) :: (cycle ++ (List.replicate n cycle).flatten)

/-- However often the others write, the transaction waits. -/
theorem waits (n : Nat) : ∃ fork, build.fork = .ok fork ∧
    Along (step 0) (fun s a => s.Fits build a) (start fork) (history n) ∧
    Ensures (run (step 0) (start fork) (history n)) (At [] (2 * (n + 1))) := by
  have hnine : Durable [entry 9] := by decide +kernel
  have hboth : Durable ([entry 9] ++ [entry 1]) := by decide +kernel
  have hnone : Durable [] := by decide +kernel
  have hone : Durable [entry 1] := by decide +kernel
  have hfit : build.Fits := by decide +kernel
  have hfork : Ensures (build.fork : Outcome PageError (Fork 8168)) fun _ => True := by
    decide +kernel
  have hbuild : ambuild build.params build.rows = .ok (plain [entry 9] 0) := by decide +kernel
  obtain ⟨fork, hfork, -⟩ := hfork
  obtain ⟨image, I, himage, -⟩ := Cluster.Invariant.start (by decide) hfork hfit
  cases himage.symm.trans hbuild
  have stores : Stores (start fork).fork (plain [entry 9] 0) := I.stores
  have hinsert : (start fork).next 0 (.insert 0 (bare 0)) = (start fork).setBackend 0 waiting :=
    next_insert hnine stores rfl 0
  have h : At [entry 9] 0 ((start fork).setBackend 0 waiting) :=
    ⟨stores, by simp [Cluster.setBackend], rfl, rfl, rfl⟩
  obtain ⟨halong₁, s₁, hrun₁, h₁⟩ := h.cycled hnine hboth hnone
  obtain ⟨halong₂, hrun₂⟩ := h₁.cycles hnone hone n
  have hcount : 2 * (n + 1) = 0 + 2 + 2 * n := by omega
  refine ⟨fork, hfork, ⟨fits rfl rfl, ?_⟩, ?_⟩
  · show Along (step 0) _ ((start fork).next 0 (.insert 0 (bare 0))) _
    rw [hinsert]
    exact Run.along_append halong₁ hrun₁ halong₂
  · show Ensures (run (step 0) ((start fork).next 0 (.insert 0 (bare 0))) _) _
    rw [hinsert, Run.run_append, hrun₁, Outcome.ok_bind, hcount]
    exact hrun₂

/-- Once the generation is where it was, the old copy is stored. -/
theorem At.stale (h : At [] k s) (hk : generationAt k = firstGeneration) :
    s.Fits build (.commit 0) ∧ ∃ fork',
      flushPending 0 s.fork (s.backends 0).write = .ok (some fork') ∧
      loadIndexWithGeneration 0 fork' = .ok (plain [entry 9, entry 0] (k + 1)) := by
  have hdurable : Durable ([entry 9] ++ [entry 0]) := by decide +kernel
  have hloaded : generationAt k = generationAt 0 := hk
  obtain ⟨fork', hrun, stores⟩ := flush_holding h.stores hdurable hloaded
  rw [Cluster.Fits, h.first]
  exact ⟨fits h.nodes_eq rfl, fork', hrun, load hdurable stores⟩

/-- A number of rewrites that brings the generation back brings back a row that a vacuum reported. -/
theorem lost_of_wrap {n : Nat} (hn : generationAt (2 * (n + 1)) = firstGeneration) :
    ¬ Cluster.RefinesIndex 8168 fun build s a => s.Fits build a := by
  intro hall
  obtain ⟨fork, hfork, halong, s, hrun, h⟩ := waits n
  obtain ⟨hfits, fork', hflush, hload⟩ := h.stale hn
  have hlast : Along (step 0) (fun s a => s.Fits build a) s [.commit 0] := ⟨hfits, trivial⟩
  have hfit : build.Fits := by decide +kernel
  have halong' := Run.along_append halong hrun hlast
  obtain ⟨s', hrun', hscans⟩ := hall build fork hfit hfork _ halong'
  have hend : s' = (s.setBackend 0 .idle).store fork' (.batch [(bare 0).toRow]) := by
    have hcommit : s.next 0 (.commit 0) =
        (s.setBackend 0 .idle).store fork' (.batch [(bare 0).toRow]) := by
      unfold Cluster.next Cluster.flush
      simp only [hflush]
      rw [h.first]
      rfl
    rw [show build.arity = 0 from rfl, Run.run_append, hrun, Outcome.ok_bind] at hrun'
    rw [← hcommit]
    cases hrun'
    rfl
  subst hend
  obtain ⟨⟨-, -, hreturns⟩, -⟩ := hscans _ hload
  -- the scan returns two rows, and one is indexed
  obtain ⟨tids, hscan, htids⟩ := hreturns .all
  have htwo : Ensures (startUnordered (plain [entry 9, entry 0] (2 * (n + 1) + 1)) .all) fun tids =>
      tids.length = 2 := by
    exact ⟨[(0, 9), (0, 0)], rfl, rfl⟩
  have hone : build.indexed ((s.setBackend 0 .idle).store fork'
      (.batch [(bare 0).toRow])).history = {(bare 0).toRow} := by
    show build.indexed (s.history ++ _) = _
    rw [Build.indexed_concat, h.indexed_eq]
    rfl
  have hcard := congrArg Multiset.card htids
  rw [hone] at hcard
  have := htwo.elim hscan
  simp [Predicate.satisfiedBy] at hcard
  omega

end

/-- Without the bound on the rewrites a scan can return a row that a vacuum took out. -/
theorem not_refinesIndex : ¬ @Cluster.RefinesIndex Arith.ieee 8168
    fun build s a => @Cluster.Fits 8168 Arith.ieee build s a :=
  @lost_of_wrap (2 ^ 63 - 1) rfl

end Wrapped

end Brindle
