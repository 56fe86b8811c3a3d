/-
# Brindle.Storage.Savepoints — a commit brings the rows whose savepoints survived.

The rows of a transaction, by open savepoint, are read off its commands alone. The callbacks keep only
marks and a lazy rewind, over a copy that others may have left behind by the time it is replayed; at the
commit the two agree on which rows there are, and the index gains exactly those.
-/
import Brindle.Storage.Wrapped

namespace Brindle

open CacheWorld (generationAt)
open Outcome (Ensures ensures_pure)
open Rewind (Nest)
open Run (After Along run)

/-- What an action does to the rows of the transaction of `b`, by open savepoint. -/
def ClusterAction.keeps (b : Nat) (kept : Nest Row) : ClusterAction → Nest Row
  | .insert b' row => if b' = b then kept.add row.toRow else kept
  | .savepoint b' => if b' = b then kept.opened else kept
  | .release b' => if b' = b then kept.released else kept
  | .rollback b' => if b' = b then kept.rolledBack else kept
  | _ => kept

/-- The rows of a transaction of `b` none of whose savepoints was rolled back, in insertion order. -/
def survivors (b : Nat) (actions : List ClusterAction) : List Row :=
  (actions.foldl (ClusterAction.keeps b) .empty).all

namespace Cluster

variable {capacity : Nat} [Arith]

/-- No write-back and no end of the transaction of `b`, and no call of it raises. -/
def Open (arity b : Nat) (s : Cluster capacity) : ClusterAction → Prop
  | .insert b' row =>
    b' = b → Ensures (pendingInsert arity s.fork (s.backends b).write row.toRow) fun _ => True
  | .settle b' => b' = b → Ensures (settlePending arity s.fork (s.backends b).write) fun _ => True
  | .writeBack b' | .commit b' | .abort b' => b' ≠ b
  | _ => True

instance (arity b : Nat) (s : Cluster capacity) : ∀ a, Decidable (s.Open arity b a)
  | .insert b' _ => inferInstanceAs (Decidable (b' = b → _))
  | .settle b' => inferInstanceAs (Decidable (b' = b → _))
  | .writeBack b' => inferInstanceAs (Decidable (b' ≠ b))
  | .commit b' => inferInstanceAs (Decidable (b' ≠ b))
  | .abort b' => inferInstanceAs (Decidable (b' ≠ b))
  | .savepoint _ => .isTrue trivial
  | .release _ => .isTrue trivial
  | .rollback _ => .isTrue trivial
  | .vacuum _ => .isTrue trivial

/-- `fork'` holds the index of `fork` with these rows added, the ones with a vector after the graph
rows and the others after the vectorless rows; and so it is decoded. -/
def Gains (arity : Nat) (fork fork' : Fork capacity) (rows : List Row) : Prop :=
  (∃ image image', Stores fork image ∧ Stores fork' image' ∧
    image'.graphRows = image.graphRows ++ rows.filterMap Row.graph? ∧
    image'.unrankable = image.unrankable ++ rows.filterMap Row.vectorless?) ∧
  ∀ image image', loadIndexWithGeneration arity fork = .ok image →
    loadIndexWithGeneration arity fork' = .ok image' →
    image'.graphRows = image.graphRows ++ rows.filterMap Row.graph? ∧
    image'.unrankable = image.unrankable ++ rows.filterMap Row.vectorless?

/-- In every run whose steps meet `C`: a transaction that begins in some state, goes on among whatever
the others do and commits brings its surviving rows. A commit that raises aborts instead, and one that
has nothing staged leaves the fork alone. -/
def SavepointLaw (capacity : Nat) (C : Build → Cluster capacity → ClusterAction → Prop) : Prop :=
  ∀ (build : Build) (fork : Fork capacity), build.Fits → build.fork = .ok fork →
    ∀ (before actions : List ClusterAction) (b : Nat),
      Along (step build.arity) (C build) (start fork) (before ++ (actions ++ [.commit b])) →
      Ensures (run (step build.arity) (start fork) before) fun s =>
        s.backends b = .idle → Along (step build.arity) (Open build.arity b) s actions →
        Ensures (run (step build.arity) s actions) fun s' =>
          After (fun written => Gains build.arity s'.fork (written.getD s'.fork)
              (survivors b actions))
            (flushPending build.arity s'.fork (s'.backends b).write)

/-! ## The rows follow the commands -/

variable {s : Cluster capacity}

omit [Arith] in
theorem setBackend_backends (s : Cluster capacity) (b b' : Nat) (t : Transaction) :
    (s.setBackend b' t).backends b = if b = b' then t else s.backends b := by
  unfold setBackend
  exact Function.update_apply ..

/-- A flush by another backend. -/
theorem flush_backends (arity : Nat) (s : Cluster capacity) {b b' : Nat} (hne : b' ≠ b)
    (after : Transaction) : (s.flush arity b' after).backends b = s.backends b := by
  unfold flush
  dsimp only
  split
  · rw [setBackend_backends, if_neg hne.symm]
  · exact Function.update_of_ne hne.symm _ _
  · rw [setBackend_backends, if_neg hne.symm]

omit [Arith] in
/-- Savepoint bookkeeping of some backend. -/
theorem mark_nest (s : Cluster capacity) (b b' : Nat) (event : SubXactEvent)
    (f : Nest Row → Nest Row) :
    ((s.mark b' event f).backends b).nest =
      if b' = b then f (s.backends b).nest else (s.backends b).nest := by
  unfold mark
  rw [setBackend_backends]
  by_cases hb : b' = b
  · rw [if_pos hb, if_pos hb.symm, hb]
  · rw [if_neg hb, if_neg (Ne.symm hb)]

theorem next_nest {arity b : Nat} {a : ClusterAction} (hopen : s.Open arity b a) :
    ((s.next arity a).backends b).nest = a.keeps b (s.backends b).nest := by
  cases a with
  | insert b' row =>
    unfold next ClusterAction.keeps
    by_cases hb : b' = b
    · subst hb
      obtain ⟨w, hrun, -⟩ := hopen rfl
      simp only [hrun, setBackend_backends, if_true]
    · simp only [if_neg hb]
      split <;> rw [setBackend_backends, if_neg (Ne.symm hb)]
  | settle b' =>
    unfold next ClusterAction.keeps
    by_cases hb : b' = b
    · subst hb
      obtain ⟨write, hrun, -⟩ := hopen rfl
      simp only [hrun, setBackend_backends, if_true]
    · dsimp only
      split <;> rw [setBackend_backends, if_neg (Ne.symm hb)]
  | savepoint b' => exact mark_nest s b b' .startSub Nest.opened
  | release b' =>
    unfold next ClusterAction.keeps
    dsimp only
    split_ifs with houter hb hb
    · -- no savepoint is open: there is nothing to release
      rw [← hb, Nest.released_of_outer houter]
    · rfl
    · rw [mark_nest, if_pos hb]
    · rw [mark_nest, if_neg hb]
  | rollback b' =>
    unfold next ClusterAction.keeps
    dsimp only
    split_ifs with houter hb hb
    · rw [← hb, Nest.rolledBack_of_outer houter]
    · rfl
    · rw [mark_nest, if_pos hb]
    · rw [mark_nest, if_neg hb]
  | writeBack b' => exact congrArg Transaction.nest (flush_backends arity s hopen _)
  | commit b' => exact congrArg Transaction.nest (flush_backends arity s hopen _)
  | abort b' =>
    show ((s.setBackend b' .idle).backends b).nest = _
    rw [setBackend_backends, if_neg (Ne.symm hopen)]
    rfl
  | vacuum isDead =>
    unfold next
    dsimp only
    split <;> rfl

theorem run_nest {arity b : Nat} {actions : List ClusterAction}
    (hopen : Along (step arity) (Open arity b) s actions) :
    Ensures (run (step arity) s actions) fun s' =>
      (s'.backends b).nest = actions.foldl (ClusterAction.keeps b) (s.backends b).nest := by
  induction actions generalizing s with
  | nil => exact ensures_pure.mpr rfl
  | cons a actions ih =>
    have hrest := ih (s := s.next arity a) hopen.2
    rw [next_nest hopen.1] at hrest
    exact hrest

/-! ## The law -/

/-- Before the generation wraps, a flush that returns brings the rows of its transaction. -/
theorem Invariant.gains {build : Build} {image : Image} (I : Invariant build s image)
    (hcap : metaSize ≤ capacity) (hfew : s.rewrites < 2 ^ 64) {b : Nat}
    (hfit : s.Fits build (.commit b)) :
    After (fun written => Gains build.arity s.fork (written.getD s.fork) (s.backends b).nest.all)
      (flushPending build.arity s.fork (s.backends b).write) := by
  apply Run.after_iff.mpr
  intro fork? hrun
  have hflushed := I.flushed hcap hfew hfit hrun
  cases fork? with
  | none =>
    have hnone : (s.backends b).nest.all = [] := hflushed
    rw [hnone]
    refine ⟨⟨image, image, I.stores, I.stores, by simp, by simp⟩, ?_⟩
    intro old new hold hnew
    cases hold.symm.trans hnew
    simp
  | some fork =>
    obtain ⟨-, grown, -, A, stores⟩ := hflushed
    have S : (image.rewrite grown).Sound build.params :=
      ⟨A.sound.kept, A.sound.paced, A.sound.tids_len, A.sound.words⟩
    refine ⟨⟨image, image.rewrite grown, I.stores, stores, A.rows_eq, A.unrankable_eq⟩, ?_⟩
    intro old new hold hnew
    obtain ⟨T, -, -⟩ := I.stores.load hcap I.sound hold
    obtain ⟨T', -, -⟩ := stores.load hcap S hnew
    rw [T.graphRows_eq, T'.graphRows_eq, T.unrankable_eq, T'.unrankable_eq]
    exact ⟨A.rows_eq, A.unrankable_eq⟩

/-- **The savepoint law**, as long as the index is rewritten fewer than 2^64 times. -/
theorem savepoint_law (hcap : metaSize ≤ capacity) :
    SavepointLaw capacity fun build s a => s.Fits build a ∧ s.rewrites < 2 ^ 64 := by
  intro build fork hfit hfork before actions b halong
  have hkeep : ∀ (s : Cluster capacity) (a : ClusterAction), (∃ image, Invariant build s image) →
      (s.Fits build a ∧ s.rewrites < 2 ^ 64) →
      Ensures (step build.arity s a) fun s' => ∃ image, Invariant build s' image := by
    rintro s a ⟨image, I⟩ ⟨hfit', hfew⟩
    obtain ⟨image', I', -⟩ := I.next hcap hfew a hfit'
    exact ensures_pure.mpr ⟨image', I'⟩
  obtain ⟨image₀, I₀, -⟩ := Invariant.start hcap hfork hfit
  obtain ⟨hbefore, hafter⟩ := Run.along_split halong
  obtain ⟨s, hrun, hrest, hI⟩ := hafter.of_ensures (Run.ensures_run hkeep ⟨image₀, I₀⟩ hbefore)
  refine ⟨s, hrun, fun hidle hopen => ?_⟩
  obtain ⟨hactions, hcommit⟩ := Run.along_split hrest
  obtain ⟨s', hrun', hlast, image, I⟩ := hcommit.of_ensures (Run.ensures_run hkeep hI hactions)
  refine ⟨s', hrun', ?_⟩
  have hnest := (run_nest hopen).elim hrun'
  rw [hidle] at hnest
  have hgains := I.gains hcap hlast.1.2 hlast.1.1
  rw [hnest] at hgains
  exact hgains

omit [Arith] in
/-- Savepoints around rows of both kinds, one of them rolled back after another backend has written. -/
def savepointActions : List ClusterAction :=
  [.savepoint 0, .insert 1 (sampleRow none 4), .insert 0 (sampleRow (some [F32.zero]) 3),
    .savepoint 0, .insert 0 (sampleRow (some [F32.one]) 5), .insert 0 (sampleRow none 6), .commit 1,
    .rollback 0, .savepoint 0, .insert 0 (sampleRow none 7), .release 0]

omit [Arith] in
theorem savepoint_law_sample :
    Ensures (@Build.fork 8168 Arith.ieee sampleBuild) fun fork =>
      Ensures (run (@step 8168 Arith.ieee sampleBuild.arity) (start fork) savepointActions) fun s =>
        After (fun written => @Gains 8168 Arith.ieee sampleBuild.arity s.fork
            (written.getD s.fork) (survivors 0 savepointActions))
          (@flushPending 8168 Arith.ieee sampleBuild.arity s.fork (s.backends 0).write) := by
  have hsample : Ensures (@Build.fork 8168 Arith.ieee sampleBuild) fun fork =>
      Along (@step 8168 Arith.ieee sampleBuild.arity)
        (fun s a => @Fits 8168 Arith.ieee sampleBuild s a ∧ s.rewrites < 2 ^ 64) (start fork)
        ([] ++ (savepointActions ++ [.commit 0])) ∧
      Along (@step 8168 Arith.ieee sampleBuild.arity) (@Open 8168 Arith.ieee sampleBuild.arity 0)
        (start fork) savepointActions := by
    decide +kernel
  obtain ⟨fork, hfork, halong, hopen⟩ := hsample
  obtain ⟨s, hstart, hlaw⟩ := @savepoint_law 8168 Arith.ieee (by decide) sampleBuild fork
    (by decide +kernel) hfork [] savepointActions 0 halong
  cases hstart
  exact ⟨fork, hfork, hlaw rfl hopen⟩

omit [Arith] in
example : (survivors 0 savepointActions).map (fun row => row.tid) = [(0, 3), (0, 7)] := by
  decide

end Cluster

/-! ## The generation wraps -/

namespace Wrapped

attribute [local instance] Arith.ieee

/-- Nothing the transaction does raises, and the others do not end it. -/
theorem history_open {fork : Fork 8168} (hfork : build.fork = .ok fork) (n : Nat) :
    Along (Cluster.step 0) (Cluster.Open 0 0) (Cluster.start fork) (history n) := by
  have hinsert : Ensures (build.fork : Outcome PageError (Fork 8168)) fun fork =>
      Ensures (pendingInsert 0 fork none (bare 0).toRow) fun _ => True := by
    decide +kernel
  refine ⟨fun _ => hinsert.elim hfork, Run.along_of_forall ?_ _⟩
  have hcycle : ∀ a ∈ cycle, ∀ s : Cluster 8168, s.Open 0 0 a := by
    intro a ha s
    simp only [cycle, List.mem_cons, List.not_mem_nil, or_false] at ha
    rcases ha with rfl | rfl | rfl
    · exact fun hb => absurd hb one_ne_zero
    · exact one_ne_zero
    · trivial
  intro a ha
  rcases List.mem_append.mp ha with ha | ha
  · exact hcycle a ha
  · obtain ⟨actions, hactions, ha⟩ := List.mem_flatten.mp ha
    rw [List.eq_of_mem_replicate hactions] at ha
    exact hcycle a ha

/-- A number of rewrites that brings the generation back brings back a row that was vacuumed. -/
theorem gained_of_wrap {n : Nat} (hn : generationAt (2 * (n + 1)) = firstGeneration) :
    ¬ Cluster.SavepointLaw 8168 fun build s a => s.Fits build a := by
  intro hall
  obtain ⟨fork, hfork, halong, s, hrun, h⟩ := waits n
  obtain ⟨hfits, fork', hflush, hload⟩ := h.stale hn
  have hlast : Along (Cluster.step 0) (fun s a => s.Fits build a) s [.commit 0] := ⟨hfits, trivial⟩
  have hfit : build.Fits := by decide +kernel
  have hnone : Durable [] := by decide +kernel
  have halong' := Run.along_append halong hrun hlast
  have hopen := history_open hfork n
  obtain ⟨s₀, hstart, hlaw⟩ := hall build fork hfit hfork [] (history n) 0 halong'
  cases hstart
  obtain ⟨s', hrun', hgains⟩ := hlaw rfl hopen
  cases hrun.symm.trans hrun'
  -- one row survives, and the side table grew by two
  have hkept : survivors 0 (history n) = [(bare 0).toRow] := by
    have hnest := (Cluster.run_nest hopen).elim hrun
    rw [h.first] at hnest
    exact (congrArg Nest.all hnest).symm
  have hunr := ((hgains.elim hflush).2 _ _ (load hnone h.stores) hload).2
  rw [hkept] at hunr
  have htwo := congrArg List.length hunr
  simp [plain, Row.vectorless?, bare, Cluster.sampleRow] at htwo

end Wrapped

/-- Without the bound on the rewrites a commit can bring more than its rows. -/
theorem Cluster.not_savepointLaw : ¬ @Cluster.SavepointLaw Arith.ieee 8168
    fun build s a => @Cluster.Fits 8168 Arith.ieee build s a :=
  @Wrapped.gained_of_wrap (2 ^ 63 - 1) rfl

end Brindle
