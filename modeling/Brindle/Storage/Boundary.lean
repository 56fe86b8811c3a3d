/-
# Brindle.Storage.Boundary — what a boundary, or a statement, does to the levels.

A savepoint puts one more level in front of the ones there are, a release takes the second one out, and
whatever a statement does to the catalog, the heap or the slot of a rebuilt index is undone by one
rollback. Each is an equation between scopes, so that what is known of the levels before is known of
the levels after.
-/
import Brindle.Lib.Stash
import Brindle.Storage.Levels

namespace Brindle

open PendingWrite (undo)
open Stash (firstUnder firstUnder_map firstUnder_filter firstUnder_handedUp filter_handedUp
  handedUp mem_of_firstUnder)

namespace Scope

variable {σ τ : Scope} {k : Nat}

/-- Every write, staged or set aside, is one the code keeps. -/
structure Kept (σ : Scope) : Prop where
  slot : ∀ w, σ.pending = some w → w.Kept
  aside : ∀ entry ∈ σ.discarded, entry.2.Kept

/-! ## The levels of a scope -/

theorem level_of_rollback (h : σ.rollback = τ.rollback) (k : Nat) :
    σ.level (k + 1) = τ.level (k + 1) := by
  rw [level_succ, level_succ, h]

theorem frames_level (σ : Scope) (k : Nat) : (σ.level k).frames = σ.frames.drop k := by
  induction k generalizing σ with
  | zero => rfl
  | succ k ih =>
    rw [level_succ, ih]
    unfold rollback
    cases hframes : σ.frames with
    | nil => simp [hframes]
    | cons frame rest => rfl

/-- A level has the catalog and the dues of the frame its last rollback popped. -/
theorem level_of_frame {frame : Frame} (h : σ.frames[k]? = some frame) :
    (σ.level (k + 1)).catalog = frame.catalog ∧ (σ.level (k + 1)).dues = frame.dues := by
  have hfirst : (σ.level k).frames.head? = some frame := by
    rw [frames_level, List.head?_drop, h]
  rw [show σ.level (k + 1) = (σ.level k).rollback from (level_add σ k 1).symm]
  unfold rollback
  cases hframes : (σ.level k).frames with
  | nil => simp [hframes] at hfirst
  | cons frame' rest =>
    have hsame : frame' = frame := by simpa [hframes] using hfirst
    rw [hsame]
    exact ⟨rfl, rfl⟩

theorem catalog_setPending (hk : k ≤ σ.depth) (p : Option PendingWrite) :
    ((σ.setPending p).level k).catalog = (σ.level k).catalog := by
  rw [level_setPending hk]
  rfl

theorem Kept.rollback (K : σ.Kept) : σ.rollback.Kept := by
  unfold Scope.rollback
  cases hframes : σ.frames with
  | nil => exact K
  | cons frame rest =>
    refine ⟨?_, ?_⟩
    · intro w hw
      obtain ⟨w', hw', rfl⟩ := Option.map_eq_some_iff.mp hw
      refine (show w'.Kept from ?_).applyMarkEvent .abortSub
      cases haside : σ.asideOf frame.subid with
      | none =>
        rw [haside] at hw'
        exact K.slot w' hw'
      | some e =>
        rw [haside] at hw'
        cases hw'
        exact K.aside _ (mem_of_firstUnder haside)
    · intro entry hentry
      obtain ⟨old, hold, rfl⟩ := List.mem_map.mp hentry
      exact (K.aside old (List.mem_of_mem_filter hold)).applyMarkEvent .abortSub

theorem Kept.level (K : σ.Kept) (k : Nat) : (σ.level k).Kept := by
  induction k generalizing σ with
  | zero => exact K
  | succ k ih => exact ih K.rollback

/-! ## Boundaries -/

/-- Move every write across a boundary. -/
def moved (σ : Scope) (event : SubXactEvent) : Scope :=
  { σ with
    pending := σ.pending.map fun w => w.applyMarkEvent event
    discarded := σ.discarded.map fun entry => (entry.1, entry.2.applyMarkEvent event) }

theorem Kept.moved (K : σ.Kept) (event : SubXactEvent) : (σ.moved event).Kept where
  slot w hw := by
    obtain ⟨w', hw', rfl⟩ := Option.map_eq_some_iff.mp hw
    exact (K.slot w' hw').applyMarkEvent event
  aside entry hentry := by
    obtain ⟨old, hold, rfl⟩ := List.mem_map.mp hentry
    exact (K.aside old hold).applyMarkEvent event

/-- Open a subtransaction. -/
def savepoint (σ : Scope) (subid : SubTransactionId) : Scope :=
  { σ.moved .startSub with frames := ⟨subid, σ.catalog, σ.dues⟩ :: σ.frames }

/-- **Rolling back a savepoint just opened changes nothing.** -/
theorem rollback_savepoint (K : σ.Kept) {subid : SubTransactionId}
    (hfresh : ∀ entry ∈ σ.discarded, entry.1 ≠ subid) : (σ.savepoint subid).rollback = σ := by
  obtain ⟨pending, discarded, catalog, dues, frames⟩ := σ
  have hnone : firstUnder (discarded.map fun entry => (entry.1, entry.2.applyMarkEvent .startSub))
      subid = none := by
    rw [firstUnder_map fun w : PendingWrite => w.applyMarkEvent .startSub,
      Stash.firstUnder_eq_none.mpr hfresh]
    rfl
  have hpending : ((firstUnder (discarded.map fun entry =>
        (entry.1, entry.2.applyMarkEvent .startSub)) subid <|>
      pending.map fun w => w.applyMarkEvent .startSub).map undo) = pending := by
    rw [hnone]
    cases pending with
    | none => rfl
    | some w => exact congrArg some (K.slot w rfl).abort_start
  have hdiscarded : ((discarded.map fun entry =>
        (entry.1, entry.2.applyMarkEvent .startSub)).filter fun entry => entry.1 ≠ subid).map
      (fun entry => (entry.1, entry.2.undo)) = discarded := by
    rw [List.filter_eq_self.mpr, List.map_map]
    · refine (List.map_congr_left fun entry hentry => ?_).trans (List.map_id discarded)
      exact Prod.ext rfl (K.aside entry hentry).abort_start
    · intro entry hentry
      obtain ⟨old, hold, rfl⟩ := List.mem_map.mp hentry
      simpa using hfresh old hold
  show Scope.mk _ _ catalog dues frames = Scope.mk _ _ _ _ _
  exact congrArg₂ (fun p d => Scope.mk p d catalog dues frames) hpending hdiscarded

/-- Release the innermost subtransaction. -/
def release (σ : Scope) : Scope :=
  match σ.frames with
  | [] => σ
  | frame :: rest =>
    { { σ with discarded := handedUp σ.discarded frame.subid (subidOf rest) }.moved .commitSub with
      frames := rest }

theorem orElse_map {α β : Type} (f : α → β) (a b : Option α) :
    (a <|> b).map f = (a.map f <|> b.map f) := by
  cases a <;> rfl

/-- **Rolling back to a savepoint whose inner one was released rolls back both.** -/
theorem rollback_release (K : σ.Kept) {inner outer : Frame} {rest : List Frame}
    (hframes : σ.frames = inner :: outer :: rest) (hne : outer.subid ≠ inner.subid) :
    σ.release.rollback = σ.rollback.rollback := by
  obtain ⟨pending, discarded, catalog, dues, frames⟩ := σ
  subst hframes
  -- what one rollback puts in the slot: the first write on the way, from the inside
  have hslot : (firstUnder discarded outer.subid <|> firstUnder discarded inner.subid <|> pending).map
        (fun w => (w.applyMarkEvent .commitSub).undo) =
      (firstUnder discarded outer.subid <|> firstUnder discarded inner.subid <|> pending).map
        fun w => w.undo.undo := by
    refine Option.map_congr fun w hw => ?_
    refine (show w.Kept from ?_).abort_commit
    cases houter : firstUnder discarded outer.subid with
    | some e =>
      rw [houter] at hw
      cases hw
      exact K.aside _ (mem_of_firstUnder houter)
    | none =>
      rw [houter] at hw
      cases hinner : firstUnder discarded inner.subid with
      | some e =>
        rw [hinner] at hw
        cases hw
        exact K.aside _ (mem_of_firstUnder hinner)
      | none =>
        rw [hinner] at hw
        exact K.slot w hw
  have hassoc : ((firstUnder discarded outer.subid <|> firstUnder discarded inner.subid) <|>
      pending) = (firstUnder discarded outer.subid <|> firstUnder discarded inner.subid <|>
        pending) := by
    cases firstUnder discarded outer.subid <;> rfl
  have hpending : (firstUnder ((handedUp discarded inner.subid outer.subid).map fun entry =>
        (entry.1, entry.2.applyMarkEvent .commitSub)) outer.subid <|>
      pending.map fun w => w.applyMarkEvent .commitSub).map undo =
      (firstUnder ((discarded.filter fun entry => entry.1 ≠ inner.subid).map fun entry =>
        (entry.1, entry.2.undo)) outer.subid <|>
      (firstUnder discarded inner.subid <|> pending).map undo).map undo := by
    rw [firstUnder_map fun w : PendingWrite => w.applyMarkEvent .commitSub,
      firstUnder_handedUp hne, ← orElse_map, hassoc, Option.map_map,
      firstUnder_map, firstUnder_filter hne, ← orElse_map, Option.map_map]
    exact hslot
  have hdiscarded : (((handedUp discarded inner.subid outer.subid).map fun entry =>
        (entry.1, entry.2.applyMarkEvent .commitSub)).filter fun entry =>
          entry.1 ≠ outer.subid).map (fun entry => (entry.1, entry.2.undo)) =
      (((discarded.filter fun entry => entry.1 ≠ inner.subid).map fun entry =>
        (entry.1, entry.2.undo)).filter fun entry => entry.1 ≠ outer.subid).map
          (fun entry => (entry.1, entry.2.undo)) := by
    rw [List.filter_map, List.filter_map, List.map_map, List.map_map]
    show ((handedUp discarded inner.subid outer.subid).filter fun entry =>
      entry.1 ≠ outer.subid).map _ = ((discarded.filter fun entry =>
        entry.1 ≠ inner.subid).filter fun entry => entry.1 ≠ outer.subid).map _
    rw [filter_handedUp]
    refine List.map_congr_left fun entry hentry => Prod.ext rfl ?_
    exact (K.aside entry (List.mem_of_mem_filter (List.mem_of_mem_filter hentry))).abort_commit
  show Scope.mk _ _ outer.catalog outer.dues rest = Scope.mk _ _ outer.catalog outer.dues rest
  exact congrArg₂ (fun p d => Scope.mk p d outer.catalog outer.dues rest) hpending hdiscarded

theorem depth_release (σ : Scope) : σ.release.depth = σ.depth - 1 := by
  unfold release depth
  cases hframes : σ.frames with
  | nil => simp [hframes]
  | cons frame rest => rfl

theorem level_savepoint (K : σ.Kept) {subid : SubTransactionId}
    (hfresh : ∀ entry ∈ σ.discarded, entry.1 ≠ subid) (k : Nat) :
    (σ.savepoint subid).level (k + 1) = σ.level k := by
  rw [level_succ, rollback_savepoint K hfresh]

/-- Beyond the innermost level, a release drops one. -/
theorem level_release (K : σ.Kept)
    (hsubids : σ.frames.Pairwise fun inner outer => outer.subid < inner.subid)
    (hk : k + 1 ≤ σ.release.depth) : σ.release.level (k + 1) = σ.level (k + 2) := by
  rw [depth_release] at hk
  cases hframes : σ.frames with
  | nil => simp [depth, hframes] at hk
  | cons inner rest =>
    cases rest with
    | nil => simp [depth, hframes] at hk
    | cons outer rest =>
      rw [hframes] at hsubids
      have hlt : outer.subid < inner.subid := List.rel_of_pairwise_cons hsubids List.mem_cons_self
      rw [level_succ, rollback_release K hframes (Nat.ne_of_lt hlt)]
      rfl

theorem Kept.setPending_none (K : σ.Kept) : (σ.setPending none).Kept := ⟨nofun, K.aside⟩

theorem override_savepoint (K : σ.Kept) {subid : SubTransactionId}
    (hfresh : ∀ entry ∈ σ.discarded, entry.1 ≠ subid) (k : Nat) :
    (σ.savepoint subid).override (k + 1) = σ.override k := by
  show (((σ.setPending none).savepoint subid).level (k + 1)).pending = _
  rw [level_savepoint K.setPending_none hfresh]
  rfl

theorem override_release (K : σ.Kept)
    (hsubids : σ.frames.Pairwise fun inner outer => outer.subid < inner.subid)
    (hk : k + 1 ≤ σ.release.depth) : σ.release.override (k + 1) = σ.override (k + 2) := by
  have hsame : σ.release.setPending none = (σ.setPending none).release := by
    obtain ⟨pending, discarded, catalog, dues, frames⟩ := σ
    cases frames <;> rfl
  have hdepth : k + 1 ≤ (σ.setPending none).release.depth := by
    rw [depth_release] at hk ⊢
    exact hk
  show ((σ.release.setPending none).level (k + 1)).pending = _
  rw [hsame, level_release K.setPending_none hsubids hdepth]
  rfl

/-! ## Statements -/

/-- One rollback undoes what a statement does to the catalog and to the heap. -/
theorem rollback_congr (hpending : σ.pending = τ.pending) (hdiscarded : σ.discarded = τ.discarded)
    (hframes : σ.frames = τ.frames) (hopen : σ.frames ≠ []) : σ.rollback = τ.rollback := by
  unfold rollback asideOf
  rw [← hframes, ← hpending, ← hdiscarded]
  cases hcase : σ.frames with
  | nil => exact absurd hcase hopen
  | cons frame rest => rfl

theorem frames_ne_nil (hk : k + 1 ≤ σ.depth) : σ.frames ≠ [] := by
  intro hnil
  simp [depth, hnil] at hk

theorem level_congr (hpending : σ.pending = τ.pending) (hdiscarded : σ.discarded = τ.discarded)
    (hframes : σ.frames = τ.frames) (hk : k + 1 ≤ σ.depth) : σ.level (k + 1) = τ.level (k + 1) :=
  level_of_rollback (rollback_congr hpending hdiscarded hframes (frames_ne_nil hk)) k

theorem override_congr (hdiscarded : σ.discarded = τ.discarded) (hframes : σ.frames = τ.frames)
    (hk : k + 1 ≤ σ.depth) : σ.override (k + 1) = τ.override (k + 1) :=
  congrArg Scope.pending
    (level_congr (σ := σ.setPending none) (τ := τ.setPending none) rfl hdiscarded hframes hk)

/-- What an index owes changes in front only. -/
def setDues (σ : Scope) (dues : Oid → Dues) : Scope := { σ with dues }

theorem level_setDues (dues : Oid → Dues) (hk : k + 1 ≤ σ.depth) :
    (σ.setDues dues).level (k + 1) = σ.level (k + 1) :=
  level_congr (σ := σ.setDues dues) rfl rfl rfl hk

theorem override_setDues (dues : Oid → Dues) (hk : k ≤ σ.depth) :
    (σ.setDues dues).override k = σ.override k := by
  cases k with
  | zero => rfl
  | succ k => exact override_congr (σ := σ.setDues dues) rfl rfl hk

/-- Set aside what is staged for `oid`, against the innermost subtransaction. -/
def forget (σ : Scope) (oid : Oid) : Scope :=
  match σ.pending with
  | none => σ
  | some w =>
    if w.indexOid ≠ oid then σ
    else if σ.discarded.any fun entry => entry.1 = subidOf σ.frames then σ.setPending none
    else { σ with
      pending := none
      discarded := σ.discarded ++ [(subidOf σ.frames, w)] }

/-- What is staged for another index stays, and what is staged for `oid` goes. -/
theorem forget_cases (σ : Scope) (oid : Oid) :
    (σ.forget oid = σ ∧ ∀ w, σ.pending = some w → w.indexOid ≠ oid) ∨
      ∃ w, σ.pending = some w ∧ w.indexOid = oid ∧ (σ.forget oid).pending = none := by
  cases hpending : σ.pending with
  | none =>
    refine .inl ⟨?_, nofun⟩
    unfold forget
    rw [hpending]
  | some w =>
    by_cases hoid : w.indexOid = oid
    · refine .inr ⟨w, rfl, hoid, ?_⟩
      unfold forget
      rw [hpending]
      dsimp only
      split_ifs <;> first | rfl | contradiction
    · refine .inl ⟨?_, ?_⟩
      · unfold forget
        rw [hpending]
        exact if_pos hoid
      · intro w' hw'
        cases hw'
        exact hoid

/-- **One rollback brings back what a rebuild set aside.** -/
theorem rollback_forget (oid : Oid) (hopen : σ.frames ≠ []) :
    (σ.forget oid).rollback = σ.rollback := by
  obtain ⟨pending, discarded, catalog, dues, frames⟩ := σ
  cases frames with
  | nil => exact absurd rfl hopen
  | cons frame rest =>
    cases pending with
    | none => rfl
    | some w =>
      unfold forget
      dsimp only
      have hsubid : subidOf (frame :: rest) = frame.subid := rfl
      rw [hsubid]
      split_ifs with hoid hany
      · rfl
      · -- an older write of the subtransaction is what a rollback brings back
        obtain ⟨e, he⟩ := Option.ne_none_iff_exists'.mp (Stash.any_iff_firstUnder.mp hany)
        show Scope.mk ((firstUnder discarded frame.subid <|> none).map undo) _ _ _ _ =
          Scope.mk ((firstUnder discarded frame.subid <|> some w).map undo) _ _ _ _
        rw [he]
        rfl
      · have hnone : firstUnder discarded frame.subid = none := by
          by_contra hsome
          exact hany (Stash.any_iff_firstUnder.mpr hsome)
        have hfilter : (discarded ++ [(frame.subid, w)]).filter (fun entry =>
            entry.1 ≠ frame.subid) = discarded.filter fun entry => entry.1 ≠ frame.subid := by
          simp
        show Scope.mk ((firstUnder (discarded ++ [(frame.subid, w)]) frame.subid <|> none).map undo)
            (((discarded ++ [(frame.subid, w)]).filter fun entry => entry.1 ≠ frame.subid).map
              fun entry => (entry.1, entry.2.undo)) _ _ _ =
          Scope.mk ((firstUnder discarded frame.subid <|> some w).map undo) _ _ _ _
        rw [Stash.firstUnder_append hnone, hnone, hfilter]
        rfl

theorem frames_forget (σ : Scope) (oid : Oid) : (σ.forget oid).frames = σ.frames := by
  unfold forget
  split
  · rfl
  · split_ifs <;> rfl

/-- The write set aside is new under its key. -/
theorem discarded_forget (σ : Scope) (oid : Oid) : (σ.forget oid).discarded = σ.discarded ∨
    ∃ w, σ.pending = some w ∧ (∀ entry ∈ σ.discarded, entry.1 ≠ subidOf σ.frames) ∧
      (σ.forget oid).discarded = σ.discarded ++ [(subidOf σ.frames, w)] := by
  cases hpending : σ.pending with
  | none =>
    left
    unfold forget
    rw [hpending]
  | some w =>
    unfold forget
    rw [hpending]
    dsimp only
    split_ifs with hoid hany
    · exact .inl rfl
    · exact .inl rfl
    · refine .inr ⟨w, rfl, ?_, rfl⟩
      intro entry hentry heq
      exact hany (List.any_eq_true.mpr ⟨entry, hentry, by simpa using heq⟩)

theorem Kept.forget (K : σ.Kept) (oid : Oid) : (σ.forget oid).Kept where
  slot w hw := by
    rcases σ.forget_cases oid with ⟨hsame, -⟩ | ⟨-, -, -, hnone⟩
    · exact K.slot w (hsame ▸ hw)
    · rw [hnone] at hw
      cases hw
  aside entry hentry := by
    rcases σ.discarded_forget oid with hsame | ⟨w, hw, -, hpush⟩
    · exact K.aside entry (hsame ▸ hentry)
    · rw [hpush] at hentry
      rcases List.mem_append.mp hentry with hold | hnew
      · exact K.aside entry hold
      · rw [List.mem_singleton.mp hnew]
        exact K.slot w hw

/-- What a rebuild puts in the way of the slot is a write for the rebuilt index. -/
theorem override_forget {oid : Oid} {e : PendingWrite} (hk : k + 1 ≤ σ.depth)
    (h : (σ.forget oid).override (k + 1) = some e) :
    e.indexOid = oid ∨ σ.override (k + 1) = some e := by
  have hopen : σ.frames ≠ [] := by
    intro hnil
    simp [depth, hnil] at hk
  rcases σ.forget_cases oid with ⟨hsame, -⟩ | ⟨w, hw, hoid, hnone⟩
  · rw [hsame] at h
    exact .inr h
  · have hslot : (σ.forget oid).setPending none = σ.forget oid := by
      unfold setPending
      rw [← hnone]
    have hlevel : (σ.forget oid).override (k + 1) = (σ.level (k + 1)).pending := by
      show (((σ.forget oid).setPending none).level (k + 1)).pending = _
      rw [hslot, level_of_rollback (rollback_forget oid hopen)]
    rw [hlevel, pending_level hk, hw] at h
    cases hover : σ.override (k + 1) with
    | some e' =>
      rw [hover] at h
      exact .inr h
    | none =>
      rw [hover] at h
      cases h
      exact .inl ((PendingWrite.indexOid_undo w (k + 1)).trans hoid)

/-- Another backend's rows, in the heap of every level. -/
def mapDues (σ : Scope) (change : (Oid → Dues) → Oid → Dues) : Scope :=
  { σ with
    dues := change σ.dues
    frames := σ.frames.map fun frame => { frame with dues := change frame.dues } }

theorem level_mapDues (σ : Scope) (change : (Oid → Dues) → Oid → Dues) (k : Nat) :
    (σ.mapDues change).level k = (σ.level k).mapDues change := by
  induction k generalizing σ with
  | zero => rfl
  | succ k ih =>
    rw [level_succ, level_succ, ← ih]
    congr 1
    obtain ⟨pending, discarded, catalog, dues, frames⟩ := σ
    cases frames <;> rfl

theorem override_mapDues (σ : Scope) (change : (Oid → Dues) → Oid → Dues) (k : Nat) :
    (σ.mapDues change).override k = σ.override k := by
  have hlevel := level_mapDues (σ.setPending none) change k
  exact (congrArg Scope.pending hlevel :)

end Scope

namespace Session

variable (s : Session)

theorem scope_release : s.release.scope = s.scope.release := by
  unfold Session.release Scope.release Session.scope
  cases hframes : s.frames with
  | nil => simp only [hframes]
  | cons frame rest => rfl

/-- A rebuild touches the slot and what is set aside, and nothing else in memory. -/
theorem world_forget (oid : Oid) : s.world.forgetPending oid (subidOf s.frames) =
    { s.world with
      pending := (s.scope.forget oid).pending
      discarded := (s.scope.forget oid).discarded } := by
  obtain ⟨⟨pending, discarded, catalog, disk, columns⟩, frames, -, -, -, -, -, -, -⟩ := s
  cases pending with
  | none => rfl
  | some w =>
    unfold World.forgetPending Scope.forget Session.scope
    dsimp only
    split_ifs <;> first | rfl | contradiction

end Session

end Brindle
