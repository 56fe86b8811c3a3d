/-
# Brindle.Storage.Slot — filling, settling and emptying the slot at every level.

`Session.Sound` is the invariant of a transaction: every level a rollback leads to is accounted for, and
the level in front too unless a command has just raised. What a call may do to the slot is read off its
specification, one lemma each: a settled write keeps its rows at every level, a write-back moves them to
the file, and a slot may be emptied only of rows that no outer level restores in another file.
-/
import Brindle.Storage.Ledger

namespace Brindle

open PendingWrite (undo)
open Scope (Accounts Anchored)

namespace PendingWrite

/-- Without an outstanding rewind every staged row survives. -/
theorem surviving_of_settled {w : PendingWrite} (C : w.Coherent) (hrewind : w.rewindTo = none) :
    w.surviving = heapRows w.stagedRows w.stagedUnrankable := by
  have hlevel : w.sized.level = w.staged := by
    show w.rewindTo.getD w.staged = w.staged
    rw [hrewind]
    rfl
  unfold surviving survivingRows survivingUnrankable
  rw [hlevel, C.staged_eq, List.take_length, List.take_length]

theorem Kept.surviving_undo_eq_zero {w : PendingWrite} (K : w.Kept) (h : w.surviving = 0) (k : Nat) :
    (undo^[k] w).surviving = 0 :=
  Multiset.le_zero.mp (h ▸ K.surviving_undo_le k)

theorem Kept.undo_surviving_eq_zero {w : PendingWrite} (K : w.Kept) (h : (undo^[1] w).surviving = 0)
    (k : Nat) : (undo^[k + 1] w).surviving = 0 := by
  rw [Function.iterate_add_apply]
  exact (K.iterate 1).surviving_undo_eq_zero h k

theorem Kept.dropped {w : PendingWrite} (K : w.Kept) (hrewind : w.rewindTo = some (0, 0)) :
    w.surviving = 0 := by
  refine K.surviving_eq_zero.mpr ?_
  show w.rewindTo.getD w.staged = (0, 0)
  rw [hrewind]
  rfl

end PendingWrite

/-- Carrying out a rewind changes no level. -/
theorem Resettled.surviving_undo {image : Image} {w w' : PendingWrite} (R : Resettled image w w')
    (K : w.Kept) (k : Nat) : (undo^[k] w').surviving = (undo^[k] w).surviving := by
  cases k with
  | zero =>
    show w'.surviving = w.surviving
    rw [PendingWrite.surviving_of_settled R.coherent R.rewindTo_eq, R.rows_eq, R.unrankable_eq]
    rfl
  | succ k =>
    refine PendingWrite.surviving_undo_congr K (R.kept K) R.marks_eq ?_ k
    intro size hsize
    obtain ⟨h1, h2⟩ := Prod.le_def.mp hsize
    rw [R.rows_eq, R.unrankable_eq]
    unfold PendingWrite.survivingRows PendingWrite.survivingUnrankable
    rw [List.take_take, List.take_take, min_eq_left h1, min_eq_left h2]
    exact ⟨rfl, rfl⟩

/-- Staging rows changes no outer level. -/
theorem PendingWrite.Stages.surviving_undo {w w' : PendingWrite} {rows : List GraphRow}
    {unrankable : List UnrankableRow} (S : w.Stages w' rows unrankable) (K : w.Kept)
    (hrewind : w.rewindTo = none) (k : Nat) :
    (undo^[k + 1] w').surviving = (undo^[k + 1] w).surviving := by
  refine PendingWrite.surviving_undo_congr K (S.kept K hrewind) S.marks_eq ?_ k
  intro size hsize
  obtain ⟨h1, h2⟩ := Prod.le_def.mp (hsize.trans K.level_le)
  rw [K.toCoherent.staged_eq] at h1 h2
  rw [S.rows_eq, S.unrankable_eq]
  exact ⟨List.take_append_of_le_length h1, List.take_append_of_le_length h2⟩

/-- The rows a write with no outstanding rewind gets. -/
theorem PendingWrite.Stages.surviving_eq {w w' : PendingWrite} {rows : List GraphRow}
    {unrankable : List UnrankableRow} (S : w.Stages w' rows unrankable) (K : w.Kept)
    (hrewind : w.rewindTo = none) : w'.surviving = w.surviving + heapRows rows unrankable := by
  rw [surviving_of_settled S.coherent (S.rewindTo_eq.trans hrewind),
    surviving_of_settled K.toCoherent hrewind, S.rows_eq, S.unrankable_eq, heapRows_append]

/-- The invariant of a transaction. -/
structure Session.Sound (s : Session) : Prop where
  valid : ∀ oid file, (s.world.disk oid file).Valid
  kept : s.scope.Kept
  /-- At most one write is set aside for a subtransaction. -/
  keys : (s.world.discarded.map Prod.fst).Nodup
  keys_lt : ∀ entry ∈ s.world.discarded, entry.1 < s.nextSub
  top_lt : topSubTransactionId < s.nextSub
  subids : s.frames.Pairwise fun inner outer => outer.subid < inner.subid
  subids_lt : ∀ frame ∈ s.frames, frame.subid < s.nextSub
  files : ∀ k ≤ s.scope.depth, ∀ oid file, (s.scope.level k).catalog oid = some file →
    file < s.nextFile
  /-- A level in front in which a command has raised is about to be rolled back. -/
  accounts : ∀ k ≤ s.scope.depth, (k = 0 → s.failed = false) →
    (s.scope.level k).Accounts s.world.disk s.since
  anchored : ∀ i k, i + k ≤ s.scope.depth → (i = 0 → s.failed = false) →
    (s.scope.level i).Anchored s.world.disk s.steady k

namespace Scope

variable {σ : Scope} {disk : Oid → Nat → Image} {since : Oid → Nat → Multiset Row} {k : Nat}
  {w : PendingWrite}

/-- The slot may be emptied as far as a level is concerned that restores none of its rows. -/
theorem Accounts.reached_none (hk : k ≤ σ.depth) (hw : σ.pending = some w)
    (A : (σ.level k).Accounts disk since)
    (hdead : ∀ file, σ.override k = none → (σ.level k).catalog w.indexOid = some file →
      (undo^[k] w).surviving = 0) : (σ.reached k none).Accounts disk since := by
  cases hover : σ.override k with
  | some e =>
    rw [reached_of_override hk hover]
    exact A
  | none =>
    rw [reached_of_none hover]
    refine A.emptied fun oid file hfile => ?_
    rw [pending_level_of_none hk hover, hw]
    show survivingFor oid (some (undo^[k] w)) = 0
    by_cases hoid : w.indexOid = oid
    · rw [← hoid] at hfile
      exact survivingFor_of_dead (hdead file hover hfile)
    · exact survivingFor_ne fun h => hoid ((PendingWrite.indexOid_undo w k).symm.trans h)

/-- A write may take the place of another that has the same rows at a level. -/
theorem Accounts.reached_some (hk : k ≤ σ.depth) (hw : σ.pending = some w)
    (A : (σ.level k).Accounts disk since) {w' : PendingWrite} (hoid : w'.indexOid = w.indexOid)
    (hsame : (undo^[k] w').surviving = (undo^[k] w).surviving)
    (hbased : ∀ file, σ.override k = none → (σ.level k).catalog w.indexOid = some file →
      (undo^[k] w).surviving ≠ 0 → w.Based (disk w.indexOid file) →
        w'.Based (disk w.indexOid file)) : (σ.reached k (some w')).Accounts disk since := by
  cases hover : σ.override k with
  | some e =>
    rw [reached_of_override hk hover]
    exact A
  | none =>
    have hslot : (σ.level k).pending = some (undo^[k] w) := by
      rw [pending_level_of_none hk hover, hw]
      rfl
    have hundo := PendingWrite.indexOid_undo w k
    have hundo' := (PendingWrite.indexOid_undo w' k).trans hoid
    rw [reached_of_none hover]
    refine A.reslot ?_ ?_
    · intro oid
      rw [hslot]
      show survivingFor oid (some (undo^[k] w')) = survivingFor oid (some (undo^[k] w))
      unfold survivingFor
      simp only [hundo, hundo', hsame]
    · intro v file hv hfile hlive
      cases hv
      rw [hundo'] at hfile ⊢
      rw [hsame] at hlive
      have hold := A.based _ file hslot (hundo.symm ▸ hfile) hlive
      rw [hundo, PendingWrite.Based.undo] at hold
      rw [PendingWrite.Based.undo]
      exact hbased file hover hfile hlive hold

end Scope

namespace Scope

variable {σ : Scope} {disk : Oid → Nat → Image} {since : Oid → Nat → Multiset Row} {k : Nat}
  {steady : Bool} {w : PendingWrite}

/-- One file of one index is replaced. -/
def replaced {β : Type} (f : Oid → Nat → β) (oid : Oid) (file : Nat) (v : β) : Oid → Nat → β :=
  Function.update f oid (Function.update (f oid) file v)

theorem replaced_self {β : Type} (f : Oid → Nat → β) (oid : Oid) (file : Nat) (v : β) :
    replaced f oid file v oid file = v := by
  simp [replaced]

theorem replaced_ne {β : Type} (f : Oid → Nat → β) {oid oid' : Oid} {file file' : Nat} (v : β)
    (h : oid' = oid → file' ≠ file) : replaced f oid file v oid' file' = f oid' file' := by
  unfold replaced
  by_cases hoid : oid' = oid
  · rw [hoid, Function.update_self, Function.update_of_ne (h hoid)]
  · rw [Function.update_of_ne hoid]

/-- Rows come to a file. -/
theorem Accounts.bring (A : σ.Accounts disk since) {oid : Oid} {file : Nat} {come : Multiset Row}
    (hnew : σ.catalog oid = some file → ∀ row ∈ (σ.dues oid).own, row ∉ come) :
    σ.Accounts disk (replaced since oid file (since oid file + come)) where
  covered := A.covered
  brought oid' file' hfile' := by
    refine (A.brought oid' file' hfile').trans ?_
    by_cases hsame : oid' = oid ∧ file' = file
    · rw [hsame.1, hsame.2, replaced_self]
      exact Multiset.le_add_right _ _
    · rw [replaced_ne]
      exact fun hoid hfile => hsame ⟨hoid, hfile⟩
  once oid' file' hfile' row hrow := by
    by_cases hsame : oid' = oid ∧ file' = file
    · obtain ⟨rfl, rfl⟩ := hsame
      rw [replaced_self, Multiset.count_add, Multiset.count_eq_zero_of_notMem (hnew hfile' row hrow)]
      exact A.once oid' file' hfile' row hrow
    · rw [replaced_ne]
      · exact A.once oid' file' hfile' row hrow
      · exact fun hoid hfile => hsame ⟨hoid, hfile⟩
  based := A.based

/-- **A write-back**: the rows of the slot are in the file instead. -/
theorem Accounts.stored {file : Nat} {image : Image} (hk : k ≤ σ.depth) (hw : σ.pending = some w)
    (K : w.Kept) (A₀ : σ.Accounts disk since) (A : (σ.level k).Accounts disk since)
    (B : σ.Anchored disk steady k) (hfile : σ.catalog w.indexOid = some file)
    (hhomed : σ.override k = none → (σ.level k).catalog w.indexOid ≠ σ.catalog w.indexOid →
      (undo^[k] w).surviving = 0)
    (hcontents : image.contents = (disk w.indexOid file).contents + w.surviving) :
    (σ.reached k none).Accounts (replaced disk w.indexOid file image) since := by
  have hbound : image.contents ≤ since w.indexOid file := by
    have h := A₀.brought w.indexOid file hfile
    rw [hw, survivingFor_self] at h
    rw [hcontents]
    exact h
  have hundo := PendingWrite.indexOid_undo w k
  cases hover : σ.override k with
  | some e =>
    rw [reached_of_override hk hover]
    have hslot : (σ.level k).pending = some e := by
      rw [pending_level hk, hover]
      rfl
    -- what is set aside for the same index waits for an older file
    have hother : (σ.level k).catalog w.indexOid = some file → e.indexOid ≠ w.indexOid := by
      intro houter hoid
      exact lt_irrefl file (B.aside e file file hover (hoid ▸ hfile) (hoid ▸ houter))
    refine ⟨?_, ?_, A.once, ?_⟩
    · intro oid file' hfile'
      have hold := A.covered oid file' hfile'
      by_cases hsame : oid = w.indexOid ∧ file' = file
      · obtain ⟨rfl, rfl⟩ := hsame
        rw [hslot, survivingFor_ne (hother hfile'), add_zero] at hold ⊢
        rw [replaced_self, hcontents]
        exact hold.trans (Multiset.le_add_right _ _)
      · rw [replaced_ne _ _ fun hoid hfile => hsame ⟨hoid, hfile⟩]
        exact hold
    · intro oid file' hfile'
      by_cases hsame : oid = w.indexOid ∧ file' = file
      · obtain ⟨rfl, rfl⟩ := hsame
        rw [hslot, survivingFor_ne (hother hfile'), add_zero, replaced_self]
        exact hbound
      · rw [replaced_ne _ _ fun hoid hfile => hsame ⟨hoid, hfile⟩]
        exact A.brought oid file' hfile'
    · intro v file' hv hfile' hlive
      cases hslot.symm.trans hv
      rw [replaced_ne]
      · exact A.based e file' hslot hfile' hlive
      · rintro hoid rfl
        rw [hoid] at hfile'
        exact hother hfile' hoid
  | none =>
    have hslot : (σ.level k).pending = some (undo^[k] w) := by
      rw [pending_level_of_none hk hover, hw]
      rfl
    rw [reached_of_none hover]
    refine ⟨?_, ?_, A.once, nofun⟩
    · intro oid file' hfile'
      have hold := A.covered oid file' hfile'
      rw [hslot] at hold
      show _ ≤ _ + 0
      rw [add_zero]
      by_cases hoid : oid = w.indexOid
      · subst hoid
        rw [show survivingFor w.indexOid (some (undo^[k] w)) = (undo^[k] w).surviving by
          rw [← hundo]
          exact survivingFor_self] at hold
        by_cases hsame : file' = file
        · subst hsame
          rw [replaced_self, hcontents]
          exact hold.trans (add_le_add_right (K.surviving_undo_le k) _)
        · rw [replaced_ne _ _ fun _ => hsame]
          rw [hhomed hover, add_zero] at hold
          · exact hold
          · rw [hfile, show (σ.level k).catalog w.indexOid = some file' from hfile']
            simpa using hsame
      · rw [survivingFor_ne (hundo.symm ▸ Ne.symm hoid), add_zero] at hold
        rw [replaced_ne _ _ fun h => absurd h hoid]
        exact hold
    · intro oid file' hfile'
      show _ + 0 ≤ _
      rw [add_zero]
      by_cases hsame : oid = w.indexOid ∧ file' = file
      · obtain ⟨rfl, rfl⟩ := hsame
        rw [replaced_self]
        exact hbound
      · rw [replaced_ne _ _ fun hoid hfile => hsame ⟨hoid, hfile⟩]
        exact (Multiset.le_add_right _ _).trans (A.brought oid file' hfile')

/-- A row is staged, and owed. -/
theorem Accounts.arrived (A : σ.Accounts disk since) (hw : σ.pending = some w) {file : Nat}
    (hfile : σ.catalog w.indexOid = some file) {row : Row}
    (hold : σ.catalog w.indexOid = some file → ∀ row' ∈ (σ.dues w.indexOid).own,
      row' ∉ ({row} : Multiset Row)) {w' : PendingWrite}
    (S : w.Stages w' row.graph?.toList row.vectorless?.toList)
    (hstaged : w'.surviving = w.surviving + {row}) (hbased : w.Based (disk w.indexOid file))
    (hfresh : row ∉ since w.indexOid file) :
    ((σ.setPending (some w')).setDues (Function.update σ.dues w.indexOid
      { σ.dues w.indexOid with own := (σ.dues w.indexOid).own ++ [row] })).Accounts disk
        (replaced since w.indexOid file (since w.indexOid file + {row})) := by
  have hself : survivingFor w.indexOid (some w') = survivingFor w.indexOid σ.pending + {row} := by
    rw [hw, survivingFor_self, ← hstaged, ← S.indexOid_eq]
    exact survivingFor_self
  have hother : ∀ oid, oid ≠ w.indexOid →
      survivingFor oid (some w') = survivingFor oid σ.pending := by
    intro oid hoid
    rw [hw, survivingFor_ne (Ne.symm hoid), survivingFor_ne]
    rw [S.indexOid_eq]
    exact Ne.symm hoid
  have hdues : ∀ oid, oid ≠ w.indexOid → Function.update σ.dues w.indexOid
      { σ.dues w.indexOid with own := (σ.dues w.indexOid).own ++ [row] } oid = σ.dues oid :=
    fun oid hoid => Function.update_of_ne hoid _ _
  refine ⟨?_, ?_, ?_, ?_⟩
  · intro oid file' hfile'
    show (Function.update σ.dues w.indexOid _ oid).due ≤ _ + survivingFor oid (some w')
    have hcovered := A.covered oid file' hfile'
    by_cases hoid : oid = w.indexOid
    · subst hoid
      rw [Function.update_self, hself, ← add_assoc]
      refine le_trans (le_of_eq ?_) (add_le_add_left hcovered {row})
      unfold Dues.due
      rw [← Multiset.coe_add, add_right_comm]
      rfl
    · rw [hdues oid hoid, hother oid hoid]
      exact hcovered
  · intro oid file' hfile'
    show _ + survivingFor oid (some w') ≤ _
    have hbrought := A.brought oid file' hfile'
    by_cases hoid : oid = w.indexOid
    · subst hoid
      cases hfile.symm.trans hfile'
      rw [hself, replaced_self, ← add_assoc]
      exact add_le_add_left hbrought {row}
    · rw [hother oid hoid, replaced_ne _ _ fun h => absurd h hoid]
      exact hbrought
  · intro oid file' hfile' row' hrow'
    have hrow' : row' ∈ (Function.update σ.dues w.indexOid _ oid).own := hrow'
    by_cases hoid : oid = w.indexOid
    · subst hoid
      cases hfile.symm.trans hfile'
      rw [Function.update_self] at hrow'
      rw [replaced_self, Multiset.count_add]
      rcases List.mem_append.mp hrow' with hrow' | hrow'
      · rw [Multiset.count_eq_zero_of_notMem (hold hfile row' hrow')]
        exact A.once _ _ hfile row' hrow'
      · rw [List.mem_singleton.mp hrow', Multiset.count_eq_zero_of_notMem hfresh,
          Multiset.count_singleton_self]
    · rw [hdues oid hoid] at hrow'
      rw [replaced_ne _ _ fun h => absurd h hoid]
      exact A.once oid file' hfile' row' hrow'
  · intro v file' hv hfile' _ hgen
    cases hv
    rw [S.indexOid_eq] at hfile' hgen ⊢
    cases hfile.symm.trans hfile'
    exact S.extends_of _ (hbased (hgen.trans S.baseGeneration_eq))

/-- A file that neither of two levels has rows staged on may change. -/
theorem Anchored.congr {disk' : Oid → Nat → Image} (A : σ.Anchored disk steady k)
    (hdisk : ∀ w file outer, σ.pending = some w → σ.catalog w.indexOid = some file →
      (σ.level k).catalog w.indexOid = some outer →
        disk w.indexOid outer = disk w.indexOid file →
          disk' w.indexOid outer = disk' w.indexOid file) :
    σ.Anchored disk' steady k where
  newer := A.newer
  aside := A.aside
  same w file outer hover hw hfile houter hlive :=
    hdisk w file outer hw hfile houter (A.same w file outer hover hw hfile houter hlive)
  still := A.still

/-- What is owed in front does not matter to the anchors. -/
theorem Anchored.setDues (A : σ.Anchored disk steady k) (hk : k ≤ σ.depth) (dues : Oid → Dues) :
    (σ.setDues dues).Anchored disk steady k := by
  have hcat : ((σ.setDues dues).level k).catalog = (σ.level k).catalog := by
    cases k with
    | zero => rfl
    | succ k => rw [level_setDues dues hk]
  have hover := override_setDues dues hk
  refine ⟨?_, ?_, ?_, ?_⟩
  · rw [hcat]
    exact A.newer
  · rw [hcat, hover]
    exact A.aside
  · rw [hcat, hover]
    exact A.same
  · rw [hcat, hover]
    exact A.still

end Scope

namespace Session

variable {s : Session} {w : PendingWrite}

/-- The rows of `w` that a rollback restores are restored with the file the index lives in now. -/
def Homed (s : Session) (w : PendingWrite) : Prop :=
  ∀ k ≤ s.scope.depth, s.scope.override k = none →
    (s.scope.level k).catalog w.indexOid ≠ s.world.catalog w.indexOid →
      (undo^[k] w).surviving = 0

namespace Sound

variable (H : s.Sound)
include H

theorem kept_of (hw : s.world.pending = some w) : w.Kept := H.kept.slot w hw

/-- Another slot, for which every level is accounted. -/
theorem slot (hfront : s.failed = false) {p : Option PendingWrite} (failed : Bool)
    (hkept : ∀ w, p = some w → w.Kept)
    (haccounts : ∀ k ≤ s.scope.depth, (k = 0 → failed = false) →
      (s.scope.reached k p).Accounts s.world.disk s.since)
    (hfades : ∀ n, Fades (n + 1) s.world.pending p) :
    ({ s with world := s.world.setPending p, failed } : Session).Sound where
  valid := H.valid
  kept := ⟨hkept, H.kept.aside⟩
  keys := H.keys
  keys_lt := H.keys_lt
  top_lt := H.top_lt
  subids := H.subids
  subids_lt := H.subids_lt
  files k hk oid file hfile := by
    have hcat := Scope.catalog_setPending (σ := s.scope) hk p
    exact H.files k hk oid file ((congrFun hcat oid).symm.trans hfile)
  accounts k hk hfailed := by
    have hlevel := Scope.level_reached (σ := s.scope) hk p
    show ((s.scope.setPending p).level k).Accounts _ _
    rw [hlevel]
    exact haccounts k hk hfailed
  anchored i k hik _ := by
    have hik : i + k ≤ s.scope.depth := hik
    have hlevel := Scope.level_reached (σ := s.scope) (k := i) (by omega) p
    show ((s.scope.setPending p).level i).Anchored _ _ k
    rw [hlevel]
    exact Scope.anchored_reached hik (H.anchored i k hik fun _ => hfront) hfades

/-- A rewind is carried out. -/
theorem settle (hfailed : s.failed = false) (hw : s.world.pending = some w)
    (hgone : s.world.catalog w.indexOid = none → w.rewindTo ≠ none → s.Homed w)
    {p : Option PendingWrite} (hsettled : Settled s.world w p) :
    ({ s with world := s.world.setPending p } : Session).Sound := by
  have K := H.kept_of hw
  have hslot : s.scope.pending = some w := hw
  have hfront : ∀ k : Nat, k = 0 → s.failed = false := fun _ _ => hfailed
  cases hsettled with
  | kept hrewind =>
    refine H.slot hfailed s.failed (by rintro _ ⟨⟩; exact K) ?_ ?_
    · intro k hk _
      rw [← hslot, Scope.reached_self hk]
      exact H.accounts k hk (hfront k)
    · intro n
      rw [hw]
      exact fun w' hw' hlive => ⟨w', hw', rfl, hlive⟩
  | dropped hrewind =>
    refine H.slot hfailed s.failed nofun ?_ fun n => Fades.none _ _
    intro k hk _
    exact (H.accounts k hk (hfront k)).reached_none hk hslot
      fun file _ _ => K.surviving_undo_eq_zero (K.dropped hrewind) k
  | gone hrewind hmark hmissing =>
    refine H.slot hfailed s.failed nofun ?_ fun n => Fades.none _ _
    intro k hk _
    refine (H.accounts k hk (hfront k)).reached_none hk hslot fun file hover hfile => ?_
    refine hgone hmissing (by simp [hrewind]) k hk hover ?_
    rw [hfile, hmissing]
    exact nofun
  | @again mark file w' hrewind hmark hfile R =>
    refine H.slot hfailed s.failed (by rintro _ ⟨⟩; exact R.kept K) ?_ ?_
    · intro k hk _
      refine (H.accounts k hk (hfront k)).reached_some hk hslot R.indexOid_eq (R.surviving_undo K k)
        fun outer hover houter hlive _ => ?_
      -- the file of the level holds what the file settled on holds
      have hsame := (H.anchored 0 k (by omega) fun _ => hfailed).same w file outer hover hslot
        hfile houter hlive
      rw [hsame]
      exact fun _ => R.extends_image
    · intro n
      rw [hw]
      refine Agree.fades fun oid => ?_
      show survivingFor oid (some (undo^[n + 1] w')) = survivingFor oid (some (undo^[n + 1] w))
      unfold survivingFor
      simp only [PendingWrite.indexOid_undo, R.indexOid_eq, R.surviving_undo K]

/-- A call raises and leaves the slot empty. -/
theorem raised (hfailed : s.failed = false) (hw : s.world.pending = some w)
    (hdead : s.frames ≠ [] → (undo^[1] w).surviving = 0) :
    ({ s with world := s.world.setPending none, failed := true } : Session).Sound := by
  have K := H.kept_of hw
  refine H.slot hfailed _ nofun ?_ fun n => Fades.none _ _
  intro k hk hfront
  cases k with
  | zero => cases hfront rfl
  | succ k =>
    have hopen : s.frames ≠ [] := by
      intro hnil
      simp [Scope.depth, scope, hnil] at hk
    have A := H.accounts (k + 1) hk fun hzero => absurd hzero k.succ_ne_zero
    exact A.reached_none hk hw fun _ _ _ => K.undo_surviving_eq_zero (hdead hopen) k

/-- The index is loaded into an empty slot, with nothing staged. -/
theorem load (hfailed : s.failed = false) (hslot : s.world.pending = none) (oid : Oid) (file : Nat) :
    ({ s with
      world := s.world.setPending
        (some (PendingWrite.ofImage oid (s.world.disk oid file))) } : Session).Sound := by
  have V := H.valid oid file
  have K := PendingWrite.kept_ofImage V oid
  have hnone : (PendingWrite.ofImage oid (s.world.disk oid file)).surviving = 0 := by
    rw [PendingWrite.surviving_of_settled K.toCoherent rfl, PendingWrite.stagedRows_ofImage V,
      PendingWrite.stagedUnrankable_ofImage]
    rfl
  refine H.slot hfailed s.failed (by rintro _ ⟨⟩; exact K) ?_ ?_
  · intro k hk _
    have A := H.accounts k hk fun _ => hfailed
    cases hover : s.scope.override k with
    | some e =>
      rw [Scope.reached_of_override hk hover]
      exact A
    | none =>
      have hpending := Scope.pending_level_of_none hk hover
      rw [show s.scope.pending = none from hslot] at hpending
      rw [Scope.reached_of_none hover]
      refine A.reslot ?_ ?_
      · intro oid'
        rw [hpending]
        exact survivingFor_of_dead (K.surviving_undo_eq_zero hnone k)
      · rintro v outer hv _ hlive
        cases hv
        exact absurd (K.surviving_undo_eq_zero hnone k) hlive
  · rintro n w' hw' hlive
    cases hw'
    exact absurd (K.surviving_undo_eq_zero hnone (n + 1)) hlive

/-- A row that is refused leaves the rows that are staged. -/
theorem refused (hfailed : s.failed = false) (hw : s.world.pending = some w)
    (hrewind : w.rewindTo = none) {w' : PendingWrite}
    (S : w.Stages w' [] []) :
    ({ s with world := s.world.setPending (some w'), failed := true } : Session).Sound := by
  have K := H.kept_of hw
  refine H.slot hfailed _ (by rintro _ ⟨⟩; exact S.kept K hrewind) ?_ ?_
  · intro k hk hfront
    cases k with
    | zero => cases hfront rfl
    | succ k =>
      refine (H.accounts (k + 1) hk nofun).reached_some hk hw S.indexOid_eq
        (S.surviving_undo K hrewind k) fun file _ _ _ hold hgen => ?_
      exact S.extends_of _ (hold (hgen.trans S.baseGeneration_eq))
  · intro n
    rw [hw]
    refine Agree.fades fun oid => ?_
    show survivingFor oid (some (undo^[n + 1] w')) = survivingFor oid (some (undo^[n + 1] w))
    unfold survivingFor
    simp only [PendingWrite.indexOid_undo, S.indexOid_eq, S.surviving_undo K hrewind]

/-- A row is staged. -/
theorem arrive (hfailed : s.failed = false) (hw : s.world.pending = some w)
    (hrewind : w.rewindTo = none) {file : Nat} (hfile : s.world.catalog w.indexOid = some file)
    (hbased : w.Based (s.world.disk w.indexOid file)) {w' : PendingWrite} {row : Row}
    (S : w.Stages w' row.graph?.toList row.vectorless?.toList)
    (hfresh : row ∉ s.since w.indexOid file) :
    (({ s with world := s.world.setPending (some w') } : Session).arrive w.indexOid file row).Sound := by
  have K := H.kept_of hw
  have K' := S.kept K hrewind
  have hslot : s.scope.pending = some w := hw
  have hsince : (({ s with world := s.world.setPending (some w') } : Session).arrive w.indexOid file
      row).since =
        Scope.replaced s.since w.indexOid file (s.since w.indexOid file + {row}) := rfl
  have hstaged : w'.surviving = w.surviving + {row} := by
    rw [S.surviving_eq K hrewind, heapRows_row]
  have hfades : ∀ n, Fades (n + 1) s.world.pending (some w') := by
    intro n
    rw [hw]
    refine Agree.fades fun oid => ?_
    show survivingFor oid (some (undo^[n + 1] w')) = survivingFor oid (some (undo^[n + 1] w))
    unfold survivingFor
    simp only [PendingWrite.indexOid_undo, S.indexOid_eq, S.surviving_undo K hrewind]
  -- the levels behind the one in front have another slot, and owe what they owed
  have hscope : (({ s with world := s.world.setPending (some w') } : Session).arrive w.indexOid file
      row).scope = (s.scope.setPending (some w')).setDues (Function.update s.dues w.indexOid
        { s.dues w.indexOid with own := (s.dues w.indexOid).own ++ [row] }) := rfl
  have hlevel : ∀ k, k + 1 ≤ s.scope.depth → (({ s with world := s.world.setPending (some w') } :
      Session).arrive w.indexOid file row).scope.level (k + 1) =
        s.scope.reached (k + 1) (some w') := by
    intro k hk
    rw [hscope, Scope.level_setDues (σ := s.scope.setPending (some w')) _ hk, Scope.level_reached hk]
  -- rows that were brought before are other rows
  have hold : ∀ k ≤ s.scope.depth, (s.scope.level k).catalog w.indexOid = some file →
      ∀ row' ∈ ((s.scope.level k).dues w.indexOid).own, row' ∉ ({row} : Multiset Row) := by
    intro k hk houter row' hown hsame
    have A := H.accounts k hk fun _ => hfailed
    have hdue : row' ∈ ((s.scope.level k).dues w.indexOid).due :=
      Multiset.mem_add.mpr (.inl hown)
    have hbrought := Multiset.mem_of_le
      ((A.covered _ _ houter).trans (A.brought _ _ houter)) hdue
    rw [Multiset.mem_singleton.mp hsame] at hbrought
    exact hfresh hbrought
  have A₀ := H.accounts 0 (Nat.zero_le _) fun _ => hfailed
  refine ⟨H.valid, ⟨by rintro _ ⟨⟩; exact K', H.kept.aside⟩, H.keys, H.keys_lt, H.top_lt, H.subids,
    H.subids_lt, ?_, ?_, ?_⟩
  · intro k hk oid file' hfile'
    cases k with
    | zero => exact H.files 0 (Nat.zero_le _) oid file' hfile'
    | succ k =>
      rw [hlevel k hk] at hfile'
      exact H.files (k + 1) hk oid file' hfile'
  · intro k hk _
    rw [hsince]
    cases k with
    | zero =>
      exact A₀.arrived hslot hfile (hold 0 (Nat.zero_le _)) S hstaged hbased hfresh
    | succ k =>
      have hk : k + 1 ≤ s.scope.depth := hk
      rw [hlevel k hk]
      refine Scope.Accounts.bring ?_ (hold (k + 1) hk)
      refine (H.accounts (k + 1) hk nofun).reached_some hk hslot S.indexOid_eq
        (S.surviving_undo K hrewind k) fun outer _ _ _ hbase hgen => ?_
      exact S.extends_of _ (hbase (hgen.trans S.baseGeneration_eq))
  · intro i k hik _
    have hik : i + k ≤ s.scope.depth := hik
    have A := Scope.anchored_reached hik (H.anchored i k hik fun _ => hfailed) hfades
    cases i with
    | zero =>
      rw [hscope]
      refine Scope.Anchored.setDues ?_ ?_ _
      · exact A
      · show k ≤ s.scope.depth
        omega
    | succ i =>
      rw [hlevel i (by omega)]
      exact A

/-- The slot is written back. -/
theorem flush (hfailed : s.failed = false) (hw : s.world.pending = some w)
    (hrewind : w.rewindTo = none) (hhomed : s.Homed w) {world' : World}
    (hflushed : World.Flushed (s.world.setPending none) w world') :
    ({ s with world := world' } : Session).Sound := by
  have K := H.kept_of hw
  have hslot : s.scope.pending = some w := hw
  cases hflushed with
  | gone hmissing =>
    refine H.slot hfailed s.failed nofun ?_ fun n => Fades.none _ _
    intro k hk _
    refine (H.accounts k hk fun _ => hfailed).reached_none hk hslot fun file hover hfile => ?_
    refine hhomed k hk hover ?_
    rw [hfile, show s.world.catalog w.indexOid = none from hmissing]
    exact nofun
  | @stored file image hfile V hrows hunrankable hgeneration =>
    have hfile : s.scope.catalog w.indexOid = some file := hfile
    have hcontents : image.contents =
        (s.world.disk w.indexOid file).contents + w.surviving := by
      rw [PendingWrite.surviving_of_settled K.toCoherent hrewind]
      unfold Image.contents
      rw [hrows, hunrankable, heapRows_append]
      rfl
    have hlevel : ∀ k ≤ s.scope.depth, (s.scope.setPending none).level k =
        s.scope.reached k none := fun k hk => Scope.level_reached hk none
    have hdisk : ((s.world.setPending none).store w.indexOid file image).disk =
        Scope.replaced s.world.disk w.indexOid file image := rfl
    refine ⟨?_, ⟨nofun, H.kept.aside⟩, H.keys, H.keys_lt, H.top_lt, H.subids, H.subids_lt, ?_, ?_,
      ?_⟩
    · intro oid file'
      by_cases hsame : oid = w.indexOid ∧ file' = file
      · rw [hdisk, hsame.1, hsame.2, Scope.replaced_self]
        exact V
      · rw [hdisk, Scope.replaced_ne _ _ fun hoid hfile => hsame ⟨hoid, hfile⟩]
        exact H.valid oid file'
    · intro k hk oid file' hfile'
      have hcat := Scope.catalog_setPending (σ := s.scope) hk none
      exact H.files k hk oid file' ((congrFun hcat oid).symm.trans hfile')
    · intro k hk _
      have hk : k ≤ s.scope.depth := hk
      show ((s.scope.setPending none).level k).Accounts _ _
      rw [hlevel k hk, hdisk]
      exact (H.accounts 0 (Nat.zero_le _) fun _ => hfailed).stored hk hslot K
        (H.accounts k hk fun _ => hfailed) (H.anchored 0 k (by omega) fun _ => hfailed) hfile
        (hhomed k hk) hcontents
    · intro i k hik _
      have hik : i + k ≤ s.scope.depth := hik
      show ((s.scope.setPending none).level i).Anchored _ _ k
      have hanchored : ∀ i k, i + k ≤ s.scope.depth →
          (s.scope.level i).Anchored s.world.disk s.steady k :=
        fun i k hik => H.anchored i k hik fun _ => hfailed
      have A := Scope.anchored_reached (p := none) hik (hanchored i k hik)
        fun n => Fades.none _ _
      rw [hlevel i (by omega), hdisk]
      refine A.congr fun v file₁ outer hv hfile₁ houter hsame => ?_
      -- what is set aside for the same index waits for an older file
      have hover : s.scope.override i = some v := by
        have hv : (s.scope.override i <|> none) = some v := hv
        cases hcase : s.scope.override i with
        | some e => rwa [hcase] at hv
        | none =>
          rw [hcase] at hv
          cases hv
      have hdepth : k ≤ (s.scope.level i).depth := by
        rw [Scope.depth_level]
        omega
      have houter : ((s.scope.level i).level k).catalog v.indexOid = some outer := by
        rw [← Scope.catalog_setPending hdepth]
        exact houter
      have holder : v.indexOid = w.indexOid → file₁ < file := by
        intro hoid
        exact (hanchored 0 i (by omega)).aside v file file₁ hover (hoid ▸ hfile) hfile₁
      have hnewer : outer ≤ file₁ := (hanchored i k hik).newer _ _ _ hfile₁ houter
      rw [Scope.replaced_ne, Scope.replaced_ne]
      · exact hsame
      · exact fun hoid => Nat.ne_of_lt (holder hoid)
      · exact fun hoid => Nat.ne_of_lt (hnewer.trans_lt (holder hoid))

end Sound

end Session

end Brindle
