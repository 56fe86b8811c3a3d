/-
# Brindle.Storage.Steps — every command keeps the invariant of a transaction.

One lemma a command. A boundary shifts the levels, a rebuild or another change of the catalog adds
nothing to the levels behind the one in front, and a call leaves the slot as its specification says. What
a command must not do is said as a condition on the state it is given in.
-/
import Brindle.Storage.Slot

namespace Brindle

open PendingWrite (undo)
open Run (After)
open Scope (Accounts Anchored)

namespace Scope

variable {σ τ : Scope} {disk : Oid → Nat → Image} {since : Oid → Nat → Multiset Row} {k k' : Nat}
  {steady : Bool}

/-- A level with the same catalog, the same debts and as many rows staged. -/
theorem Accounts.transfer (A : σ.Accounts disk since) (hcatalog : τ.catalog = σ.catalog)
    (hdues : τ.dues = σ.dues)
    (hagree : ∀ oid, survivingFor oid τ.pending = survivingFor oid σ.pending)
    (hbased : ∀ w, τ.pending = some w → ∃ v, σ.pending = some v ∧ v.indexOid = w.indexOid ∧
      v.surviving = w.surviving ∧ ∀ image, v.Based image → w.Based image) :
    τ.Accounts disk since where
  covered oid file hfile := by
    rw [hdues, hagree]
    exact A.covered oid file (hcatalog ▸ hfile)
  brought oid file hfile := by
    rw [hagree]
    exact A.brought oid file (hcatalog ▸ hfile)
  once oid file hfile := by
    rw [hdues]
    exact A.once oid file (hcatalog ▸ hfile)
  based w file hw hfile hlive := by
    obtain ⟨v, hv, hoid, hsame, himage⟩ := hbased w hw
    rw [hcatalog, ← hoid] at hfile
    rw [← hoid]
    exact himage _ (A.based v file hv hfile (hsame ▸ hlive))

/-- Two levels as far apart as two others, with no more rows between them. -/
theorem Anchored.transfer (A : σ.Anchored disk steady k) (hcatalog : τ.catalog = σ.catalog)
    (hlevel : (τ.level k').catalog = (σ.level k).catalog) (hover : τ.override k' = σ.override k)
    (hslot : ∀ w', τ.pending = some w' → (undo^[k'] w').surviving ≠ 0 →
      ∃ w, σ.pending = some w ∧ w.indexOid = w'.indexOid ∧ (undo^[k] w).surviving ≠ 0) :
    τ.Anchored disk steady k' where
  newer := by
    rw [hcatalog, hlevel]
    exact A.newer
  aside := by
    rw [hcatalog, hlevel, hover]
    exact A.aside
  same w' file outer hno hw' hfile houter hlive := by
    obtain ⟨w, hw, hoid, hlive⟩ := hslot w' hw' hlive
    rw [hcatalog] at hfile
    rw [hlevel] at houter
    rw [← hoid] at hfile houter ⊢
    exact A.same w file outer (hover ▸ hno) hw hfile houter hlive
  still hsteady w' hno hw' hlive := by
    obtain ⟨w, hw, hoid, hlive⟩ := hslot w' hw' hlive
    rw [hcatalog, hlevel, ← hoid]
    exact A.still hsteady w (hover ▸ hno) hw hlive

theorem Anchored.of_steady (A : σ.Anchored disk steady k) {steady' : Bool}
    (h : steady' = true → steady = true) : σ.Anchored disk steady' k where
  newer := A.newer
  aside := A.aside
  same := A.same
  still hsteady := A.still (h hsteady)

/-- An index that is gone has nothing to compare. -/
theorem Anchored.of_catalog (A : σ.Anchored disk steady k)
    (hcatalog : ∀ oid file, τ.catalog oid = some file → σ.catalog oid = some file)
    (hlevel : (τ.level k).catalog = (σ.level k).catalog) (hover : τ.override k = σ.override k)
    (hpending : τ.pending = σ.pending) : τ.Anchored disk false k where
  newer oid file outer hfile houter :=
    A.newer oid file outer (hcatalog oid file hfile) (hlevel ▸ houter)
  aside e file outer he hfile houter :=
    A.aside e file outer (hover ▸ he) (hcatalog _ file hfile) (hlevel ▸ houter)
  same w file outer hno hw hfile houter hlive :=
    A.same w file outer (hover ▸ hno) (hpending ▸ hw) (hcatalog _ file hfile) (hlevel ▸ houter) hlive
  still := nofun

/-! ## A new file -/

section

variable {oid : Oid} {new : Nat} {image : Image} {rows : Multiset Row}

theorem replaced_of {β : Type} {P : β → Prop} {f : Oid → Nat → β} (h : ∀ oid file, P (f oid file))
    {v : β} (hv : P v) (oid' : Oid) (file : Nat) : P (replaced f oid new v oid' file) := by
  by_cases hsame : oid' = oid ∧ file = new
  · rw [hsame.1, hsame.2, replaced_self]
    exact hv
  · rw [replaced_ne _ _ fun hoid hfile => hsame ⟨hoid, hfile⟩]
    exact h oid' file

theorem Accounts.refiled (A : σ.Accounts disk since)
    (hcatalog : τ.catalog = Function.update σ.catalog oid (some new))
    (hother : ∀ oid', oid' ≠ oid → τ.dues oid' = σ.dues oid' ∧
      survivingFor oid' τ.pending = survivingFor oid' σ.pending)
    (hslot : ∀ w, τ.pending = some w → w.indexOid ≠ oid → σ.pending = some w)
    (hcovered : (τ.dues oid).due ≤ image.contents + survivingFor oid τ.pending)
    (hbrought : image.contents + survivingFor oid τ.pending ≤ rows)
    (honce : ∀ row ∈ (τ.dues oid).own, rows.count row ≤ 1)
    (hbased : ∀ w, τ.pending = some w → w.indexOid = oid → w.surviving ≠ 0 → w.Based image) :
    τ.Accounts (replaced disk oid new image) (replaced since oid new rows) := by
  have hself : ∀ file, τ.catalog oid = some file → file = new := by
    intro file hfile
    rw [hcatalog, Function.update_self] at hfile
    exact (Option.some.inj hfile).symm
  have hold : ∀ oid' file, oid' ≠ oid → τ.catalog oid' = some file →
      σ.catalog oid' = some file := by
    intro oid' file hoid hfile
    rwa [hcatalog, Function.update_of_ne hoid] at hfile
  refine ⟨fun oid' file hfile => ?_, fun oid' file hfile => ?_, fun oid' file hfile row hrow => ?_,
    fun w file hw hfile hlive => ?_⟩
  · by_cases hoid : oid' = oid
    · subst hoid
      rw [hself file hfile, replaced_self]
      exact hcovered
    · obtain ⟨hdues, hsame⟩ := hother oid' hoid
      rw [hdues, hsame, replaced_ne _ _ fun h => absurd h hoid]
      exact A.covered oid' file (hold oid' file hoid hfile)
  · by_cases hoid : oid' = oid
    · subst hoid
      rw [hself file hfile, replaced_self, replaced_self]
      exact hbrought
    · rw [(hother oid' hoid).2, replaced_ne _ _ fun h => absurd h hoid,
        replaced_ne _ _ fun h => absurd h hoid]
      exact A.brought oid' file (hold oid' file hoid hfile)
  · by_cases hoid : oid' = oid
    · subst hoid
      rw [hself file hfile, replaced_self]
      exact honce row hrow
    · rw [(hother oid' hoid).1] at hrow
      rw [replaced_ne _ _ fun h => absurd h hoid]
      exact A.once oid' file (hold oid' file hoid hfile) row hrow
  · by_cases hoid : w.indexOid = oid
    · rw [hoid] at hfile ⊢
      rw [hself file hfile, replaced_self]
      exact hbased w hw hoid hlive
    · rw [replaced_ne _ _ fun h => absurd h hoid]
      exact A.based w file (hslot w hw hoid) (hold _ file hoid hfile) hlive

theorem Anchored.refiled (A : σ.Anchored disk steady k) {steady' : Bool}
    (hcatalog : τ.catalog = Function.update σ.catalog oid (some new))
    (hlevel : (τ.level k).catalog = (σ.level k).catalog)
    (hnew : ∀ outer, (σ.level k).catalog oid = some outer → outer < new)
    (hover : ∀ e, τ.override k = some e → e.indexOid = oid ∨ σ.override k = some e)
    (hslot : ∀ w, τ.pending = some w → σ.pending = some w ∧
      (τ.override k = none → σ.override k = none))
    (hself : ∀ w, τ.pending = some w → w.indexOid = oid →
      ∃ file, σ.catalog oid = some file ∧ image = disk oid file)
    (hsteady : steady' = true → steady = true ∧ ∀ w, τ.pending = some w → w.indexOid ≠ oid) :
    τ.Anchored (replaced disk oid new image) steady' k := by
  have hold : ∀ oid' file, oid' ≠ oid → τ.catalog oid' = some file →
      σ.catalog oid' = some file := by
    intro oid' file hoid hfile
    rwa [hcatalog, Function.update_of_ne hoid] at hfile
  have hfront : ∀ file, τ.catalog oid = some file → file = new := by
    intro file hfile
    rw [hcatalog, Function.update_self] at hfile
    exact (Option.some.inj hfile).symm
  refine ⟨fun oid' file outer hfile houter => ?_, fun e file outer he hfile houter => ?_,
    fun w file outer hno hw hfile houter hlive => ?_, fun hstay w hno hw hlive => ?_⟩
  · rw [hlevel] at houter
    by_cases hoid : oid' = oid
    · subst hoid
      rw [hfront file hfile]
      exact (hnew outer houter).le
    · exact A.newer oid' file outer (hold oid' file hoid hfile) houter
  · rw [hlevel] at houter
    by_cases hoid : e.indexOid = oid
    · rw [hoid] at hfile houter
      rw [hfront file hfile]
      exact hnew outer houter
    · exact A.aside e file outer ((hover e he).resolve_left hoid) (hold _ file hoid hfile) houter
  · rw [hlevel] at houter
    obtain ⟨hw', hno'⟩ := hslot w hw
    by_cases hoid : w.indexOid = oid
    · obtain ⟨file', hfile', himage⟩ := hself w hw hoid
      have hsame := A.same w file' outer (hno' hno) hw' (hoid.symm ▸ hfile') houter hlive
      rw [hoid] at hfile houter hsame ⊢
      rw [hfront file hfile, replaced_self, replaced_ne _ _ fun _ => (hnew outer houter).ne, himage]
      exact hsame
    · rw [replaced_ne _ _ fun h => absurd h hoid, replaced_ne _ _ fun h => absurd h hoid]
      exact A.same w file outer (hno' hno) hw' (hold _ file hoid hfile) houter hlive
  · obtain ⟨hold', hoid⟩ := hsteady hstay
    obtain ⟨hw', hno'⟩ := hslot w hw
    rw [hlevel, hcatalog, Function.update_of_ne (hoid w hw)]
    exact A.still hold' w (hno' hno) hw' hlive

end

/-! ## What is staged in front -/

/-- Crossing a boundary leaves what is staged in front. -/
theorem survivingFor_moved (oid : Oid) (p : Option PendingWrite) {event : SubXactEvent}
    (hevent : event ≠ .abortSub) :
    survivingFor oid (p.map fun w => w.applyMarkEvent event) = survivingFor oid p := by
  cases p with
  | none => rfl
  | some w =>
    cases event with
    | startSub => rfl
    | commitSub => rfl
    | abortSub => exact absurd rfl hevent

theorem Accounts.moved (A : σ.Accounts disk since) (event : SubXactEvent)
    (hevent : event ≠ .abortSub) : (σ.moved event).Accounts disk since := by
  refine A.transfer rfl rfl (fun oid => survivingFor_moved oid σ.pending hevent) ?_
  rintro w hw
  obtain ⟨v, hv, rfl⟩ := Option.map_eq_some_iff.mp hw
  refine ⟨v, hv, ?_⟩
  cases event with
  | startSub => exact ⟨rfl, rfl, fun image h hgen => ⟨(h hgen).rows, (h hgen).unrankable⟩⟩
  | commitSub => exact ⟨rfl, rfl, fun image h hgen => ⟨(h hgen).rows, (h hgen).unrankable⟩⟩
  | abortSub => exact absurd rfl hevent

/-! ## Other backends -/

/-- The writes of the scope, staged and set aside. -/
def held (σ : Scope) : List PendingWrite := σ.pending.toList ++ σ.discarded.map Prod.snd

theorem mem_held {w : PendingWrite} :
    w ∈ σ.held ↔ σ.pending = some w ∨ ∃ subid, (subid, w) ∈ σ.discarded := by
  simp [held, Option.mem_toList]

theorem Kept.of_held (K : σ.Kept) {w : PendingWrite} (hw : w ∈ σ.held) : w.Kept := by
  rcases mem_held.mp hw with hslot | ⟨subid, hmem⟩
  · exact K.slot w hslot
  · exact K.aside _ hmem

/-- What a level finds in its slot is a write of the scope, undone. -/
theorem held_of_level {v : PendingWrite} (k : Nat) (h : (σ.level k).pending = some v) :
    ∃ w ∈ σ.held, ∃ j, v = undo^[j] w := by
  induction k generalizing σ with
  | zero => exact ⟨v, mem_held.mpr (.inl h), 0, rfl⟩
  | succ k ih =>
    obtain ⟨w, hheld, j, rfl⟩ := ih (σ := σ.rollback) h
    suffices hback : w ∈ σ.held ∨ ∃ w' ∈ σ.held, w = undo w' by
      rcases hback with hheld' | ⟨w', hheld', rfl⟩
      · exact ⟨w, hheld', j, rfl⟩
      · exact ⟨w', hheld', j + 1, rfl⟩
    unfold rollback at hheld
    cases hframes : σ.frames with
    | nil =>
      rw [hframes] at hheld
      exact .inl hheld
    | cons frame rest =>
      rw [hframes] at hheld
      right
      rcases mem_held.mp hheld with hslot | ⟨subid, hmem⟩
      · obtain ⟨w', hw', rfl⟩ := Option.map_eq_some_iff.mp hslot
        refine ⟨w', mem_held.mpr ?_, rfl⟩
        cases haside : σ.asideOf frame.subid with
        | none =>
          rw [haside] at hw'
          exact .inl hw'
        | some e =>
          rw [haside] at hw'
          cases hw'
          exact .inr ⟨_, Stash.mem_of_firstUnder haside⟩
      · obtain ⟨entry, hentry, heq⟩ := List.mem_map.mp hmem
        refine ⟨entry.2, mem_held.mpr (.inr ⟨entry.1, List.mem_of_mem_filter hentry⟩), ?_⟩
        exact (congrArg Prod.snd heq).symm

section

variable {oid : Oid} {file : Nat} {image : Image} {gone come : Multiset Row}

/-- Entries go and come. -/
def swapped (oid : Oid) (gone come : Multiset Row) (dues : Oid → Dues) : Oid → Dues :=
  Function.update dues oid { dues oid with rest := (dues oid).rest - gone + come }

/-- Another backend's rewrite, which takes none of the rows of the transaction and brings none. -/
theorem Accounts.others (A : σ.Accounts disk since) (hfile : σ.catalog oid = some file)
    (hrows : image.contents + gone = (disk oid file).contents + come)
    (hgone : gone ≤ (disk oid file).contents)
    (hown : ∀ row ∈ (σ.dues oid).own, row ∉ gone ∧ row ∉ come)
    (hbase : ∀ w, σ.pending = some w → w.indexOid = oid → w.surviving ≠ 0 →
      image.generation ≠ w.baseGeneration) :
    (σ.mapDues (swapped oid gone come)).Accounts (replaced disk oid file image)
      (replaced since oid file (since oid file + come)) := by
  have hcount : ∀ row, image.contents.count row + gone.count row =
      (disk oid file).contents.count row + come.count row := by
    intro row
    rw [← Multiset.count_add, hrows, Multiset.count_add]
  have hself : ∀ file', σ.catalog oid = some file' → file' = file := fun file' hfile' =>
    Option.some.inj (hfile'.symm.trans hfile)
  refine ⟨fun oid' file' hfile' => ?_, fun oid' file' hfile' => ?_,
    fun oid' file' hfile' row hrow => ?_, fun w file' hw hfile' hlive => ?_⟩
  · have hcovered := A.covered oid' file' hfile'
    show (swapped oid gone come σ.dues oid').due ≤ _
    unfold swapped
    by_cases hoid : oid' = oid
    · subst hoid
      rw [hself file' hfile'] at hcovered ⊢
      rw [Function.update_self, replaced_self]
      refine Multiset.le_iff_count.mpr fun row => ?_
      have hrow := Multiset.le_iff_count.mp hcovered row
      have hleft := Multiset.le_iff_count.mp hgone row
      have hsame := hcount row
      simp only [Dues.due, Multiset.count_add, Multiset.count_sub] at hrow ⊢
      change _ ≤ _ + Multiset.count row (survivingFor oid' σ.pending)
      -- a row of the transaction does not go, and any other is owed once for every entry
      by_cases hmem : row ∈ (σ.dues oid').own
      · have hzero := Multiset.count_eq_zero_of_notMem (hown row hmem).1
        omega
      · have hzero : Multiset.count row ↑(σ.dues oid').own = 0 :=
          Multiset.count_eq_zero_of_notMem hmem
        omega
    · rw [Function.update_of_ne hoid, replaced_ne _ _ fun h => absurd h hoid]
      exact hcovered
  · have hbrought := A.brought oid' file' hfile'
    by_cases hoid : oid' = oid
    · subst hoid
      rw [hself file' hfile'] at hbrought ⊢
      rw [replaced_self, replaced_self]
      refine Multiset.le_iff_count.mpr fun row => ?_
      have hrow := Multiset.le_iff_count.mp hbrought row
      have hsame := hcount row
      simp only [Multiset.count_add] at hrow ⊢
      show _ + Multiset.count row (survivingFor oid' σ.pending) ≤ _
      omega
    · rw [replaced_ne _ _ fun h => absurd h hoid, replaced_ne _ _ fun h => absurd h hoid]
      exact hbrought
  · have hrow : row ∈ (swapped oid gone come σ.dues oid').own := hrow
    unfold swapped at hrow
    by_cases hoid : oid' = oid
    · subst hoid
      rw [Function.update_self] at hrow
      rw [hself file' hfile', replaced_self, Multiset.count_add,
        Multiset.count_eq_zero_of_notMem (hown row hrow).2]
      exact A.once oid' file hfile row hrow
    · rw [Function.update_of_ne hoid] at hrow
      rw [replaced_ne _ _ fun h => absurd h hoid]
      exact A.once oid' file' hfile' row hrow
  · by_cases hoid : w.indexOid = oid
    · rw [hoid] at hfile' ⊢
      rw [hself file' hfile', replaced_self]
      exact fun hgen => absurd hgen (hbase w hw hoid hlive)
    · rw [replaced_ne _ _ fun h => absurd h hoid]
      exact A.based w file' hw hfile' hlive

end

end Scope

namespace Session

variable {s : Session}

namespace Sound

variable (H : s.Sound)
include H

/-! ## Boundaries -/

theorem fresh : ∀ entry ∈ s.scope.discarded, entry.1 ≠ s.nextSub :=
  fun entry hentry => Nat.ne_of_lt (H.keys_lt entry hentry)

/-- Opening a subtransaction puts one more level in front. -/
theorem savepoint (hfailed : s.failed = false) : s.savepoint.Sound := by
  have hlevel : ∀ k, s.savepoint.scope.level (k + 1) = s.scope.level k :=
    fun k => Scope.level_savepoint H.kept H.fresh k
  have hkeys : s.savepoint.world.discarded.map Prod.fst = s.world.discarded.map Prod.fst := by
    show (s.world.discarded.map _).map Prod.fst = _
    rw [List.map_map]
    rfl
  have K := H.kept.moved .startSub
  refine ⟨H.valid, ⟨K.slot, K.aside⟩, hkeys ▸ H.keys, ?_, Nat.lt_succ_of_lt H.top_lt, ?_, ?_, ?_,
    ?_, ?_⟩
  · intro entry hentry
    have hkey : entry.1 ∈ s.savepoint.world.discarded.map Prod.fst := List.mem_map_of_mem hentry
    rw [hkeys] at hkey
    obtain ⟨old, hold, heq⟩ := List.mem_map.mp hkey
    rw [← heq]
    exact Nat.lt_succ_of_lt (H.keys_lt old hold)
  · exact List.pairwise_cons.mpr ⟨H.subids_lt, H.subids⟩
  · intro frame hframe
    rcases List.mem_cons.mp hframe with rfl | hold
    · exact Nat.lt_succ_self _
    · exact Nat.lt_succ_of_lt (H.subids_lt frame hold)
  · intro k hk oid file hfile
    cases k with
    | zero => exact H.files 0 (Nat.zero_le _) oid file hfile
    | succ k =>
      rw [hlevel] at hfile
      exact H.files k (Nat.le_of_succ_le_succ hk) oid file hfile
  · intro k hk _
    cases k with
    | zero =>
      have A := (H.accounts 0 (Nat.zero_le _) fun _ => hfailed).moved .startSub nofun
      exact ⟨A.covered, A.brought, A.once, A.based⟩
    | succ k =>
      rw [hlevel]
      exact H.accounts k (Nat.le_of_succ_le_succ hk) fun _ => hfailed
  · intro i k hik _
    have hdepth : s.savepoint.scope.depth = s.scope.depth + 1 := rfl
    cases i with
    | succ i =>
      rw [hlevel]
      exact H.anchored i k (by omega) fun _ => hfailed
    | zero =>
      cases k with
      | zero => exact Scope.anchored_zero _ _ _
      | succ k =>
        refine (H.anchored 0 k (by omega) fun _ => hfailed).transfer rfl
          (congrArg Scope.catalog (hlevel k)) (Scope.override_savepoint H.kept H.fresh k) ?_
        intro w' hw' hlive
        obtain ⟨w, hw, rfl⟩ := Option.map_eq_some_iff.mp hw'
        refine ⟨w, hw, rfl, ?_⟩
        rw [Function.iterate_succ_apply] at hlive
        rwa [show undo (w.applyMarkEvent .startSub) = w from (H.kept.slot w hw).abort_start] at hlive

/-- Releasing the innermost subtransaction takes out the level behind the one in front. -/
theorem release (hfailed : s.failed = false) : s.release.Sound := by
  cases hframes : s.frames with
  | nil =>
    have hsame : s.release = s := by
      unfold Session.release
      rw [hframes]
    rw [hsame]
    exact H
  | cons frame rest =>
    let t : Session := { s with
      world := s.world.subxactCallback .commitSub frame.subid (subidOf rest)
      frames := rest }
    have hrelease : s.release = t := by
      unfold Session.release
      rw [hframes]
    have hscope : t.scope = s.scope.release := by rw [← hrelease, s.scope_release]
    have hdepth : t.scope.depth + 1 = s.scope.depth := by
      show rest.length + 1 = s.frames.length
      rw [hframes]
      rfl
    have hlevel : ∀ k, k + 1 ≤ t.scope.depth → t.scope.level (k + 1) = s.scope.level (k + 2) := by
      intro k hk
      rw [hscope] at hk ⊢
      exact Scope.level_release H.kept H.subids hk
    have hmem : ∀ outer ∈ rest, outer ∈ s.frames := fun outer houter =>
      hframes ▸ List.mem_cons_of_mem _ houter
    have hparent : subidOf rest < s.nextSub := by
      cases rest with
      | nil => exact H.top_lt
      | cons outer rest => exact H.subids_lt outer (hmem outer List.mem_cons_self)
    have hhanded : ∀ entry ∈ Stash.handedUp s.world.discarded frame.subid (subidOf rest),
        entry.2.Kept ∧ entry.1 < s.nextSub := by
      intro entry hentry
      obtain ⟨old, hold, hvalue, hkey⟩ := Stash.mem_handedUp hentry
      refine ⟨hvalue ▸ H.kept.aside old hold, ?_⟩
      rcases hkey with hkey | hkey
      · exact hkey ▸ H.keys_lt old hold
      · exact hkey ▸ hparent
    rw [hrelease]
    refine ⟨H.valid, ⟨?_, ?_⟩, ?_, ?_, H.top_lt, ?_, fun outer houter => H.subids_lt outer (hmem outer houter), ?_, ?_, ?_⟩
    · intro w hw
      obtain ⟨v, hv, rfl⟩ := Option.map_eq_some_iff.mp hw
      exact (H.kept.slot v hv).applyMarkEvent .commitSub
    · intro entry hentry
      obtain ⟨old, hold, rfl⟩ := List.mem_map.mp hentry
      exact (hhanded old hold).1.applyMarkEvent .commitSub
    · show ((List.map _ (Stash.handedUp s.world.discarded frame.subid (subidOf rest))).map
        Prod.fst).Nodup
      rw [List.map_map]
      exact Stash.nodup_handedUp H.keys
    · intro entry hentry
      obtain ⟨old, hold, rfl⟩ := List.mem_map.mp hentry
      exact (hhanded old hold).2
    · have hsubids := H.subids
      rw [hframes] at hsubids
      exact hsubids.of_cons
    · intro k hk oid file hfile
      cases k with
      | zero => exact H.files 0 (Nat.zero_le _) oid file hfile
      | succ k =>
        rw [hlevel k hk] at hfile
        exact H.files (k + 2) (by omega) oid file hfile
    · intro k hk _
      cases k with
      | zero =>
        have A := (H.accounts 0 (Nat.zero_le _) fun _ => hfailed).moved .commitSub nofun
        exact ⟨A.covered, A.brought, A.once, A.based⟩
      | succ k =>
        rw [hlevel k hk]
        exact H.accounts (k + 2) (by omega) nofun
    · intro i k hik _
      cases i with
      | succ i =>
        rw [hlevel i (by omega)]
        exact H.anchored (i + 2) k (by omega) nofun
      | zero =>
        cases k with
        | zero => exact Scope.anchored_zero _ _ _
        | succ k =>
          have hk : k + 1 ≤ t.scope.depth := by omega
          refine (H.anchored 0 (k + 2) (by omega) fun _ => hfailed).transfer rfl
            (congrArg Scope.catalog (hlevel k hk)) ?_ ?_
          · rw [hscope] at hk
            show t.scope.override (k + 1) = _
            rw [hscope]
            exact Scope.override_release H.kept H.subids hk
          · intro w' hw' hlive
            obtain ⟨w, hw, rfl⟩ := Option.map_eq_some_iff.mp hw'
            refine ⟨w, hw, rfl, ?_⟩
            rw [Function.iterate_succ_apply] at hlive
            rwa [show undo (w.applyMarkEvent .commitSub) = undo (undo w) from
              (H.kept.slot w hw).abort_commit] at hlive

/-- Rolling back takes the level in front away. -/
theorem rollback : s.rollback.Sound := by
  cases hframes : s.frames with
  | nil =>
    have hsame : s.rollback = s := by
      unfold Session.rollback
      rw [hframes]
    rw [hsame]
    exact H
  | cons frame rest =>
    let t : Session := { s with
      world := { s.world.subxactCallback .abortSub frame.subid (subidOf rest) with
        catalog := frame.catalog }
      frames := rest
      dues := frame.dues
      failed := false }
    have hrollback : s.rollback = t := by
      unfold Session.rollback
      rw [hframes]
    have hscope : t.scope = s.scope.level 1 := by rw [← hrollback, s.scope_rollback]; rfl
    have hdepth : t.scope.depth + 1 = s.scope.depth := by
      show rest.length + 1 = s.frames.length
      rw [hframes]
      rfl
    have hlevel : ∀ k, t.scope.level k = s.scope.level (k + 1) := by
      intro k
      rw [hscope, Scope.level_add, Nat.add_comm]
    have hmem : ∀ outer ∈ rest, outer ∈ s.frames := fun outer houter =>
      hframes ▸ List.mem_cons_of_mem _ houter
    have K : t.scope.Kept := hscope ▸ H.kept.level 1
    rw [hrollback]
    refine ⟨H.valid, K, ?_, ?_, H.top_lt, ?_, fun outer houter => H.subids_lt outer (hmem outer houter), ?_, ?_, ?_⟩
    · show ((List.map _ (s.world.discarded.filter _)).map Prod.fst).Nodup
      rw [List.map_map]
      exact H.keys.sublist (List.filter_sublist.map _)
    · intro entry hentry
      obtain ⟨old, hold, rfl⟩ := List.mem_map.mp hentry
      exact H.keys_lt old (List.mem_of_mem_filter hold)
    · have hsubids := H.subids
      rw [hframes] at hsubids
      exact hsubids.of_cons
    · intro k hk oid file hfile
      rw [hlevel] at hfile
      exact H.files (k + 1) (by omega) oid file hfile
    · intro k hk _
      rw [hlevel]
      exact H.accounts (k + 1) (by omega) nofun
    · intro i k hik _
      rw [hlevel]
      exact H.anchored (i + 1) k (by omega) nofun

/-! ## The catalog -/

/-- A command that leaves the levels behind the one in front, and the files they live in. -/
theorem front {t : Session} (hframes : t.frames = s.frames) (hnext : t.nextSub = s.nextSub)
    (hfiles : s.nextFile ≤ t.nextFile) (hsteady : t.steady = true → s.steady = true)
    (hvalid : ∀ oid file, (t.world.disk oid file).Valid) (hkept : t.scope.Kept)
    (hkeys : (t.world.discarded.map Prod.fst).Nodup)
    (hkeys_lt : ∀ entry ∈ t.world.discarded, entry.1 < s.nextSub)
    (hdisk : ∀ oid file, file < s.nextFile → t.world.disk oid file = s.world.disk oid file)
    (hsince : ∀ oid file, file < s.nextFile → t.since oid file = s.since oid file)
    (hlevel : ∀ k, k + 1 ≤ s.scope.depth → t.scope.level (k + 1) = s.scope.level (k + 1))
    (hcatalog : ∀ oid file, t.world.catalog oid = some file → file < t.nextFile)
    (haccounts : t.failed = false → t.scope.Accounts t.world.disk t.since)
    (hanchored : t.failed = false → ∀ k, k + 1 ≤ s.scope.depth →
      t.scope.Anchored t.world.disk t.steady (k + 1)) : t.Sound := by
  have hdepth : t.scope.depth = s.scope.depth := congrArg List.length hframes
  refine ⟨hvalid, hkept, hkeys, hnext ▸ hkeys_lt, hnext ▸ H.top_lt, hframes ▸ H.subids, ?_, ?_, ?_, ?_⟩
  · rw [hframes, hnext]
    exact H.subids_lt
  · intro k hk oid file hfile
    cases k with
    | zero => exact hcatalog oid file hfile
    | succ k =>
      rw [hlevel k (hdepth ▸ hk)] at hfile
      exact (H.files (k + 1) (hdepth ▸ hk) oid file hfile).trans_le hfiles
  · intro k hk hfront
    cases k with
    | zero => exact haccounts (hfront rfl)
    | succ k =>
      have hk : k + 1 ≤ s.scope.depth := hdepth ▸ hk
      rw [hlevel k hk]
      exact (H.accounts (k + 1) hk nofun).congr
        (fun oid file hfile => hdisk oid file (H.files (k + 1) hk oid file hfile))
        fun oid file hfile => hsince oid file (H.files (k + 1) hk oid file hfile)
  · intro i k hik hfront
    have hik : i + k ≤ s.scope.depth := hdepth ▸ hik
    cases i with
    | zero =>
      cases k with
      | zero => exact Scope.anchored_zero _ _ _
      | succ k => exact hanchored (hfront rfl) k (by omega)
    | succ i =>
      rw [hlevel i (by omega)]
      have A := H.anchored (i + 1) k hik nofun
      refine (A.congr fun w file outer _ hfile houter hsame => ?_).of_steady hsteady
      have hfile := H.files (i + 1) (by omega) _ _ hfile
      rw [Scope.level_add] at houter
      have houter := H.files (i + 1 + k) hik _ _ houter
      rw [hdisk _ _ hfile, hdisk _ _ houter]
      exact hsame

/-- `DROP INDEX`. -/
theorem dropIndex (hfailed : s.failed = false) (oid : Oid) :
    ({ s with
      world := { s.world with catalog := Function.update s.world.catalog oid none }
      steady := false } : Session).Sound := by
  have A := H.accounts 0 (Nat.zero_le _) fun _ => hfailed
  have hkept : ∀ oid' file, Function.update s.world.catalog oid none oid' = some file →
      s.world.catalog oid' = some file := by
    intro oid' file hfile
    by_cases hoid : oid' = oid
    · rw [hoid, Function.update_self] at hfile
      cases hfile
    · rwa [Function.update_of_ne hoid] at hfile
  refine H.front rfl rfl le_rfl nofun H.valid ⟨H.kept.slot, H.kept.aside⟩ H.keys H.keys_lt
    (fun _ _ _ => rfl) (fun _ _ _ => rfl) (fun k hk => ?_) (fun oid' file hfile => ?_) (fun _ => ?_)
    fun _ k hk => ?_
  · exact Scope.level_congr (τ := s.scope) rfl rfl rfl hk
  · exact H.files 0 (Nat.zero_le _) oid' file (hkept oid' file hfile)
  · exact ⟨fun oid' file hfile => A.covered oid' file (hkept oid' file hfile),
      fun oid' file hfile => A.brought oid' file (hkept oid' file hfile),
      fun oid' file hfile => A.once oid' file (hkept oid' file hfile),
      fun w file hw hfile => A.based w file hw (hkept w.indexOid file hfile)⟩
  · have B := H.anchored 0 (k + 1) (by omega) fun _ => hfailed
    exact B.of_catalog hkept (congrArg Scope.catalog (Scope.level_congr rfl rfl rfl hk))
      (Scope.override_congr rfl rfl hk) rfl

theorem file_lt_succ (oid : Oid) : ∀ oid' file,
    Function.update s.world.catalog oid (some s.nextFile) oid' = some file →
      file < s.nextFile + 1 := by
  intro oid' file hfile
  by_cases hoid : oid' = oid
  · rw [hoid, Function.update_self] at hfile
    cases hfile
    exact Nat.lt_succ_self _
  · rw [Function.update_of_ne hoid] at hfile
    exact Nat.lt_succ_of_lt (H.files 0 (Nat.zero_le _) oid' file hfile)

/-- `ALTER INDEX … SET TABLESPACE`. -/
theorem moveIndex (hfailed : s.failed = false) {oid : Oid} {file : Nat}
    (hfile : s.world.catalog oid = some file) :
    ({ s.newFile oid (s.world.disk oid file) (s.since oid file) with steady := false } :
      Session).Sound := by
  have A := H.accounts 0 (Nat.zero_le _) fun _ => hfailed
  refine H.front rfl rfl (Nat.le_succ _) nofun ?_ ⟨H.kept.slot, H.kept.aside⟩ H.keys H.keys_lt
    (fun oid' file' hlt => ?_) (fun oid' file' hlt => ?_) (fun k hk => ?_) (H.file_lt_succ oid)
    (fun _ => ?_) fun _ k hk => ?_
  · intro oid' file'
    exact Scope.replaced_of (P := Image.Valid) H.valid (H.valid oid file) oid' file'
  · exact Scope.replaced_ne _ _ fun _ => Nat.ne_of_lt hlt
  · exact Scope.replaced_ne _ _ fun _ => Nat.ne_of_lt hlt
  · exact Scope.level_congr (τ := s.scope) rfl rfl rfl hk
  · exact A.refiled rfl (fun oid' _ => ⟨rfl, rfl⟩) (fun w hw _ => hw) (A.covered oid file hfile)
      (A.brought oid file hfile) (A.once oid file hfile)
      fun w hw hoid hlive => hoid ▸ A.based w file hw (hoid.symm ▸ hfile) hlive
  · have B := H.anchored 0 (k + 1) (by omega) fun _ => hfailed
    have hlevel := congrArg Scope.catalog (Scope.level_congr (k := k)
      (σ := ({ s.newFile oid (s.world.disk oid file) (s.since oid file) with steady := false } :
        Session).scope) (τ := s.scope) rfl rfl rfl hk)
    have hover := Scope.override_congr (k := k)
      (σ := ({ s.newFile oid (s.world.disk oid file) (s.since oid file) with steady := false } :
        Session).scope) (τ := s.scope) rfl rfl hk
    refine B.refiled rfl hlevel (fun outer houter => H.files (k + 1) hk oid outer houter)
      (fun e he => .inr (hover ▸ he)) (fun w hw => ⟨hw, fun hno => hover ▸ hno⟩)
      (fun w _ _ => ⟨file, hfile, rfl⟩) nofun

theorem subidOf_lt : subidOf s.frames < s.nextSub := by
  cases hframes : s.frames with
  | nil => exact H.top_lt
  | cons frame rest => exact H.subids_lt frame (hframes ▸ List.mem_cons_self)

/-- What a rebuild sets aside is the first of its subtransaction. -/
theorem forget_keys (oid : Oid) : ((s.scope.forget oid).discarded.map Prod.fst).Nodup ∧
    ∀ entry ∈ (s.scope.forget oid).discarded, entry.1 < s.nextSub := by
  rcases s.scope.discarded_forget oid with hsame | ⟨w, -, hnew, hpush⟩
  · rw [hsame]
    exact ⟨H.keys, H.keys_lt⟩
  · rw [hpush]
    constructor
    · rw [List.map_append]
      refine List.nodup_append.mpr ⟨H.keys, List.nodup_singleton _, ?_⟩
      intro key hkey key' hkey'
      obtain ⟨entry, hentry, rfl⟩ := List.mem_map.mp hkey
      rw [List.mem_singleton.mp hkey']
      exact hnew entry hentry
    · intro entry hentry
      rcases List.mem_append.mp hentry with hold | hlast
      · exact H.keys_lt entry hold
      · rw [List.mem_singleton.mp hlast]
        exact H.subidOf_lt

/-- `TRUNCATE` and `REINDEX`: what is staged for the index is set aside, and its new file holds the
rows it owes. -/
theorem rebuild [Arith] (hfailed : s.failed = false) (oid : Oid) (params : HnswParams)
    {rows : List Row} {dues : Dues} (hdue : dues.due ≤ ↑rows)
    (honce : ∀ row ∈ dues.own, Multiset.count row ↑rows ≤ 1) :
    After Session.Sound (s.rebuild oid params rows dues) := by
  obtain ⟨hkeys, hkeys_lt⟩ := H.forget_keys oid
  have K := H.kept.forget oid
  have hframes := s.scope.frames_forget oid
  have hlevel : ∀ k, k + 1 ≤ s.scope.depth → ∀ σ : Scope, σ.frames = s.scope.frames →
      σ.pending = (s.scope.forget oid).pending → σ.discarded = (s.scope.forget oid).discarded →
        σ.level (k + 1) = s.scope.level (k + 1) := by
    intro k hk σ hsame hpending hdiscarded
    have hdepth : k + 1 ≤ σ.depth := by
      show k + 1 ≤ σ.frames.length
      rw [hsame]
      exact hk
    have hback := Scope.rollback_forget oid (Scope.frames_ne_nil hk)
    exact (Scope.level_congr hpending hdiscarded (hsame.trans hframes.symm) hdepth).trans
      (Scope.level_of_rollback hback k)
  have A := H.accounts 0 (Nat.zero_le _) fun _ => hfailed
  -- nothing is staged for the index any more, and the rest is as it was
  have hslot : ∀ w, (s.scope.forget oid).pending = some w →
      s.scope.pending = some w ∧ w.indexOid ≠ oid ∧ s.scope.forget oid = s.scope := by
    intro w hw
    rcases s.scope.forget_cases oid with ⟨hsame, hother⟩ | ⟨-, -, -, hnone⟩
    · rw [hsame] at hw
      exact ⟨hw, hother w hw, hsame⟩
    · rw [hnone] at hw
      cases hw
  have hempty : survivingFor oid (s.scope.forget oid).pending = 0 := by
    by_contra hne
    obtain ⟨w, hw, hoid, -⟩ := survivingFor_ne_zero hne
    exact (hslot w hw).2.1 hoid
  have hothers : ∀ oid', oid' ≠ oid → survivingFor oid' (s.scope.forget oid).pending =
      survivingFor oid' s.scope.pending := by
    intro oid' hne
    rcases s.scope.forget_cases oid with ⟨hsame, -⟩ | ⟨w, hw, hoid, hnone⟩
    · rw [hsame]
    · rw [hnone, hw, survivingFor_ne (hoid.trans_ne hne.symm)]
      rfl
  unfold Session.rebuild
  rw [s.world_forget oid]
  have hbuild := ambuild_contents params rows
  cases hrun : ambuild params rows with
  | error fault =>
    cases fault with
    | error e =>
      refine H.front rfl rfl le_rfl id H.valid ⟨K.slot, K.aside⟩ hkeys hkeys_lt (fun _ _ _ => rfl)
        (fun _ _ _ => rfl) (fun k hk => ?_) (H.files 0 (Nat.zero_le _)) nofun nofun
      exact hlevel k hk _ rfl rfl rfl
    | panic => trivial
    | fuel => trivial
  | ok image =>
    obtain ⟨V, hcontents⟩ := hbuild.elim hrun
    refine H.front rfl rfl (Nat.le_succ _) id ?_ ⟨K.slot, K.aside⟩ hkeys hkeys_lt
      (fun oid' file' hlt => ?_) (fun oid' file' hlt => ?_) (fun k hk => ?_) ?_ (fun _ => ?_)
      fun _ k hk => ?_
    · intro oid' file'
      exact Scope.replaced_of (P := Image.Valid) H.valid V oid' file'
    · exact Scope.replaced_ne _ _ fun _ => Nat.ne_of_lt hlt
    · exact Scope.replaced_ne _ _ fun _ => Nat.ne_of_lt hlt
    · exact hlevel k hk _ rfl rfl rfl
    · exact H.file_lt_succ oid
    · refine A.refiled rfl (fun oid' hne => ⟨Function.update_of_ne hne _ _, hothers oid' hne⟩)
        (fun w hw _ => (hslot w hw).1) ?_ ?_ ?_ fun w hw hoid => absurd hoid (hslot w hw).2.1
      · show (Function.update s.dues oid dues oid).due ≤ _ + survivingFor oid (s.scope.forget oid).pending
        rw [Function.update_self, hempty, hcontents, add_zero]
        exact hdue
      · show _ + survivingFor oid (s.scope.forget oid).pending ≤ _
        rw [hempty, hcontents, add_zero]
      · intro row hrow
        have hrow : row ∈ (Function.update s.dues oid dues oid).own := hrow
        rw [Function.update_self] at hrow
        exact honce row hrow
    · have B := H.anchored 0 (k + 1) (by omega) fun _ => hfailed
      have hdepth : k + 1 ≤ (s.scope.forget oid).depth := by
        show k + 1 ≤ (s.scope.forget oid).frames.length
        rw [hframes]
        exact hk
      refine B.refiled rfl (congrArg Scope.catalog (hlevel k hk _ rfl rfl rfl))
        (fun outer houter => H.files (k + 1) hk oid outer houter) (fun e he => ?_)
        (fun w hw => ?_) (fun w hw hoid => absurd hoid (hslot w hw).2.1)
        fun hsteady => ⟨hsteady, fun w hw => (hslot w hw).2.1⟩
      · refine Scope.override_forget hk ?_
        rw [← he]
        exact Scope.override_congr rfl hframes hdepth
      · obtain ⟨hw', -, hsame⟩ := hslot w hw
        refine ⟨hw', fun hno => ?_⟩
        rw [← hno]
        refine (Scope.override_congr ?_ rfl hk)
        exact (congrArg Scope.discarded hsame).symm

/-! ## Other backends -/

omit H in
/-- An index whose file no open subtransaction has changed. -/
theorem catalog_level {oid : Oid}
    (hlocked : ∀ frame ∈ s.frames, frame.catalog oid = s.world.catalog oid) :
    ∀ k ≤ s.scope.depth, (s.scope.level k).catalog oid = s.world.catalog oid := by
  intro k hk
  cases k with
  | zero => rfl
  | succ k =>
    have hframe : s.scope.frames[k]? = some (s.frames[k]) := List.getElem?_eq_getElem hk
    rw [(Scope.level_of_frame hframe).1]
    exact hlocked _ (List.getElem_mem hk)

omit H in
/-- What a level owes is what some open level owes, or the one in front. -/
theorem dues_level {P : (Oid → Dues) → Prop} (hfront : P s.dues)
    (hframes : ∀ frame ∈ s.frames, P frame.dues) : ∀ k ≤ s.scope.depth, P (s.scope.level k).dues := by
  intro k hk
  cases k with
  | zero => exact hfront
  | succ k =>
    have hframe : s.scope.frames[k]? = some (s.frames[k]) := List.getElem?_eq_getElem hk
    rw [(Scope.level_of_frame hframe).2]
    exact hframes _ (List.getElem_mem hk)

/-- Another backend rewrites the image of an index. -/
theorem others {oid : Oid} {file : Nat} {image : Image} {gone come : Multiset Row}
    (hfile : s.world.catalog oid = some file)
    (hlocked : ∀ frame ∈ s.frames, frame.catalog oid = s.world.catalog oid) (hvalid : image.Valid)
    (hrows : image.contents + gone = (s.world.disk oid file).contents + come)
    (hgone : gone ≤ (s.world.disk oid file).contents)
    (hown : ∀ row ∈ (s.dues oid).own, row ∉ gone ∧ row ∉ come)
    (hframes : ∀ frame ∈ s.frames, ∀ row ∈ (frame.dues oid).own, row ∉ gone ∧ row ∉ come)
    (hbase : ∀ w ∈ s.scope.held, w.indexOid = oid → w.surviving ≠ 0 →
      image.generation ≠ w.baseGeneration) :
    (s.othersWrite oid file image gone come).Sound := by
  have hcatalog : ∀ k ≤ s.scope.depth, (s.scope.level k).catalog oid = some file :=
    fun k hk => (catalog_level hlocked k hk).trans hfile
  have hlevel : ∀ k, (s.othersWrite oid file image gone come).scope.level k =
      (s.scope.level k).mapDues (Scope.swapped oid gone come) := fun k =>
    Scope.level_mapDues s.scope (Scope.swapped oid gone come) k
  have hdepth : (s.othersWrite oid file image gone come).scope.depth = s.scope.depth :=
    List.length_map ..
  refine ⟨?_, ⟨H.kept.slot, H.kept.aside⟩, H.keys, H.keys_lt, H.top_lt, ?_, ?_, ?_, ?_, ?_⟩
  · intro oid' file'
    exact Scope.replaced_of (P := Image.Valid) H.valid hvalid oid' file'
  · exact List.pairwise_map.mpr H.subids
  · intro frame hframe
    obtain ⟨old, hold, rfl⟩ := List.mem_map.mp hframe
    exact H.subids_lt old hold
  · intro k hk oid' file' hfile'
    rw [hlevel] at hfile'
    exact H.files k (hdepth ▸ hk) oid' file' hfile'
  · intro k hk hfront
    have hk : k ≤ s.scope.depth := hdepth ▸ hk
    rw [hlevel]
    refine (H.accounts k hk hfront).others (hcatalog k hk) hrows hgone ?_ ?_
    · exact dues_level (P := fun dues => ∀ row ∈ (dues oid).own, row ∉ gone ∧ row ∉ come) hown
        hframes k hk
    · intro v hv hoid hlive
      obtain ⟨w, hheld, j, rfl⟩ := Scope.held_of_level k hv
      rw [PendingWrite.indexOid_undo] at hoid
      rw [PendingWrite.baseGeneration_undo]
      exact hbase w hheld hoid fun hdead =>
        hlive ((H.kept.of_held hheld).surviving_undo_eq_zero hdead j)
  · intro i k hik hfront
    have hik : i + k ≤ s.scope.depth := hdepth ▸ hik
    have A := H.anchored i k hik hfront
    rw [hlevel]
    refine (A.transfer (τ := (s.scope.level i).mapDues (Scope.swapped oid gone come)) rfl
      ?_ (Scope.override_mapDues _ _ k) fun w hw hlive => ⟨w, hw, rfl, hlive⟩).congr ?_
    · rw [Scope.level_mapDues]
      rfl
    · intro w file' outer _ hfile' houter hsame
      by_cases hoid : w.indexOid = oid
      · -- the index lives in the same file at both levels
        rw [Scope.level_mapDues] at houter
        have houter : ((s.scope.level i).level k).catalog w.indexOid = some outer := houter
        have hfile' : (s.scope.level i).catalog w.indexOid = some file' := hfile'
        rw [Scope.level_add, hoid, hcatalog (i + k) hik] at houter
        rw [hoid, hcatalog i (by omega)] at hfile'
        rw [← Option.some.inj houter, ← Option.some.inj hfile']
      · have hne : w.indexOid = oid → ∀ file' : Nat, file' ≠ file := fun h => absurd h hoid
        show Scope.replaced s.world.disk oid file image w.indexOid outer =
          Scope.replaced s.world.disk oid file image w.indexOid file'
        rw [Scope.replaced_ne _ _ fun h => hne h _, Scope.replaced_ne _ _ fun h => hne h _]
        exact hsame

end Sound

end Session

end Brindle
