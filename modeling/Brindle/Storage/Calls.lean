/-
# Brindle.Storage.Calls — the calls that fill the slot and write it back.

An insert, a scan, a parallel plan and a commit begin alike: the slot is settled and, if it holds
another index than the call wants there, written back. The invariant survives that unless one of three
things happens, each a condition on the state before the call: the slot holds an index loaded from
another file, with nothing staged (`Stray`); rows leave the slot that a rollback restores with another
file (`Uprooted`); or the write-back raises while rows staged before the innermost savepoint are in the
slot.
-/
import Brindle.Storage.Steps

namespace Brindle

open PendingWrite (undo)
open Run (After)

/-- The call raises an error. -/
def Raises {α : Type} : Outcome Raised α → Prop
  | .error (.error _) => True
  | _ => False

instance {α : Type} : ∀ call : Outcome Raised α, Decidable (Raises call)
  | .ok _ => inferInstanceAs (Decidable False)
  | .error (.error _) => inferInstanceAs (Decidable True)
  | .error .panic => inferInstanceAs (Decidable False)
  | .error .fuel => inferInstanceAs (Decidable False)

namespace World

variable [Arith]

/-- What a call begins with: the slot is settled, and written back if the call takes its index. -/
def writeBack (takes : Oid → Bool) (pages : PageAccess) (world : World) : Outcome Raised World := do
  let world ← world.settlePending pages.settle
  match world.pending with
  | some w =>
    if takes w.indexOid then (world.setPending none).flushLocked pages.flush (some w) else return world
  | none => return world

variable (pages : PageAccess) (world : World)

theorem pendingInsert_eq (oid : Oid) (vector : Option (List F32)) (attrs : List AttrValue)
    (tid : TidPair) : world.pendingInsert pages oid vector attrs tid =
      (do
        let world ← world.writeBack (fun other => other ≠ oid) pages
        let (world, w) ← world.loadPending pages.load oid
        world.stageRow w vector attrs tid) := by
  unfold pendingInsert writeBack
  rw [bind_assoc]
  refine congrArg _ (funext fun world => ?_)
  unfold flushOther
  cases world.pending with
  | none => rfl
  | some w => simp only [decide_eq_true_eq]

theorem flushPendingFor_eq (oid : Oid) : world.flushPendingFor pages oid =
    world.writeBack (fun other => other = oid) pages := by
  unfold flushPendingFor writeBack
  refine congrArg _ (funext fun world => ?_)
  cases world.pending with
  | none => rfl
  | some w => simp only [decide_eq_true_eq]

theorem flushPending_eq : world.flushPending pages = world.writeBack (fun _ => true) pages := by
  unfold flushPending writeBack
  refine congrArg _ (funext fun world => ?_)
  cases hslot : world.pending with
  | none => exact congrArg _ (setPending_self hslot)
  | some w => rfl

theorem preCommit_eq : world.preCommit pages =
    (do
      let world ← world.writeBack (fun _ => true) pages
      return { world with discarded := [] }) := by
  rw [← flushPending_eq]
  unfold preCommit flushPending
  rw [bind_assoc]

omit [Arith] in
theorem Flushed.slot {world world' : World} {w : PendingWrite} (h : Flushed world w world') :
    world'.pending = world.pending ∧ world'.catalog = world.catalog := by
  cases h with
  | gone _ => exact ⟨rfl, rfl⟩
  | stored _ _ _ _ _ => exact ⟨rfl, rfl⟩

end World

namespace PendingWrite.Kept

variable {w : PendingWrite} (K : w.Kept)
include K

/-- Nothing that was staged when a savepoint opened survives its rollback. -/
theorem unmarked {k : Nat} (hmark : (w.marks.drop k).headD (0, 0) = (0, 0)) :
    (undo^[k + 1] w).surviving = 0 := by
  rw [surviving_undo, K.levelAfter_succ, hmark]
  rfl

/-- A settled write none of whose rows survive has nothing staged. -/
theorem staged_eq_zero (hrewind : w.rewindTo = none) (hdead : w.surviving = 0) :
    w.staged = (0, 0) := by
  have hlevel : w.sized.level = w.staged := by
    show w.rewindTo.getD w.staged = w.staged
    rw [hrewind]
    rfl
  exact hlevel.symm.trans (K.surviving_eq_zero.mp hdead)

end PendingWrite.Kept

/-- What settling leaves in the slot has the rows of every level, on the image of today. -/
theorem Settled.spec {world : World} {w w' : PendingWrite} (h : Settled world w (some w'))
    (K : w.Kept) : w'.rewindTo = none ∧ w'.indexOid = w.indexOid ∧
      (∀ k, (undo^[k] w').surviving = (undo^[k] w).surviving) ∧
      (w' = w ∨ ∃ file, world.catalog w.indexOid = some file ∧
        w'.Extends (world.disk w.indexOid file)) := by
  cases h with
  | kept hrewind => exact ⟨hrewind, rfl, fun _ => rfl, .inl rfl⟩
  | again hrewind hmark hfile R =>
    exact ⟨R.rewindTo_eq, R.indexOid_eq, R.surviving_undo K, .inr ⟨_, hfile, R.extends_image⟩⟩

namespace Session

variable {s : Session} {w : PendingWrite}

/-- The slot holds a copy with nothing staged, whose rows are not those of the image it would be
written over, although the generations agree. -/
def Stray (s : Session) : Prop :=
  ∃ w ∈ s.world.pending, w.staged = (0, 0) ∧
    ∃ file ∈ s.world.catalog w.indexOid, ¬ w.Based (s.world.disk w.indexOid file)

/-- Rows staged before an open subtransaction began are in the write, and its rollback puts the index
back into another file. -/
def Uprooted (s : Session) (w : PendingWrite) : Prop :=
  ∃ entry ∈ s.frames.zipIdx, entry.1.catalog w.indexOid ≠ s.world.catalog w.indexOid ∧
    (w.marks.drop entry.2).headD (0, 0) ≠ (0, 0)

/-- A call takes the write out of the slot: to write it back, or because its index is gone and there
is nothing to settle it on. -/
def Leaves (s : Session) (takes : Oid → Bool) (w : PendingWrite) : Prop :=
  takes w.indexOid = true ∨ s.world.catalog w.indexOid = none ∧ w.rewindTo ≠ none

instance (s : Session) : Decidable s.Stray := inferInstanceAs (Decidable (∃ w ∈ s.world.pending, _))

instance (s : Session) (w : PendingWrite) : Decidable (s.Uprooted w) :=
  inferInstanceAs (Decidable (∃ entry ∈ s.frames.zipIdx, _))

instance (s : Session) (takes : Oid → Bool) (w : PendingWrite) : Decidable (s.Leaves takes w) :=
  inferInstanceAs (Decidable (_ ∨ _ ∧ _))

theorem after_of_ends {call : Outcome Raised World} {ok bad : World → Prop} (h : Ends call ok bad)
    {done : Session → Session} {P : Session → Prop}
    (hok : ∀ world, ok world → P (done { s with world }))
    (hbad : ∀ world, bad world → P { s with world, failed := true }) :
    After P (s.after call done) := by
  cases call with
  | ok world => exact hok world h
  | error fault =>
    cases fault with
    | error raised => exact hbad raised.world h
    | panic => trivial
    | fuel => trivial

namespace Sound

variable (H : s.Sound)
include H

theorem homed_of (hw : s.world.pending = some w) (hrooted : ¬ s.Uprooted w) : s.Homed w := by
  intro k hk _ hmoved
  cases k with
  | zero => exact absurd rfl hmoved
  | succ k =>
    have hframe : s.frames[k]? = some s.frames[k] := List.getElem?_eq_getElem hk
    rw [(Scope.level_of_frame (σ := s.scope) hframe).1] at hmoved
    refine (H.kept_of hw).unmarked ?_
    by_contra hmark
    exact hrooted ⟨(s.frames[k], k), List.mk_mem_zipIdx_iff_getElem?.mpr hframe, hmoved, hmark⟩

/-- Without a drop or a move every write is at home. -/
theorem homed_of_steady (hfailed : s.failed = false) (hsteady : s.steady = true)
    (hw : s.world.pending = some w) : s.Homed w := by
  intro k hk hover hmoved
  by_contra hlive
  exact hmoved ((H.anchored 0 k (by omega) fun _ => hfailed).still hsteady w hover hw hlive)

theorem based_of (hfailed : s.failed = false) (hstray : ¬ s.Stray) (hw : s.world.pending = some w)
    (hrewind : w.rewindTo = none) {file : Nat} (hfile : s.world.catalog w.indexOid = some file) :
    w.Based (s.world.disk w.indexOid file) := by
  by_cases hlive : w.surviving = 0
  · by_contra hother
    exact hstray ⟨w, hw, (H.kept_of hw).staged_eq_zero hrewind hlive, file, hfile, hother⟩
  · exact (H.accounts 0 (Nat.zero_le _) fun _ => hfailed).based w file hw hfile hlive

/-- **What a call begins with** keeps the invariant, or raises and leaves the slot empty. -/
theorem writeBack [Arith] (takes : Oid → Bool) (pages : PageAccess) (hfailed : s.failed = false)
    (hstray : ¬ s.Stray)
    (hhomed : ∀ w, s.world.pending = some w → s.Leaves takes w → s.Homed w) :
    Ends (s.world.writeBack takes pages)
      (fun world' => ({ s with world := world' } : Session).Sound ∧
        ¬ ({ s with world := world' } : Session).Stray ∧ world'.catalog = s.world.catalog ∧
        ∀ w, world'.pending = some w → w.rewindTo = none ∧ takes w.indexOid = false)
      (fun world' => s.world.pending ≠ none ∧ world' = s.world.setPending none) := by
  unfold World.writeBack
  cases hw : s.world.pending with
  | none =>
    have hsettle : s.world.settlePending pages.settle = .ok s.world := by
      unfold World.settlePending
      rw [hw]
      rfl
    rw [hsettle, Outcome.ok_bind, hw]
    refine ⟨H, hstray, rfl, fun w hw' => ?_⟩
    rw [hw] at hw'
    cases hw'
  | some w =>
    have K := H.kept_of hw
    have hsettle := World.settlePending_spec pages.settle hw K H.valid
    refine Ends.bind (hsettle.mono (fun _ h => h) fun _ h => ⟨nofun, h⟩) ?_
    rintro world' ⟨p, hsettled, rfl⟩
    have H₁ : ({ s with world := s.world.setPending p } : Session).Sound :=
      H.settle hfailed hw (fun hgone hrewind => hhomed w hw (.inr ⟨hgone, hrewind⟩)) hsettled
    cases p with
    | none =>
      refine ⟨H₁, ?_, rfl, nofun⟩
      rintro ⟨w', hw', -⟩
      cases hw'
    | some w' =>
      obtain ⟨hrewind, hoid, hundo, hbased⟩ := hsettled.spec K
      have hstray₁ : ¬ ({ s with world := s.world.setPending (some w') } : Session).Stray := by
        rintro ⟨v, hv, hstaged, file, hfile, hother⟩
        cases hv
        rcases hbased with rfl | ⟨file', hfile', E⟩
        · exact hstray ⟨_, hw, hstaged, file, hfile, hother⟩
        · rw [hoid] at hfile hother
          have hfile : s.world.catalog w.indexOid = some file := hfile
          rw [Option.some.inj (hfile'.symm.trans hfile)] at E
          exact hother fun _ => E
      show Ends (if takes w'.indexOid then _ else _) _ _
      split_ifs with htakes
      · have hhome : s.Homed w := hhomed w hw (.inl (hoid ▸ htakes))
        have hhome₁ : ({ s with world := s.world.setPending (some w') } : Session).Homed w' := by
          intro k hk hover hmoved
          have hcatalog := Scope.catalog_setPending (σ := s.scope) hk (some w')
          have hmoved : ((s.scope.setPending (some w')).level k).catalog w'.indexOid ≠
              s.world.catalog w'.indexOid := hmoved
          rw [hcatalog, hoid] at hmoved
          rw [hundo]
          exact hhome k hk hover hmoved
        show Ends (World.flushLocked pages.flush (s.world.setPending none) (some w')) _ _
        refine Ends.mono (World.flushLocked_spec pages.flush
          (H₁.kept_of rfl).toCoherent H.valid ?_) ?_ fun world' h => ⟨nofun, h⟩
        · intro file hfile
          exact H₁.based_of hfailed hstray₁ rfl hrewind hfile
        · intro world' hflushed
          obtain ⟨hslot, hcatalog⟩ := hflushed.slot
          have hempty : world'.pending = none := hslot
          refine ⟨H₁.flush hfailed rfl hrewind hhome₁ hflushed, ?_, hcatalog, ?_⟩
          · rintro ⟨v, hv, -⟩
            cases hempty.symm.trans hv
          · intro v hv
            cases hempty.symm.trans hv
      · refine ⟨H₁, hstray₁, rfl, ?_⟩
        intro v hv
        cases hv
        exact ⟨hrewind, by simpa using htakes⟩

/-- A command raises and touches nothing. -/
theorem fail : ({ s with failed := true } : Session).Sound where
  valid := H.valid
  kept := H.kept
  keys := H.keys
  keys_lt := H.keys_lt
  top_lt := H.top_lt
  subids := H.subids
  subids_lt := H.subids_lt
  files := H.files
  accounts k hk hfront := H.accounts k hk fun hzero => absurd (hfront hzero) nofun
  anchored i k hik hfront := H.anchored i k hik fun hzero => absurd (hfront hzero) nofun

/-- A write-back raises with nothing in the slot that the innermost rollback would restore. -/
theorem writeBack_raised (hfailed : s.failed = false) (hslot : s.world.pending ≠ none)
    (hspared : ∀ w, s.world.pending = some w → s.frames ≠ [] → w.marks.headD (0, 0) = (0, 0)) :
    ({ s with world := s.world.setPending none, failed := true } : Session).Sound := by
  obtain ⟨w, hw⟩ := Option.ne_none_iff_exists'.mp hslot
  exact H.raised hfailed hw fun hopen => (H.kept_of hw).unmarked (k := 0) (hspared w hw hopen)

/-- A row is staged in the slot, or refused. -/
theorem stage [Arith] (hfailed : s.failed = false) (hw : s.world.pending = some w)
    (hrewind : w.rewindTo = none) {file : Nat} (hfile : s.world.catalog w.indexOid = some file)
    (hbased : w.Based (s.world.disk w.indexOid file)) {row : Row}
    (hfresh : row ∉ s.since w.indexOid file) :
    Ends (s.world.stageRow w row.vector row.attrs row.tid)
      (fun world' => (({ s with world := world' } : Session).arrive w.indexOid file row).Sound ∧
        world'.catalog = s.world.catalog)
      (fun world' => ({ s with world := world', failed := true } : Session).Sound ∧
        world'.catalog = s.world.catalog) := by
  refine (World.stageRow_spec hw (H.kept_of hw).toCoherent row).mono ?_ ?_
  · rintro world' ⟨w', S, rfl⟩
    exact ⟨H.arrive hfailed hw hrewind hfile hbased S hfresh, rfl⟩
  · rintro world' ⟨w', S, rfl⟩
    exact ⟨H.refused hfailed hw hrewind S, rfl⟩

/-- The index is loaded if need be, and the row is staged or refused. -/
theorem loadAndStage [Arith] (hfailed : s.failed = false) (hstray : ¬ s.Stray) {oid : Oid}
    (hslot : ∀ w, s.world.pending = some w → w.rewindTo = none ∧ w.indexOid = oid) {file : Nat}
    (hfile : s.world.catalog oid = some file) (works : Bool) {row : Row}
    (hfresh : row ∉ s.since oid file) :
    Ends (do
        let (world, w) ← s.world.loadPending works oid
        world.stageRow w row.vector row.attrs row.tid)
      (fun world' => (({ s with world := world' } : Session).arrive oid file row).Sound ∧
        world'.catalog = s.world.catalog)
      (fun world' => ({ s with world := world', failed := true } : Session).Sound ∧
        world'.catalog = s.world.catalog) := by
  cases hw : s.world.pending with
  | some w =>
    obtain ⟨hrewind, rfl⟩ := hslot w hw
    have hload : s.world.loadPending works w.indexOid = .ok (s.world, w) := by
      unfold World.loadPending
      rw [hw]
      rfl
    rw [hload, Outcome.ok_bind]
    exact H.stage hfailed hw hrewind hfile (H.based_of hfailed hstray hw hrewind hfile) hfresh
  | none =>
    refine Ends.bind ((World.loadPending_spec works oid hw).mono (fun _ h => h) ?_) ?_
    · rintro world' rfl
      exact ⟨H.fail, rfl⟩
    · rintro ⟨world', w⟩ ⟨file', hfile', hworld, himage⟩
      dsimp only at hworld himage
      subst himage hworld
      have hsame : file' = file := Option.some.inj (hfile'.symm.trans hfile)
      subst hsame
      exact (H.load hfailed hw oid file').stage hfailed rfl rfl hfile
        (fun _ => PendingWrite.extends_ofImage (H.valid oid file') oid) hfresh

/-- **Staging a row** keeps the invariant, also when a step of it raises. -/
theorem insert [Arith] (hfailed : s.failed = false) (hstray : ¬ s.Stray) {oid : Oid} {file : Nat}
    (hfile : s.world.catalog oid = some file) {row : Row} (hfresh : row ∉ s.since oid file)
    (pages : PageAccess)
    (hhomed : ∀ w, s.world.pending = some w → s.Leaves (fun other => other ≠ oid) w → s.Homed w)
    (hspared : ∀ w, s.world.pending = some w →
      Raises (s.world.writeBack (fun other => other ≠ oid) pages) → s.frames ≠ [] →
        w.marks.headD (0, 0) = (0, 0)) :
    After (fun s' => s'.Sound ∧ s'.world.catalog = s.world.catalog)
      (s.act (.insert oid row pages)) := by
  have hspec := H.writeBack (fun other => other ≠ oid) pages hfailed hstray hhomed
  unfold act
  dsimp only
  rw [hfile]
  dsimp only
  rw [World.pendingInsert_eq]
  cases hcall : s.world.writeBack (fun other => other ≠ oid) pages with
  | error fault =>
    rw [hcall] at hspec
    cases fault with
    | error raised =>
      obtain ⟨hslot, hworld⟩ := hspec
      have hend := H.writeBack_raised hfailed hslot fun w hw => hspared w hw (hcall ▸ trivial)
      rw [← hworld] at hend
      have hcatalog : raised.world.catalog = s.world.catalog := by
        rw [hworld]
        rfl
      exact ⟨hend, hcatalog⟩
    | panic => trivial
    | fuel => trivial
  | ok world' =>
    rw [hcall] at hspec
    obtain ⟨H', hstray', hcatalog, hslot⟩ := hspec
    have hslot : ∀ w, world'.pending = some w → w.rewindTo = none ∧ w.indexOid = oid := by
      intro w hw
      obtain ⟨hrewind, hkept⟩ := hslot w hw
      exact ⟨hrewind, by simpa using hkept⟩
    have hstage := H'.loadAndStage hfailed hstray' hslot
      ((congrFun hcatalog oid).trans hfile) pages.load hfresh
    rw [Outcome.ok_bind]
    exact after_of_ends hstage (fun _ h => ⟨h.1, h.2.trans hcatalog⟩)
      fun _ h => ⟨h.1, h.2.trans hcatalog⟩

/-- A scan or a parallel plan keeps the invariant, also when the write-back raises. -/
theorem flushed [Arith] (takes : Oid → Bool) (pages : PageAccess) (hfailed : s.failed = false)
    (hstray : ¬ s.Stray)
    (hhomed : ∀ w, s.world.pending = some w → s.Leaves takes w → s.Homed w)
    (hspared : ∀ w, s.world.pending = some w → Raises (s.world.writeBack takes pages) →
      s.frames ≠ [] → w.marks.headD (0, 0) = (0, 0)) :
    After (fun s' => s'.Sound ∧ s'.world.catalog = s.world.catalog)
      (s.after (s.world.writeBack takes pages) id) := by
  have hspec := H.writeBack takes pages hfailed hstray hhomed
  cases hcall : s.world.writeBack takes pages with
  | ok world' =>
    rw [hcall] at hspec
    exact ⟨hspec.1, hspec.2.2.1⟩
  | error fault =>
    rw [hcall] at hspec
    cases fault with
    | error raised =>
      obtain ⟨hslot, hworld⟩ := hspec
      have hend := H.writeBack_raised hfailed hslot fun w hw => hspared w hw (hcall ▸ trivial)
      rw [← hworld] at hend
      have hcatalog : raised.world.catalog = s.world.catalog := by
        rw [hworld]
        rfl
      exact ⟨hend, hcatalog⟩
    | panic => trivial
    | fuel => trivial

/-- An index scan. -/
theorem scan [Arith] (hfailed : s.failed = false) (hstray : ¬ s.Stray) {oid : Oid} {file : Nat}
    (hfile : s.world.catalog oid = some file) (pages : PageAccess)
    (hhomed : ∀ w, s.world.pending = some w → s.Leaves (fun other => other = oid) w → s.Homed w)
    (hspared : ∀ w, s.world.pending = some w →
      Raises (s.world.writeBack (fun other => other = oid) pages) → s.frames ≠ [] →
        w.marks.headD (0, 0) = (0, 0)) :
    After (fun s' => s'.Sound ∧ s'.world.catalog = s.world.catalog) (s.act (.scan oid pages)) := by
  simp only [Session.act, hfile, World.flushPendingFor_eq]
  exact H.flushed _ pages hfailed hstray hhomed hspared

/-- A statement with a parallel plan. -/
theorem parallelPlan [Arith] (hfailed : s.failed = false) (hstray : ¬ s.Stray) (pages : PageAccess)
    (hhomed : ∀ w, s.world.pending = some w → s.Leaves (fun _ => true) w → s.Homed w)
    (hspared : ∀ w, s.world.pending = some w → Raises (s.world.writeBack (fun _ => true) pages) →
      s.frames ≠ [] → w.marks.headD (0, 0) = (0, 0)) :
    After (fun s' => s'.Sound ∧ s'.world.catalog = s.world.catalog)
      (s.act (.parallelPlan pages)) := by
  simp only [Session.act, World.flushPending_eq]
  exact H.flushed _ pages hfailed hstray hhomed hspared

/-- **A commit** empties the slot and the stash, and has stored every row that is owed once. -/
theorem preCommit [Arith] (hfailed : s.failed = false) (hframes : s.frames = []) (hstray : ¬ s.Stray)
    (pages : PageAccess) :
    After (fun world => world.pending = none ∧ world.discarded = [] ∧
        world.catalog = s.world.catalog ∧ ∀ oid, ∀ file ∈ world.catalog oid,
          (∀ row ∈ (s.dues oid).own, (world.disk oid file).contents.count row = 1) ∧
          (world.disk oid file).contents ≤ s.since oid file)
      (s.world.preCommit pages) := by
  have hhomed : ∀ w, s.world.pending = some w → s.Leaves (fun _ => true) w → s.Homed w := by
    intro w hw _
    refine H.homed_of hw ?_
    rintro ⟨entry, hentry, -⟩
    rw [hframes] at hentry
    cases hentry
  have hspec := H.writeBack (fun _ => true) pages hfailed hstray hhomed
  rw [World.preCommit_eq]
  cases hcall : s.world.writeBack (fun _ => true) pages with
  | error fault => trivial
  | ok world' =>
    rw [hcall] at hspec
    obtain ⟨H', -, hcatalog, hslot⟩ := hspec
    have hempty : world'.pending = none := by
      cases hw : world'.pending with
      | none => rfl
      | some w => exact absurd (hslot w hw).2 nofun
    refine ⟨hempty, rfl, hcatalog, fun oid file hfile => ?_⟩
    have A := H'.accounts 0 (Nat.zero_le _) fun _ => hfailed
    have hstored : (world'.disk oid file).contents + survivingFor oid world'.pending =
        (world'.disk oid file).contents := by
      rw [hempty]
      exact add_zero _
    refine ⟨fun row hrow => ?_, ?_⟩
    · have hone : ((world'.disk oid file).contents + survivingFor oid world'.pending).count row = 1 :=
        A.count_eq_one hfile hrow
      rwa [hstored] at hone
    · have hbrought : (world'.disk oid file).contents + survivingFor oid world'.pending ≤
          s.since oid file := A.brought oid file hfile
      rwa [hstored] at hbrought

end Sound

end Session

end Brindle
