/-
# Brindle.Storage.Transaction — what a step of a transaction does, and what it is asked.

The conditions under which a command keeps the invariant, each a predicate on the state before the
command; what the command changes beside the slot; and the step lemma, one case a command. From a state
in which the transaction has done nothing the invariant holds over every run that meets the conditions.
-/
import Brindle.Storage.Calls

namespace Brindle

open Run (After)

/-! ## Conditions on a step -/

namespace Session

variable {s : Session} {command : Command}

/-- Whether a command calls the write-back, for which indexes, and with which pages. -/
def call (s : Session) (command : Command) : Option ((Oid → Bool) × PageAccess) :=
  if s.failed then none
  else
    match command with
    | .insert oid _ pages => (s.world.catalog oid).map fun _ => (fun other => other ≠ oid, pages)
    | .scan oid pages => (s.world.catalog oid).map fun _ => (fun other => other = oid, pages)
    | .parallelPlan pages => some (fun _ => true, pages)
    | _ => none

/-- A failed transaction makes no call. -/
theorem failed_of_call {call : (Oid → Bool) × PageAccess} (h : call ∈ s.call command) :
    s.failed = false := by
  cases hfailed : s.failed with
  | false => rfl
  | true =>
    unfold Session.call at h
    rw [hfailed] at h
    cases h

section

variable (hfailed : s.failed = false) {oid : Oid} {file : Nat} (hfile : s.world.catalog oid = some file)
include hfailed

theorem call_parallelPlan (pages : PageAccess) :
    s.call (.parallelPlan pages) = some (fun _ => true, pages) := by
  unfold call
  rw [hfailed]
  rfl

include hfile

theorem call_insert (row : Row) (pages : PageAccess) :
    s.call (.insert oid row pages) = some (fun other => decide (other ≠ oid), pages) := by
  unfold call
  rw [hfailed]
  simp only [hfile]
  rfl

theorem call_scan (pages : PageAccess) :
    s.call (.scan oid pages) = some (fun other => decide (other = oid), pages) := by
  unfold call
  rw [hfailed]
  simp only [hfile]
  rfl

end

/-- No call is made on a stray copy. -/
def Clean (s : Session) (command : Command) : Prop := (s.call command).isSome → ¬ s.Stray

/-- What leaves the slot is not uprooted. -/
def Rooted (s : Session) (command : Command) : Prop :=
  ∀ call ∈ s.call command, ∀ w ∈ s.world.pending, s.Leaves call.1 w → ¬ s.Uprooted w

variable [Arith]

/-- A write-back that raises in a subtransaction takes none of the rows staged before it. -/
def Spared (s : Session) (command : Command) : Prop :=
  ∀ call ∈ s.call command, ∀ w ∈ s.world.pending, Raises (s.world.writeBack call.1 call.2) →
    s.frames ≠ [] → w.marks.headD (0, 0) = (0, 0)

omit [Arith] in
/-- What the heap and the other backends promise. A row is inserted once into a file, `REINDEX` finds
the live rows, and other backends write to no index that is locked, keep the entries of this
transaction and count the generation up. -/
def Promised (s : Session) : Command → Prop
  | .insert oid row _ => ∀ file ∈ s.world.catalog oid, row ∉ s.since oid file
  | .reindex oid _ rows => rows.Nodup ∧ (↑(s.dues oid).own : Multiset Row) ≤ ↑rows ∧
      ∀ file ∈ s.world.catalog oid, ∀ row ∈ rows, row ∈ s.since oid file
  | .others oid image gone come => ∀ file ∈ s.world.catalog oid,
      (∀ frame ∈ s.frames, frame.catalog oid = s.world.catalog oid) ∧ image.Valid ∧
      image.contents + gone = (s.world.disk oid file).contents + come ∧
      gone ≤ (s.world.disk oid file).contents ∧
      (∀ dues ∈ s.dues :: s.frames.map Frame.dues, ∀ row ∈ (dues oid).own,
        row ∉ gone ∧ row ∉ come) ∧
      ∀ w ∈ s.scope.held, w.indexOid = oid → w.surviving ≠ 0 →
        image.generation ≠ w.baseGeneration
  | _ => True

omit [Arith] in
instance : Decidable (s.Clean command) := inferInstanceAs (Decidable (_ → _))

omit [Arith] in
instance : Decidable (s.Rooted command) := inferInstanceAs (Decidable (∀ call ∈ s.call command, _))

instance : Decidable (s.Spared command) := inferInstanceAs (Decidable (∀ call ∈ s.call command, _))

/-- A step that loses nothing. Rows can be uprooted only once an index has been dropped or moved. -/
structure Careful (s : Session) (command : Command) : Prop where
  promised : s.Promised command
  clean : s.Clean command
  rooted : s.steady = true ∨ s.Rooted command
  spared : s.Spared command

end Session

/-! ## What a step brings -/

namespace Command

/-- The index that a command names, and without which it does nothing. -/
def index? : Command → Option Oid
  | .insert oid _ _ => some oid
  | .scan oid _ => some oid
  | .truncate oid _ => some oid
  | .reindex oid _ _ => some oid
  | .moveIndex oid => some oid
  | .others oid _ _ _ => some oid
  | _ => none

/-- The command brings a row to an index. -/
def Brings (oid : Oid) (row : Row) : Command → Prop
  | .insert other row' _ => other = oid ∧ row' = row
  | .others other _ _ come => other = oid ∧ row ∈ come
  | _ => False

end Command

namespace Session

/-- The catalogs there are, one for each open subtransaction and the one in front. -/
def catalogs (s : Session) : List (Oid → Option Nat) := s.world.catalog :: s.frames.map Frame.catalog

/-- What a step does beside the slot: a row that a file is said to hold is brought by the command, or
was there before, or was in the file the index lived in. -/
structure Changed (s : Session) (command : Command) (s' : Session) : Prop where
  since : ∀ catalog' ∈ s'.catalogs, ∀ oid, ∀ file ∈ catalog' oid, ∀ row ∈ s'.since oid file,
    command.Brings oid row ∨
      (∃ catalog ∈ s.catalogs, file ∈ catalog oid ∧ row ∈ s.since oid file) ∨
      ∃ current ∈ s.world.catalog oid, row ∈ s.since oid current

variable {s s' : Session} {command : Command}

theorem act_gone [Arith] {oid : Oid} (hindex : command.index? = some oid)
    (hgone : s.world.catalog oid = none) : s.act command = .ok s := by
  cases command <;> cases hindex <;> simp only [act, hgone] <;> rfl

/-- No index has a new file. -/
theorem changed_of_catalogs
    (hcatalogs : ∀ catalog' ∈ s'.catalogs, ∀ oid, ∀ file ∈ catalog' oid,
      ∃ catalog ∈ s.catalogs, file ∈ catalog oid)
    (hsince : ∀ oid file, ∀ row ∈ s'.since oid file,
      command.Brings oid row ∨ row ∈ s.since oid file) : s.Changed command s' where
  since catalog' hcatalog' oid file hfile row hrow := by
    rcases hsince oid file row hrow with hbrings | hold
    · exact .inl hbrings
    · obtain ⟨catalog, hcatalog, hfile⟩ := hcatalogs catalog' hcatalog' oid file hfile
      exact .inr (.inl ⟨catalog, hcatalog, hfile, hold⟩)

/-- Nothing but the world and what was brought. -/
theorem changed_of_same (hcatalogs : s'.catalogs = s.catalogs)
    (hsince : ∀ oid file, ∀ row ∈ s'.since oid file,
      command.Brings oid row ∨ row ∈ s.since oid file) : s.Changed command s' :=
  changed_of_catalogs
    (fun catalog hcatalog _ _ hfile => ⟨catalog, hcatalogs ▸ hcatalog, hfile⟩) hsince

/-- More rows in one file. -/
theorem mem_addSince {oid oid' : Oid} {file file' : Nat} {come : Multiset Row} {row : Row}
    (h : row ∈ (s.addSince oid file come).since oid' file') :
    oid = oid' ∧ row ∈ come ∨ row ∈ s.since oid' file' := by
  have h : row ∈ Scope.replaced s.since oid file (s.since oid file + come) oid' file' := h
  by_cases hsame : oid' = oid ∧ file' = file
  · obtain ⟨rfl, rfl⟩ := hsame
    rw [Scope.replaced_self] at h
    rcases Multiset.mem_add.mp h with hold | hnew
    · exact .inr hold
    · exact .inl ⟨rfl, hnew⟩
  · rw [Scope.replaced_ne _ _ fun hoid hfile => hsame ⟨hoid, hfile⟩] at h
    exact .inr h

/-- What a rollback goes back to is an older file. -/
theorem Sound.frame_file_lt (H : s.Sound) {frame : Frame} (hframe : frame ∈ s.frames) {oid : Oid}
    {file : Nat} (hfile : frame.catalog oid = some file) : file < s.nextFile := by
  obtain ⟨k, hk, rfl⟩ := List.mem_iff_getElem.mp hframe
  have hlevel := (Scope.level_of_frame (σ := s.scope) (List.getElem?_eq_getElem hk)).1
  exact H.files (k + 1) hk oid file ((congrFun hlevel oid).trans hfile)

/-- A new file that holds nothing but rows of the old one. -/
theorem Sound.changed_newFile (H : s.Sound) {oid : Oid} {rows : Multiset Row}
    (hcatalog : s'.world.catalog = Function.update s.world.catalog oid (some s.nextFile))
    (hframes : s'.frames = s.frames)
    (hsince : s'.since = Scope.replaced s.since oid s.nextFile rows)
    (hrows : ∀ row ∈ rows, ∃ current ∈ s.world.catalog oid, row ∈ s.since oid current) :
    s.Changed command s' where
  since catalog' hcatalog' oid' file hfile row hrow := by
    rw [hsince] at hrow
    -- an old file has what it had
    have hold : catalog' ∈ s.catalogs → file < s.nextFile →
        ∃ catalog ∈ s.catalogs, file ∈ catalog oid' ∧ row ∈ s.since oid' file := by
      intro hmem hlt
      rw [Scope.replaced_ne _ _ fun _ => Nat.ne_of_lt hlt] at hrow
      exact ⟨catalog', hmem, hfile, hrow⟩
    rcases List.mem_cons.mp hcatalog' with rfl | hmem
    · rw [hcatalog] at hfile
      by_cases hoid : oid' = oid
      · subst hoid
        rw [Function.update_self] at hfile
        rw [← Option.some.inj hfile, Scope.replaced_self] at hrow
        exact .inr (.inr (hrows row hrow))
      · rw [Function.update_of_ne hoid] at hfile
        rw [Scope.replaced_ne _ _ fun h => absurd h hoid] at hrow
        exact .inr (.inl ⟨_, List.mem_cons_self, hfile, hrow⟩)
    · rw [hframes] at hmem
      refine .inr (.inl (hold (List.mem_cons_of_mem _ hmem) ?_))
      obtain ⟨frame, hframe, rfl⟩ := List.mem_map.mp hmem
      exact H.frame_file_lt hframe hfile

theorem changed_refl : s.Changed command s :=
  changed_of_same rfl fun _ _ _ hrow => .inr hrow

theorem changed_savepoint : s.Changed command s.savepoint := by
  refine changed_of_catalogs ?_ fun _ _ _ hrow => .inr hrow
  intro catalog hcatalog oid file hfile
  refine ⟨catalog, ?_, hfile⟩
  rcases List.mem_cons.mp hcatalog with rfl | hcatalog
  · exact List.mem_cons_self
  · exact hcatalog

theorem changed_release : s.Changed command s.release := by
  unfold release
  cases hframes : s.frames with
  | nil => exact changed_refl
  | cons frame rest =>
    refine changed_of_catalogs ?_ fun _ _ _ hrow => .inr hrow
    intro catalog hcatalog oid file hfile
    refine ⟨catalog, ?_, hfile⟩
    unfold catalogs
    rw [hframes]
    rcases List.mem_cons.mp hcatalog with rfl | hcatalog
    · exact List.mem_cons_self
    · exact List.mem_cons_of_mem _ (List.mem_cons_of_mem _ hcatalog)

theorem changed_rollback : s.Changed command s.rollback := by
  unfold rollback
  cases hframes : s.frames with
  | nil => exact changed_refl
  | cons frame rest =>
    refine changed_of_catalogs ?_ fun _ _ _ hrow => .inr hrow
    intro catalog hcatalog oid file hfile
    refine ⟨catalog, ?_, hfile⟩
    unfold catalogs
    rw [hframes]
    exact List.mem_cons_of_mem _ hcatalog

theorem changed_others {oid : Oid} {file : Nat} {image : Image} {gone come : Multiset Row} :
    s.Changed (.others oid image gone come) (s.othersWrite oid file image gone come) := by
  refine changed_of_same ?_ fun oid' file' row hrow => ?_
  · show s.world.catalog :: (s.frames.map _).map Frame.catalog = _
    rw [List.map_map]
    rfl
  · rcases mem_addSince hrow with hnew | hold
    · exact .inl hnew
    · exact .inr hold

/-- A call changes the world, and when it returns what comes after it. -/
theorem after_changed {call : Outcome Raised World} {done : Session → Session}
    (hcatalog : After (fun s' => s'.world.catalog = s.world.catalog) (s.after call done))
    (hframes : ∀ s : Session, (done s).frames = s.frames)
    (hsince : ∀ s : Session, ∀ oid file, ∀ row ∈ (done s).since oid file,
      command.Brings oid row ∨ row ∈ s.since oid file) :
    After (s.Changed command) (s.after call done) := by
  cases call with
  | ok world =>
    refine changed_of_same ?_ (hsince { s with world })
    unfold catalogs
    rw [hframes, show (done { s with world }).world.catalog = s.world.catalog from hcatalog]
  | error fault =>
    cases fault with
    | error raised =>
      refine changed_of_same ?_ fun _ _ _ hrow => .inr hrow
      exact congrArg (· :: s.frames.map Frame.catalog) hcatalog
    | panic => trivial
    | fuel => trivial

theorem changed_dropIndex {oid : Oid} : s.Changed (.dropIndex oid) { s with
    world := { s.world with catalog := Function.update s.world.catalog oid none }
    steady := false } := by
  refine changed_of_catalogs (fun catalog hcatalog oid' file hfile => ?_)
    fun _ _ _ hrow => .inr hrow
  rcases List.mem_cons.mp hcatalog with rfl | hcatalog
  · have hfile : Function.update s.world.catalog oid none oid' = some file := hfile
    refine ⟨s.world.catalog, List.mem_cons_self, ?_⟩
    by_cases hoid : oid' = oid
    · rw [hoid, Function.update_self] at hfile
      cases hfile
    · rwa [Function.update_of_ne hoid] at hfile
  · exact ⟨catalog, List.mem_cons_of_mem _ hcatalog, hfile⟩

theorem Sound.changed_rebuild [Arith] (H : s.Sound) {oid : Oid} {params : HnswParams}
    {rows : List Row} {dues : Dues}
    (hrows : ∀ row ∈ rows, ∃ current ∈ s.world.catalog oid, row ∈ s.since oid current) :
    After (s.Changed command) (s.rebuild oid params rows dues) := by
  unfold Session.rebuild
  rw [s.world_forget oid]
  cases ambuild params rows with
  | ok image => exact H.changed_newFile rfl rfl rfl fun row hrow => hrows row hrow
  | error fault =>
    cases fault with
    | error e => exact changed_of_same rfl fun _ _ _ hrow => .inr hrow
    | panic => trivial
    | fuel => trivial

namespace Sound

variable (H : s.Sound)
include H

theorem othersWrite {oid : Oid} {image : Image} {gone come : Multiset Row}
    (hpromised : s.Promised (.others oid image gone come)) {file : Nat}
    (hfile : s.world.catalog oid = some file) :
    (s.othersWrite oid file image gone come).Sound := by
  obtain ⟨hlocked, hvalid, hrows, hgone, hown, hbase⟩ := hpromised file hfile
  exact H.others hfile hlocked hvalid hrows hgone (hown _ List.mem_cons_self)
    (fun frame hframe => hown _ (List.mem_cons_of_mem _ (List.mem_map_of_mem hframe))) hbase

variable [Arith]

/-- The rows `REINDEX` finds are owed from then on, and no other. -/
theorem reindex (hfailed : s.failed = false) {oid : Oid} {params : HnswParams} {rows : List Row}
    (hpromised : s.Promised (.reindex oid params rows)) :
    After Session.Sound
      (s.rebuild oid params rows { s.dues oid with rest := ↑rows - ↑(s.dues oid).own }) := by
  obtain ⟨hnodup, hown, -⟩ := hpromised
  refine H.rebuild hfailed oid params ?_ fun row _ => ?_
  · exact (add_tsub_cancel_of_le hown).le
  · exact Multiset.nodup_iff_count_le_one.mp (Multiset.coe_nodup.mpr hnodup) row

/-- What leaves the slot belongs to the file every level it reaches is restored with. -/
theorem homed_of_careful (C : s.Careful command) :
    ∀ call ∈ s.call command, ∀ w ∈ s.world.pending, s.Leaves call.1 w → s.Homed w := by
  intro call hcall w hw hleaves
  rcases C.rooted with hsteady | hrooted
  · exact H.homed_of_steady (failed_of_call hcall) hsteady hw
  · exact H.homed_of hw (hrooted call hcall w hw hleaves)

/-- **What a step does**: it keeps the invariant, and brings to the files what it says it brings. -/
theorem step (C : s.Careful command) :
    After (fun s' => s'.Sound ∧ s.Changed command s') (s.step command) := by
  have hhomed := H.homed_of_careful C
  obtain ⟨hpromised, hclean, -, hspared⟩ := C
  cases hfailed : s.failed with
  | true =>
    unfold Session.step
    rw [hfailed]
    cases command with
    | rollback => exact ⟨H.rollback, changed_rollback⟩
    | others oid image gone come =>
      show After _ (s.act (.others oid image gone come))
      by_cases hgone : s.world.catalog oid = none
      · rw [act_gone rfl hgone]
        exact ⟨H, changed_refl⟩
      · obtain ⟨file, hfile⟩ := Option.ne_none_iff_exists'.mp hgone
        simp only [Session.act, hfile]
        exact ⟨H.othersWrite hpromised hfile, changed_others⟩
    | _ => exact ⟨H, changed_refl⟩
  | false =>
    have hact : s.step command = s.act command := by
      unfold Session.step
      rw [hfailed]
    rw [hact]
    by_cases hgone : ∃ oid, command.index? = some oid ∧ s.world.catalog oid = none
    · obtain ⟨oid, hindex, hgone⟩ := hgone
      rw [act_gone hindex hgone]
      exact ⟨H, changed_refl⟩
    have hthere : ∀ {oid}, command.index? = some oid → ∃ file, s.world.catalog oid = some file :=
      fun {oid} hindex => Option.ne_none_iff_exists'.mp fun hnone => hgone ⟨oid, hindex, hnone⟩
    cases command with
    | insert oid row pages =>
      obtain ⟨file, hfile⟩ := hthere rfl
      have hcall := call_insert hfailed hfile row pages
      have hspared := hspared _ hcall
      have hinsert := H.insert hfailed (hclean (by rw [hcall]; rfl)) hfile (hpromised file hfile)
        pages (hhomed _ hcall) hspared
      simp only [Session.act, hfile] at hinsert ⊢
      refine (hinsert.mono fun _ h => h.1).and (after_changed (hinsert.mono fun _ h => h.2)
        (fun _ => rfl) fun s' oid' file' row' hrow' => ?_)
      rcases mem_addSince hrow' with ⟨hoid, hnew⟩ | hold
      · exact .inl ⟨hoid, (Multiset.mem_singleton.mp hnew).symm⟩
      · exact .inr hold
    | scan oid pages =>
      obtain ⟨file, hfile⟩ := hthere rfl
      have hcall := call_scan hfailed hfile pages
      have hspared := hspared _ hcall
      have hscan := H.scan hfailed (hclean (by rw [hcall]; rfl)) hfile pages (hhomed _ hcall) hspared
      simp only [Session.act, hfile] at hscan ⊢
      exact (hscan.mono fun _ h => h.1).and (after_changed (hscan.mono fun _ h => h.2)
        (fun _ => rfl) fun _ _ _ _ hrow => .inr hrow)
    | parallelPlan pages =>
      have hcall := call_parallelPlan hfailed pages
      have hspared := hspared _ hcall
      have hplan := H.parallelPlan hfailed (hclean (by rw [hcall]; rfl)) pages (hhomed _ hcall)
        hspared
      exact (hplan.mono fun _ h => h.1).and (after_changed (hplan.mono fun _ h => h.2)
        (fun _ => rfl) fun _ _ _ _ hrow => .inr hrow)
    | savepoint => exact ⟨H.savepoint hfailed, changed_savepoint⟩
    | release => exact ⟨H.release hfailed, changed_release⟩
    | rollback => exact ⟨H.rollback, changed_rollback⟩
    | truncate oid params =>
      obtain ⟨file, hfile⟩ := hthere rfl
      simp only [Session.act, hfile]
      have hrebuild : After Session.Sound (s.rebuild oid params [] ⟨[], 0⟩) :=
        H.rebuild hfailed oid params le_rfl fun row hrow => absurd hrow List.not_mem_nil
      exact hrebuild.and (H.changed_rebuild fun row hrow => absurd hrow List.not_mem_nil)
    | reindex oid params rows =>
      obtain ⟨file, hfile⟩ := hthere rfl
      simp only [Session.act, hfile]
      exact (H.reindex hfailed hpromised).and
        (H.changed_rebuild fun row hrow => ⟨file, hfile, hpromised.2.2 file hfile row hrow⟩)
    | dropIndex oid => exact ⟨H.dropIndex hfailed oid, changed_dropIndex⟩
    | moveIndex oid =>
      obtain ⟨file, hfile⟩ := hthere rfl
      simp only [Session.act, hfile]
      exact ⟨H.moveIndex hfailed hfile,
        H.changed_newFile rfl rfl rfl fun row hrow => ⟨file, hfile, hrow⟩⟩
    | others oid image gone come =>
      obtain ⟨file, hfile⟩ := hthere rfl
      simp only [Session.act, hfile]
      exact ⟨H.othersWrite hpromised hfile, changed_others⟩

/-! ## From the beginning -/

omit H [Arith] in
theorem start {catalog : Oid → Option Nat} {disk : Oid → Nat → Image} (columns : Oid → Nat)
    {nextFile : Nat} (hvalid : ∀ oid file, (disk oid file).Valid)
    (hfiles : ∀ oid file, catalog oid = some file → file < nextFile) :
    (Session.start catalog disk columns nextFile).Sound where
  valid := hvalid
  kept := ⟨nofun, nofun⟩
  keys := List.nodup_nil
  keys_lt := nofun
  top_lt := Nat.lt_succ_self _
  subids := List.Pairwise.nil
  subids_lt := nofun
  files k hk oid file hfile := by
    rw [Nat.le_zero.mp hk] at hfile
    exact hfiles oid file hfile
  accounts k hk _ := by
    have hdue : ∀ oid file, catalog oid = some file →
        ((Session.start catalog disk columns nextFile).dues oid).due = (disk oid file).contents := by
      intro oid file hfile
      show (0 : Multiset Row) + (catalog oid).elim 0 _ = _
      rw [hfile, zero_add]
      rfl
    rw [Nat.le_zero.mp hk]
    refine ⟨fun oid file hfile => ?_, fun oid file hfile => ?_, nofun, nofun⟩
    · exact (hdue oid file hfile).le.trans (Multiset.le_add_right _ _)
    · exact (add_zero _).le
  anchored i k hik _ := by
    have hzero : i = 0 ∧ k = 0 := Nat.add_eq_zero_iff.mp (Nat.le_zero.mp hik)
    rw [hzero.1, hzero.2]
    exact Scope.anchored_zero _ _ _

end Sound

end Session

end Brindle
