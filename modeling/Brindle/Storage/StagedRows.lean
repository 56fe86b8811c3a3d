/-
# Brindle.Storage.StagedRows — no row that is staged gets lost, and none comes twice.

A transaction stages rows for one index at a time, sets them aside for a rebuild, rewinds them for a
rollback and writes them back when somebody is going to read. Whatever the order, a row that is still in
the heap is staged or stored, and once. Three things go wrong, and each has its condition: an insert that
is refused leaves a copy of the index in the slot, which outlives the file it was loaded from; a
write-back that raises has emptied the slot before; and a write-back into a file that a rollback takes
away takes the rows with it.
-/
import Brindle.Storage.Transaction

namespace Brindle

open Outcome (Ensures)
open Run (After Along Throughout after_run along_and along_of_throughout along_split run throughout_of_invariant)

namespace Session

variable [Arith] {s : Session} {command : Command}

/-! ## What is owed is there -/

omit [Arith] in
/-- Every row an index owes is stored, or staged and not rolled back, and once. -/
def Holds (s : Session) : Prop :=
  ∀ oid, ∀ file ∈ s.world.catalog oid, ∀ row ∈ (s.dues oid).own,
    ((s.world.disk oid file).contents + survivingFor oid s.world.pending).count row = 1

omit [Arith] in
/-- What a commit leaves behind: nothing staged, and every row that is owed stored once. -/
structure Committed (s : Session) (world : World) : Prop where
  pending : world.pending = none
  discarded : world.discarded = []
  once : ∀ oid, ∀ file ∈ world.catalog oid, ∀ row ∈ (s.dues oid).own,
    (world.disk oid file).contents.count row = 1
  brought : ∀ oid, ∀ file ∈ world.catalog oid, (world.disk oid file).contents ≤ s.since oid file

/-- A commit of the transaction, should it come now, leaves what it should. -/
def Commits (s : Session) : Prop :=
  s.failed = false → s.frames = [] → ¬ s.Stray →
    ∀ pages, After s.Committed (s.world.preCommit pages)

omit [Arith] in
theorem Sound.holds (H : s.Sound) (hfailed : s.failed = false) : s.Holds := fun _ _ hfile _ hrow =>
  (H.accounts 0 (Nat.zero_le _) fun _ => hfailed).count_eq_one hfile hrow

theorem Sound.commits (H : s.Sound) : s.Commits := by
  intro hfailed hframes hstray pages
  refine (H.preCommit hfailed hframes hstray pages).mono fun world h => ?_
  obtain ⟨hpending, hdiscarded, -, himage⟩ := h
  exact ⟨hpending, hdiscarded, fun oid file hfile => (himage oid file hfile).1,
    fun oid file hfile => (himage oid file hfile).2⟩

theorem Sound.stays {commands : List Command} (H : s.Sound)
    (h : Along Session.step Careful s commands) : After Session.Sound (run Session.step s commands) :=
  after_run (fun _ _ H C => (H.step C).mono fun _ h => h.1) H h

/-- **No staged row gets lost.** In every state of a careful run each row an index owes is stored or
staged, once, whatever has been rebuilt, dropped, rolled back or refused on the way; and a commit
stores it. -/
theorem staged_rows_kept {catalog : Oid → Option Nat} {disk : Oid → Nat → Image}
    (hvalid : ∀ oid file, (disk oid file).Valid) (columns : Oid → Nat) {nextFile : Nat}
    (hfiles : ∀ oid file, catalog oid = some file → file < nextFile) {commands : List Command}
    (h : Along step Careful (start catalog disk columns nextFile) commands) :
    Throughout step (fun s => (s.failed = false → s.Holds) ∧ s.Commits)
      (start catalog disk columns nextFile) commands :=
  throughout_of_invariant (I := Session.Sound) (fun _ _ H C => (H.step C).mono fun _ h => h.1)
    (fun _ H => ⟨H.holds, H.commits⟩) (Sound.start columns hvalid hfiles) h

section Sample

omit [Arith]

/-- The command is this transaction's, and the heap keeps its promise. -/
def Alone (s : Session) (command : Command) : Prop :=
  match command with
  | .others _ _ _ _ => False
  | command => s.Promised command

instance (s : Session) : ∀ command, Decidable (s.Alone command)
  | .insert oid row _ =>
    inferInstanceAs (Decidable (∀ file ∈ s.world.catalog oid, row ∉ s.since oid file))
  | .reindex oid _ rows =>
    inferInstanceAs (Decidable (rows.Nodup ∧ (↑(s.dues oid).own : Multiset Row) ≤ ↑rows ∧
      ∀ file ∈ s.world.catalog oid, ∀ row ∈ rows, row ∈ s.since oid file))
  | .others _ _ _ _ => inferInstanceAs (Decidable False)
  | .scan _ _ => inferInstanceAs (Decidable True)
  | .parallelPlan _ => inferInstanceAs (Decidable True)
  | .savepoint => inferInstanceAs (Decidable True)
  | .release => inferInstanceAs (Decidable True)
  | .rollback => inferInstanceAs (Decidable True)
  | .truncate _ _ => inferInstanceAs (Decidable True)
  | .dropIndex _ => inferInstanceAs (Decidable True)
  | .moveIndex _ => inferInstanceAs (Decidable True)

theorem Alone.promised {s : Session} {command : Command} (h : s.Alone command) :
    s.Promised command := by
  cases command with
  | others oid image gone come => exact h.elim
  | _ => exact h

/-- One empty index. -/
def sampleStart : Session :=
  start (fun oid => if oid = 0 then some 0 else none) (fun _ _ => @Image.new Arith.ieee .default)
    (fun _ => 0) 1

theorem sampleStart_files (oid : Oid) (file : Nat)
    (hfile : (if oid = 0 then some 0 else none) = some file) : file < 1 := by
  split_ifs at hfile
  rw [← Option.some.inj hfile]
  exact Nat.zero_lt_one

def sampleRow (vector : Option (List F32)) (offset : UInt16) : Row := ⟨vector, [], (0, offset)⟩

/-- A rebuild and a move are undone around what is staged. -/
def sampleCommands : List Command :=
  [.insert 0 (sampleRow none 1) .good, .savepoint, .truncate 0 .default,
    .insert 0 (sampleRow (some [F32.one]) 2) .good, .rollback,
    .insert 0 (sampleRow (some [F32.zero]) 3) .good, .savepoint, .moveIndex 0, .rollback,
    .scan 0 .good, .insert 0 (sampleRow none 4) .good]

/-- Which commands are careful can be computed. -/
theorem along_careful [Arith] {s : Session} {commands : List Command}
    (h : Along step (fun s command => s.Alone command ∧ s.Clean command ∧
      (s.steady = true ∨ s.Rooted command) ∧ s.Spared command) s commands) :
    Along step Careful s commands :=
  h.mono fun _ _ h => ⟨h.1.promised, h.2.1, h.2.2.1, h.2.2.2⟩

theorem staged_rows_kept_sample :
    Throughout (@step Arith.ieee) (fun s => (s.failed = false → s.Holds) ∧ @Commits Arith.ieee s)
      sampleStart sampleCommands :=
  @staged_rows_kept Arith.ieee _ _ (fun _ _ => @Image.valid_new Arith.ieee .default) _ 1
    sampleStart_files _
    (@along_careful Arith.ieee _ _ (by decide +kernel))

example : Ensures (run (@step Arith.ieee) sampleStart sampleCommands) fun s =>
    Ensures (@World.preCommit Arith.ieee .good s.world) fun world =>
      (world.disk 0 0).contents =
        ↑[sampleRow none 1, sampleRow (some [F32.zero]) 3, sampleRow none 4] := by
  decide +kernel

/-- After `commands`, a commit does not store the first row of index 0. -/
def Loses (commands : List Command) : Prop :=
  Ensures (run (@step Arith.ieee) sampleStart commands) fun s =>
    s.failed = false ∧ s.frames = [] ∧ sampleRow none 1 ∈ (s.dues 0).own ∧
      Ensures (@World.preCommit Arith.ieee .good s.world) fun world =>
        ∀ file ∈ world.catalog 0, sampleRow none 1 ∉ (world.disk 0 file).contents

instance (commands : List Command) : Decidable (Loses commands) :=
  inferInstanceAs (Decidable (Ensures _ _))

-- a refused insert leaves a copy of the new file, which is written over the old one
example : Loses [.insert 0 (sampleRow none 1) .good, .scan 0 .good, .savepoint,
    .truncate 0 .default, .insert 0 (sampleRow (some [F32.one]) 2) .good, .scan 0 .good,
    .insert 0 (sampleRow (some [F32.one, F32.one]) 3) .good, .rollback] := by
  decide +kernel

-- a write-back that raises has emptied the slot
example : Loses [.insert 0 (sampleRow none 1) .good, .savepoint, .scan 0 { flush := false },
    .rollback] := by
  decide +kernel

-- the index is gone for as long as the write-back looks
example : Loses [.insert 0 (sampleRow none 1) .good, .savepoint, .dropIndex 0, .parallelPlan .good,
    .rollback] := by
  decide +kernel

end Sample

/-! ## A TRUNCATE that stands -/

/-- The index never goes back to a file older than `first`. -/
def Stands (oid : Oid) (first : Nat) (s : Session) (commands : List Command) : Prop :=
  Throughout step (fun s' => ∀ file ∈ s'.world.catalog oid, first ≤ file) s commands

omit [Arith] in
/-- The files from `first` on hold what the commands have brought. -/
def BroughtBy (s : Session) (oid : Oid) (first : Nat) (commands : List Command) : Prop :=
  ∀ catalog ∈ s.catalogs, ∀ file ∈ catalog oid, first ≤ file → ∀ row ∈ s.since oid file,
    ∃ command ∈ commands, command.Brings oid row

omit [Arith] in
theorem BroughtBy.changed {s' : Session} {oid : Oid} {first : Nat} {commands : List Command}
    (B : s.BroughtBy oid first commands) (C : s.Changed command s') (hmem : command ∈ commands)
    (hfirst : ∀ file ∈ s.world.catalog oid, first ≤ file) : s'.BroughtBy oid first commands := by
  intro catalog hcatalog file hfile hle row hrow
  rcases C.since catalog hcatalog oid file hfile row hrow with
    hbrings | ⟨catalog, hcatalog, hfile, hrow⟩ | ⟨current, hcurrent, hrow⟩
  · exact ⟨command, hmem, hbrings⟩
  · exact B catalog hcatalog file hfile hle row hrow
  · exact B _ List.mem_cons_self current hcurrent (hfirst current hcurrent) row hrow

/-- A `TRUNCATE` leaves a file to which nothing has been brought. -/
theorem broughtBy_truncate (H : s.Sound) (hfailed : s.failed = false) {oid : Oid}
    (params : HnswParams) (hthere : s.world.catalog oid ≠ none) (commands : List Command) :
    After (fun s' => s'.BroughtBy oid s.nextFile commands) (s.step (.truncate oid params)) := by
  obtain ⟨file, hfile⟩ := Option.ne_none_iff_exists'.mp hthere
  unfold Session.step
  rw [hfailed]
  simp only [act, hfile]
  unfold rebuild
  rw [s.world_forget oid, show ambuild params [] = .ok (Image.new params) from rfl]
  intro catalog hcatalog file' hfile' hle row hrow
  rcases List.mem_cons.mp hcatalog with rfl | hcatalog
  · have hself : Function.update s.world.catalog oid (some s.nextFile) oid = some file' := hfile'
    rw [Function.update_self] at hself
    have hnone : row ∈ Scope.replaced s.since oid s.nextFile 0 oid file' := hrow
    rw [← Option.some.inj hself, Scope.replaced_self] at hnone
    exact absurd hnone (Multiset.notMem_zero row)
  · obtain ⟨frame, hframe, rfl⟩ := List.mem_map.mp hcatalog
    exact absurd (H.frame_file_lt hframe hfile') (Nat.not_lt.mpr hle)

/-- As long as the `TRUNCATE` stands, the index holds nothing but what has been brought since. -/
theorem BroughtBy.stays {oid : Oid} {first : Nat} {commands : List Command}
    (B : s.BroughtBy oid first commands) (H : s.Sound)
    (h : Along Session.step Careful s commands) (hstands : Stands oid first s commands) :
    After (fun s' => s'.Sound ∧ s'.BroughtBy oid first commands ∧
        ∀ file ∈ s'.world.catalog oid, first ≤ file) (run Session.step s commands) := by
  obtain ⟨hcareful, hlast⟩ := along_of_throughout h hstands
  have hmem := along_and (Q := (· ∈ commands)) hcareful fun _ hcommand => hcommand
  have hrun : After (fun s' => s'.Sound ∧ s'.BroughtBy oid first commands)
      (run Session.step s commands) := by
    refine after_run ?_ ⟨H, B⟩ hmem
    rintro s command ⟨H, B⟩ ⟨⟨C, hfirst⟩, hcommand⟩
    exact (H.step C).mono fun s' h => ⟨h.1, B.changed h.2 hcommand hfirst⟩
  exact (hrun.and hlast).mono fun _ h => ⟨h.1.1, h.1.2, h.2⟩

/-- Unless the `TRUNCATE` after `before` is undone in `rest`, a commit stores for its index nothing but
rows that a command of `rest` brought. -/
def Removes (s : Session) (before : List Command) (oid : Oid) (params : HnswParams)
    (rest : List Command) : Prop :=
  After (fun s₁ => s₁.failed = false → s₁.world.catalog oid ≠ none →
    After (fun s₂ => Stands oid s₁.nextFile s₂ rest →
      After (fun s => s.failed = false → s.frames = [] → ¬ s.Stray → ∀ pages,
        After (fun world => ∀ file ∈ world.catalog oid,
            ∀ row ∈ (world.disk oid file).contents, ∃ command ∈ rest, command.Brings oid row)
          (s.world.preCommit pages))
        (run step s₂ rest))
      (s₁.step (.truncate oid params)))
    (run step s before)

/-- **What a `TRUNCATE` removed stays removed.** After a `TRUNCATE` that is never undone, a commit
leaves in the index only rows that a later command brought. -/
theorem truncated_rows_gone {catalog : Oid → Option Nat} {disk : Oid → Nat → Image}
    (hvalid : ∀ oid file, (disk oid file).Valid) (columns : Oid → Nat) {nextFile : Nat}
    (hfiles : ∀ oid file, catalog oid = some file → file < nextFile)
    {before rest : List Command} {oid : Oid} {params : HnswParams}
    (h : Along step Careful (start catalog disk columns nextFile)
      (before ++ .truncate oid params :: rest)) :
    Removes (start catalog disk columns nextFile) before oid params rest := by
  obtain ⟨hbefore, hafter⟩ := along_split h
  refine ((Sound.start columns hvalid hfiles).stays hbefore |>.and hafter).mono ?_
  rintro s₁ ⟨H₁, htruncate, hrest⟩ hfailed hthere
  have hcommand := (H₁.step htruncate).and (broughtBy_truncate H₁ hfailed params hthere rest)
  refine (hcommand.and hrest).mono ?_
  rintro s₂ ⟨⟨⟨H₂, -⟩, B⟩, hrest⟩ hstands
  refine (B.stays H₂ hrest hstands).mono ?_
  rintro s ⟨H, B, hfirst⟩ hfailed hframes hstray pages
  refine (H.preCommit hfailed hframes hstray pages).mono ?_
  rintro world ⟨-, -, hcatalog, himage⟩ file hfile row hrow
  have hsince := Multiset.mem_of_le (himage oid file hfile).2 hrow
  rw [hcatalog] at hfile
  exact B _ List.mem_cons_self file hfile (hfirst file hfile) row hsince

omit [Arith] in
theorem truncated_rows_gone_sample :
    @Removes Arith.ieee sampleStart [.insert 0 (sampleRow none 1) .good, .savepoint] 0 .default
      [.release, .insert 0 (sampleRow (some [F32.one]) 2) .good] :=
  @truncated_rows_gone Arith.ieee _ _ (fun _ _ => @Image.valid_new Arith.ieee .default) _ 1
    sampleStart_files _ _ _ _ (@along_careful Arith.ieee _ _ (by decide +kernel))

end Session

end Brindle
