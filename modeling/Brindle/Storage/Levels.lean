/-
# Brindle.Storage.Levels — what each open subtransaction would give back.

Rolling back is the only way to a state of the past, so an invariant that is to survive every rollback
is one about all the states the rollbacks still lead to. `Scope` is the part of a session that a
rollback restores or changes, and `level k` the scope after `k` of them. What is staged at a deeper
level reaches `level k` either overridden by a write that was set aside in between (`override k`), or
undone `k` times.
-/
import Mathlib.Algebra.Order.Group.Multiset
import Brindle.Storage.Staging

namespace Brindle

open Rewind (Sized)
open Run (After)

namespace PendingWrite

/-- The write after its subtransaction aborted. -/
def undo (w : PendingWrite) : PendingWrite := w.applyMarkEvent .abortSub

/-- Rows of the write, by the heap row they stand for. -/
def surviving (w : PendingWrite) : Multiset Row :=
  heapRows w.survivingRows w.survivingUnrankable

end PendingWrite

/-! ## Heap rows -/

theorem heapRows_append (rows rows' : List GraphRow) (unr unr' : List UnrankableRow) :
    heapRows (rows ++ rows') (unr ++ unr') = heapRows rows unr + heapRows rows' unr' := by
  have hsum : ∀ rows unr, heapRows rows unr =
      (↑((rows.filter fun row => !row.1.dead).map Row.ofGraph) : Multiset Row) +
        ↑(unr.map Row.ofUnrankable) := fun _ _ => (Multiset.coe_add _ _).symm
  rw [hsum, hsum, hsum, List.filter_append, List.map_append, List.map_append, ← Multiset.coe_add,
    ← Multiset.coe_add]
  exact add_add_add_comm _ _ _ _

theorem heapRows_take_le (rows : List GraphRow) (unr : List UnrankableRow) {a b : Nat × Nat}
    (hab : a ≤ b) :
    heapRows (rows.take a.1) (unr.take a.2) ≤ heapRows (rows.take b.1) (unr.take b.2) := by
  obtain ⟨h1, h2⟩ := Prod.le_def.mp hab
  have hsplit := heapRows_append ((rows.take b.1).take a.1) ((rows.take b.1).drop a.1)
    ((unr.take b.2).take a.2) ((unr.take b.2).drop a.2)
  rw [List.take_append_drop, List.take_append_drop, List.take_take, List.take_take,
    min_eq_left h1, min_eq_left h2] at hsplit
  rw [hsplit]
  exact Multiset.le_add_right _ _

/-- One heap row becomes one entry. -/
theorem heapRows_row (row : Row) : heapRows row.graph?.toList row.vectorless?.toList = {row} := by
  obtain ⟨vector, attrs, tid⟩ := row
  cases vector <;> rfl

/-- The rows of each kind, put back together. -/
theorem heapRows_kinds (rows : List Row) :
    heapRows (rows.filterMap Row.graph?) (rows.filterMap Row.vectorless?) = ↑rows := by
  induction rows with
  | nil => rfl
  | cons row rows ih =>
    have hcons : ∀ {β : Type} (f : Row → Option β),
        (row :: rows).filterMap f = (f row).toList ++ rows.filterMap f := by
      intro β f
      cases hf : f row <;> simp [hf]
    rw [hcons, hcons, heapRows_append, heapRows_row, ih]
    rfl

/-- **A build indexes every row once.** -/
theorem ambuild_contents [Arith] (params : HnswParams) (rows : List Row) :
    After (fun image => image.Valid ∧ image.contents = ↑rows) (ambuild params rows) := by
  refine ((Image.valid_new params).addAll rows).mono fun image E => ⟨E.valid, ?_⟩
  unfold Image.contents
  rw [E.rows_eq, E.unrankable_eq, show (Image.new params).graphRows = [] from List.zip_nil_right,
    List.nil_append, show (Image.new params).unrankable = [] from rfl, List.nil_append,
    heapRows_kinds]

namespace PendingWrite

/-! ## Undoing a write -/

theorem sized_withSized {w : PendingWrite} {m : Sized (Nat × Nat)} (hcount : m.count = w.staged) :
    (w.withSized m).sized = m := by
  show Sized.mk w.staged m.cut m.marks = m
  rw [← hcount]

/-- Undoing changes the bookkeeping only. -/
theorem iterate_undo (w : PendingWrite) (k : Nat) :
    undo^[k] w = w.withSized (Sized.rolledBack^[k] w.sized) := by
  induction k with
  | zero => rfl
  | succ k ih =>
    rw [Function.iterate_succ_apply', ih, Function.iterate_succ_apply']
    show (w.withSized _).applyMarkEvent .abortSub = _
    rw [abortSub_eq, sized_withSized (Sized.count_iterate_rolledBack _ _)]
    rfl

theorem sized_undo (w : PendingWrite) (k : Nat) :
    (undo^[k] w).sized = Sized.rolledBack^[k] w.sized := by
  rw [iterate_undo]
  exact sized_withSized (Sized.count_iterate_rolledBack _ _)

theorem indexOid_undo (w : PendingWrite) (k : Nat) : (undo^[k] w).indexOid = w.indexOid := by
  rw [iterate_undo]
  rfl

theorem baseGeneration_undo (w : PendingWrite) (k : Nat) :
    (undo^[k] w).baseGeneration = w.baseGeneration := by
  rw [iterate_undo]
  rfl

/-- The size that counts after `k` rollbacks. -/
def levelAfter (w : PendingWrite) (k : Nat) : Nat × Nat := (Sized.rolledBack^[k] w.sized).level

theorem surviving_undo (w : PendingWrite) (k : Nat) : (undo^[k] w).surviving =
    heapRows (w.stagedRows.take (w.levelAfter k).1)
      (w.stagedUnrankable.take (w.levelAfter k).2) := by
  unfold surviving survivingRows survivingUnrankable levelAfter
  rw [sized_undo, iterate_undo]
  rfl

namespace Kept

variable {w : PendingWrite} (K : w.Kept)
include K

theorem iterate (k : Nat) : (undo^[k] w).Kept := by
  rw [iterate_undo]
  exact K.withSized (K.ordered.iterate_rolledBack k) (Sized.count_iterate_rolledBack _ _)

theorem levelAfter_le (k : Nat) : w.levelAfter k ≤ w.sized.level :=
  Sized.level_iterate_le K.ordered k

theorem levelAfter_succ (k : Nat) : w.levelAfter (k + 1) = (w.marks.drop k).headD (0, 0) :=
  Sized.level_iterate_rolledBack K.ordered k

/-- Rolling back only takes rows away. -/
theorem surviving_undo_le (k : Nat) : (undo^[k] w).surviving ≤ w.surviving := by
  rw [surviving_undo]
  exact heapRows_take_le _ _ (K.levelAfter_le k)

/-- Nothing survives exactly when the level is zero. -/
theorem surviving_eq_zero : w.surviving = 0 ↔ w.sized.level = (0, 0) := by
  have halive : w.survivingRows.filter (fun row => !row.1.dead) = w.survivingRows := by
    apply List.filter_eq_self.mpr
    intro row hrow
    simp [K.alive row (List.mem_of_mem_take hrow)]
  have hcard : Multiset.card w.surviving = w.sized.level.1 + w.sized.level.2 := by
    unfold surviving heapRows
    rw [halive, Multiset.coe_card, List.length_append, List.length_map, List.length_map,
      K.length_survivingRows, K.length_survivingUnrankable]
  rw [← Multiset.card_eq_zero, hcard]
  constructor
  · intro hzero
    exact Prod.ext (by omega) (by omega)
  · intro hlevel
    rw [hlevel]
    rfl

end Kept

/-- A write that may take the place of `w` in the slot: after any rollback the same rows survive. -/
theorem surviving_undo_congr {w w' : PendingWrite} (K : w.Kept) (K' : w'.Kept)
    (hmarks : w'.marks = w.marks)
    (htake : ∀ size ≤ w.sized.level, w'.stagedRows.take size.1 = w.stagedRows.take size.1 ∧
      w'.stagedUnrankable.take size.2 = w.stagedUnrankable.take size.2) (k : Nat) :
    (undo^[k + 1] w').surviving = (undo^[k + 1] w).surviving := by
  have hlevel : w'.levelAfter (k + 1) = w.levelAfter (k + 1) := by
    rw [K.levelAfter_succ, K'.levelAfter_succ, hmarks]
  obtain ⟨hrows, hunr⟩ := htake _ (K.levelAfter_le (k + 1))
  rw [surviving_undo, surviving_undo, hlevel, hrows, hunr]

end PendingWrite

/-- The rows staged for an index that an outstanding rewind keeps. -/
def survivingFor (oid : Oid) (pending : Option PendingWrite) : Multiset Row :=
  match pending with
  | none => 0
  | some w => if w.indexOid = oid then w.surviving else 0

/-- The part of a session a rollback restores or changes. -/
structure Scope where
  pending : Option PendingWrite
  discarded : List (SubTransactionId × PendingWrite)
  catalog : Oid → Option Nat
  dues : Oid → Dues
  frames : List Frame

def Session.scope (s : Session) : Scope :=
  ⟨s.world.pending, s.world.discarded, s.world.catalog, s.dues, s.frames⟩

namespace Scope

/-- How many subtransactions are open. -/
def depth (σ : Scope) : Nat := σ.frames.length

/-- The write set aside in subtransaction `subid`. -/
def asideOf (σ : Scope) (subid : SubTransactionId) : Option PendingWrite :=
  (σ.discarded.find? fun entry => entry.1 = subid).map Prod.snd

def rollback (σ : Scope) : Scope :=
  match σ.frames with
  | [] => σ
  | frame :: rest =>
    { pending := (σ.asideOf frame.subid <|> σ.pending).map PendingWrite.undo
      discarded := (σ.discarded.filter fun entry => entry.1 ≠ frame.subid).map
        fun entry => (entry.1, entry.2.undo)
      catalog := frame.catalog
      dues := frame.dues
      frames := rest }

/-- The scope after `k` rollbacks. -/
def level (σ : Scope) (k : Nat) : Scope := rollback^[k] σ

def setPending (σ : Scope) (pending : Option PendingWrite) : Scope := { σ with pending }

/-- The write that a set-aside one puts in the slot on the way to `level k`, whatever is staged. -/
def override (σ : Scope) (k : Nat) : Option PendingWrite := ((σ.setPending none).level k).pending

end Scope

theorem Session.scope_rollback (s : Session) : s.rollback.scope = s.scope.rollback := by
  unfold Session.rollback Scope.rollback Session.scope
  cases hframes : s.frames with
  | nil => simp only [hframes]
  | cons frame rest => rfl

namespace Scope

theorem level_succ (σ : Scope) (k : Nat) : σ.level (k + 1) = σ.rollback.level k := rfl

theorem level_add (σ : Scope) (i k : Nat) : (σ.level i).level k = σ.level (i + k) := by
  unfold level
  rw [Nat.add_comm, Function.iterate_add_apply]

theorem depth_rollback (σ : Scope) : σ.rollback.depth = σ.depth - 1 := by
  unfold rollback depth
  cases hframes : σ.frames with
  | nil => simp [hframes]
  | cons frame rest => rfl

theorem depth_level (σ : Scope) (k : Nat) : (σ.level k).depth = σ.depth - k := by
  induction k generalizing σ with
  | zero => rfl
  | succ k ih =>
    rw [level_succ, ih, depth_rollback]
    omega

theorem override_zero (σ : Scope) : σ.override 0 = none := rfl

/-- What is staged reaches a level overridden, or undone once for every rollback. -/
theorem level_setPending {k : Nat} {σ : Scope} (hk : k ≤ σ.depth) (p : Option PendingWrite) :
    (σ.setPending p).level k =
      (σ.level k).setPending (σ.override k <|> p.map PendingWrite.undo^[k]) := by
  induction k generalizing σ p with
  | zero =>
    show σ.setPending p = σ.setPending (none <|> p.map id)
    rw [Option.map_id]
    rfl
  | succ k ih =>
    obtain ⟨pending, discarded, catalog, dues, frames⟩ := σ
    cases frames with
    | nil => simp [depth] at hk
    | cons frame rest =>
      -- one rollback of the same scope, whatever is in its slot
      have hroll : ∀ q, (Scope.mk q discarded catalog dues (frame :: rest)).rollback =
          (Scope.mk pending discarded catalog dues (frame :: rest)).rollback.setPending
            ((asideOf ⟨pending, discarded, catalog, dues, frame :: rest⟩ frame.subid <|> q).map
              PendingWrite.undo) := fun q => rfl
      have hdepth : k ≤ (Scope.mk pending discarded catalog dues (frame :: rest)).rollback.depth := by
        rw [depth_rollback]
        omega
      have hlevel : ∀ q, (Scope.mk q discarded catalog dues (frame :: rest)).level (k + 1) = _ :=
        fun q => (congrArg (level · k) (hroll q)).trans (ih hdepth _)
      have hover : override ⟨pending, discarded, catalog, dues, frame :: rest⟩ (k + 1) =
          _ := congrArg Scope.pending (hlevel none)
      show level ⟨p, discarded, catalog, dues, frame :: rest⟩ (k + 1) = _
      rw [hlevel p, hover]
      show setPending _ _ = setPending _ _
      congr 1
      cases override (rollback ⟨pending, discarded, catalog, dues, frame :: rest⟩) k with
      | some e => rfl
      | none =>
        cases asideOf ⟨pending, discarded, catalog, dues, frame :: rest⟩ frame.subid with
        | some e => rfl
        | none => cases p <;> rfl

/-- The slot of a level. -/
theorem pending_level {k : Nat} {σ : Scope} (hk : k ≤ σ.depth) :
    (σ.level k).pending = (σ.override k <|> σ.pending.map PendingWrite.undo^[k]) :=
  congrArg Scope.pending (level_setPending hk σ.pending)

end Scope

end Brindle
