/-
# Brindle.Storage.Ledger — what every level that a rollback leads to can account for.

At each level the rows an index owes are among those stored and those staged that survive, and these are
among the rows brought to the file. A level is accounted for with the slot it would find, so the slot
may be emptied only of rows that no outer level needs. `Anchored` compares two levels: rows staged
before a subtransaction began were staged against the file that its rollback restores.
-/
import Brindle.Storage.Boundary

namespace Brindle

open PendingWrite (undo)

namespace PendingWrite

/-- Equal generations mean that the write extends what is stored. -/
def Based (w : PendingWrite) (image : Image) : Prop :=
  image.generation = w.baseGeneration → w.Extends image

instance (w : PendingWrite) (image : Image) : Decidable (w.Based image) :=
  have : Decidable (w.Extends image) :=
    decidable_of_iff (w.graphRows.take w.baseN = image.graphRows ∧
      w.unrankable.take w.baseUnrankable = image.unrankable) ⟨fun h => ⟨h.1, h.2⟩, fun h => ⟨h.1, h.2⟩⟩
  inferInstanceAs (Decidable (_ → _))

theorem Based.undo {w : PendingWrite} {image : Image} (k : Nat) :
    (PendingWrite.undo^[k] w).Based image ↔ w.Based image := by
  unfold Based
  rw [baseGeneration_undo, iterate_undo]
  exact ⟨fun h hgen => ⟨(h hgen).rows, (h hgen).unrankable⟩,
    fun h hgen => ⟨(h hgen).rows, (h hgen).unrankable⟩⟩

end PendingWrite

/-! ## The rows staged for an index -/

section

variable {oid : Oid} {w : PendingWrite}

theorem survivingFor_self : survivingFor w.indexOid (some w) = w.surviving := if_pos rfl

theorem survivingFor_ne (h : w.indexOid ≠ oid) : survivingFor oid (some w) = 0 := if_neg h

/-- Rows are staged for one index. -/
theorem survivingFor_ne_zero {p : Option PendingWrite} (h : survivingFor oid p ≠ 0) :
    ∃ w, p = some w ∧ w.indexOid = oid ∧ w.surviving ≠ 0 := by
  cases p with
  | none => exact absurd rfl h
  | some w =>
    by_cases hoid : w.indexOid = oid
    · subst hoid
      exact ⟨w, rfl, rfl, survivingFor_self ▸ h⟩
    · exact absurd (survivingFor_ne hoid) h

theorem survivingFor_of_dead (h : w.surviving = 0) : survivingFor oid (some w) = 0 := by
  by_contra hne
  obtain ⟨w', hw', -, hlive⟩ := survivingFor_ne_zero hne
  cases hw'
  exact hlive h

end

/-- After `n` rollbacks, the two slots hold the same rows. -/
def Agree (n : Nat) (old new : Option PendingWrite) : Prop :=
  ∀ oid, survivingFor oid (new.map undo^[n]) = survivingFor oid (old.map undo^[n])

/-- What `new` keeps after a rollback `old` kept: no row reaches an outer level that was not there. -/
def Fades (n : Nat) (old new : Option PendingWrite) : Prop :=
  ∀ w', new = some w' → (undo^[n] w').surviving ≠ 0 →
    ∃ w, old = some w ∧ w.indexOid = w'.indexOid ∧ (undo^[n] w).surviving ≠ 0

theorem Fades.none (n : Nat) (old : Option PendingWrite) : Fades n old none := nofun

theorem Agree.fades {n : Nat} {old new : Option PendingWrite} (h : Agree n old new) :
    Fades n old new := by
  rintro w' rfl hlive
  have hsame := h w'.indexOid
  have hself : survivingFor w'.indexOid ((some w').map undo^[n]) = (undo^[n] w').surviving := by
    have hoid := PendingWrite.indexOid_undo w' n
    show survivingFor w'.indexOid (some (undo^[n] w')) = _
    rw [← hoid]
    exact survivingFor_self
  rw [hself] at hsame
  rw [hsame] at hlive
  obtain ⟨w'', hw'', hoid, hlive⟩ := survivingFor_ne_zero hlive
  obtain ⟨w, hw, rfl⟩ := Option.map_eq_some_iff.mp hw''
  exact ⟨w, hw, (PendingWrite.indexOid_undo w n).symm.trans hoid, hlive⟩

namespace Scope

variable {σ : Scope} {disk disk' : Oid → Nat → Image} {since since' : Oid → Nat → Multiset Row}
  {steady : Bool} {k : Nat}

/-- What a level accounts for. -/
structure Accounts (σ : Scope) (disk : Oid → Nat → Image) (since : Oid → Nat → Multiset Row) :
    Prop where
  /-- What is owed is stored, or staged. -/
  covered : ∀ oid file, σ.catalog oid = some file →
    (σ.dues oid).due ≤ (disk oid file).contents + survivingFor oid σ.pending
  /-- What is stored or staged was brought. -/
  brought : ∀ oid file, σ.catalog oid = some file →
    (disk oid file).contents + survivingFor oid σ.pending ≤ since oid file
  /-- The transaction brought its rows once. -/
  once : ∀ oid file, σ.catalog oid = some file → ∀ row ∈ (σ.dues oid).own,
    (since oid file).count row ≤ 1
  /-- Rows are staged on the image they will be written to. -/
  based : ∀ w file, σ.pending = some w → σ.catalog w.indexOid = some file → w.surviving ≠ 0 →
    w.Based (disk w.indexOid file)

/-- **A row of the transaction is stored or staged, once.** -/
theorem Accounts.count_eq_one (A : σ.Accounts disk since) {oid : Oid} {file : Nat}
    (hfile : σ.catalog oid = some file) {row : Row} (hrow : row ∈ (σ.dues oid).own) :
    ((disk oid file).contents + survivingFor oid σ.pending).count row = 1 := by
  refine le_antisymm ?_ (Multiset.one_le_count_iff_mem.mpr ?_)
  · exact (Multiset.count_le_of_le row (A.brought oid file hfile)).trans (A.once oid file hfile row hrow)
  · exact Multiset.mem_of_le (A.covered oid file hfile) (Multiset.mem_add.mpr (.inl hrow))

/-- Another slot with the same rows. -/
theorem Accounts.reslot (A : σ.Accounts disk since) {p : Option PendingWrite}
    (hagree : ∀ oid, survivingFor oid p = survivingFor oid σ.pending)
    (hbased : ∀ w file, p = some w → σ.catalog w.indexOid = some file → w.surviving ≠ 0 →
      w.Based (disk w.indexOid file)) : (σ.setPending p).Accounts disk since where
  covered oid file hfile := by
    show _ ≤ _ + survivingFor oid p
    rw [hagree]
    exact A.covered oid file hfile
  brought oid file hfile := by
    show _ + survivingFor oid p ≤ _
    rw [hagree]
    exact A.brought oid file hfile
  once := A.once
  based := hbased

/-- A slot none of whose rows the level needs may be emptied. -/
theorem Accounts.emptied (A : σ.Accounts disk since)
    (hdead : ∀ oid file, σ.catalog oid = some file → survivingFor oid σ.pending = 0) :
    (σ.setPending none).Accounts disk since where
  covered oid file hfile := by
    have h := A.covered oid file hfile
    rw [hdead oid file hfile] at h
    exact h
  brought oid file hfile := by
    have h := A.brought oid file hfile
    rw [hdead oid file hfile] at h
    exact h
  once := A.once
  based := nofun

/-- The files a level does not live in may change. -/
theorem Accounts.congr (A : σ.Accounts disk since)
    (hdisk : ∀ oid file, σ.catalog oid = some file → disk' oid file = disk oid file)
    (hsince : ∀ oid file, σ.catalog oid = some file → since' oid file = since oid file) :
    σ.Accounts disk' since' where
  covered oid file hfile := by
    rw [hdisk oid file hfile]
    exact A.covered oid file hfile
  brought oid file hfile := by
    rw [hdisk oid file hfile, hsince oid file hfile]
    exact A.brought oid file hfile
  once oid file hfile := by
    rw [hsince oid file hfile]
    exact A.once oid file hfile
  based w file hw hfile hlive := by
    rw [hdisk w.indexOid file hfile]
    exact A.based w file hw hfile hlive

/-! ## Two levels -/

/-- A level, and the one `k` rollbacks further out. -/
structure Anchored (σ : Scope) (disk : Oid → Nat → Image) (steady : Bool) (k : Nat) : Prop where
  /-- Files get newer inwards. -/
  newer : ∀ oid file outer, σ.catalog oid = some file → (σ.level k).catalog oid = some outer →
    outer ≤ file
  /-- A write was set aside because its index got a new file. -/
  aside : ∀ e file outer, σ.override k = some e → σ.catalog e.indexOid = some file →
    (σ.level k).catalog e.indexOid = some outer → outer < file
  /-- Rows staged before the file changed are staged on what both files hold. -/
  same : ∀ w file outer, σ.override k = none → σ.pending = some w →
    σ.catalog w.indexOid = some file → (σ.level k).catalog w.indexOid = some outer →
    (undo^[k] w).surviving ≠ 0 → disk w.indexOid outer = disk w.indexOid file
  /-- Only a drop or a move leaves rows staged on another file. -/
  still : steady = true → ∀ w, σ.override k = none → σ.pending = some w →
    (undo^[k] w).surviving ≠ 0 → (σ.level k).catalog w.indexOid = σ.catalog w.indexOid

theorem anchored_zero (σ : Scope) (disk : Oid → Nat → Image) (steady : Bool) :
    σ.Anchored disk steady 0 where
  newer oid file outer hfile houter := by
    cases hfile.symm.trans houter
    exact le_rfl
  aside e file outer hover := by
    rw [override_zero] at hover
    cases hover
  same w file outer _ _ hfile houter _ := by
    cases hfile.symm.trans houter
    rfl
  still _ w _ _ _ := rfl

/-- Another slot that reaches the outer level with no more rows. -/
theorem Anchored.reslot (A : σ.Anchored disk steady k) (hk : k ≤ σ.depth)
    {p : Option PendingWrite} (hfades : Fades k σ.pending p) :
    (σ.setPending p).Anchored disk steady k where
  newer oid file outer hfile houter := by
    rw [catalog_setPending hk] at houter
    exact A.newer oid file outer hfile houter
  aside e file outer hover hfile houter := by
    rw [catalog_setPending hk] at houter
    exact A.aside e file outer hover hfile houter
  same w' file outer hover hw' hfile houter hlive := by
    rw [catalog_setPending hk] at houter
    obtain ⟨w, hw, hoid, hlive⟩ := hfades w' hw' hlive
    rw [← hoid] at hfile houter ⊢
    exact A.same w file outer hover hw hfile houter hlive
  still hsteady w' hover hw' hlive := by
    rw [catalog_setPending hk]
    obtain ⟨w, hw, hoid, hlive⟩ := hfades w' hw' hlive
    rw [← hoid]
    exact A.still hsteady w hover hw hlive

/-- The slot a level would find, once the one in front holds `p`. -/
def reached (σ : Scope) (k : Nat) (p : Option PendingWrite) : Scope :=
  (σ.level k).setPending (σ.override k <|> p.map undo^[k])

theorem level_reached (hk : k ≤ σ.depth) (p : Option PendingWrite) :
    (σ.setPending p).level k = σ.reached k p := level_setPending hk p

theorem reached_self (hk : k ≤ σ.depth) : σ.reached k σ.pending = σ.level k :=
  (level_reached hk σ.pending).symm

/-- A level that some write overrides does not see the slot. -/
theorem reached_of_override (hk : k ≤ σ.depth) {e : PendingWrite} (hover : σ.override k = some e)
    (p : Option PendingWrite) : σ.reached k p = σ.level k := by
  rw [← reached_self hk]
  unfold reached
  rw [hover]
  rfl

theorem reached_of_none (hover : σ.override k = none) (p : Option PendingWrite) :
    σ.reached k p = (σ.level k).setPending (p.map undo^[k]) := by
  unfold reached
  rw [hover]
  rfl

/-- The slot of a level that nothing overrides. -/
theorem pending_level_of_none (hk : k ≤ σ.depth) (hover : σ.override k = none) :
    (σ.level k).pending = σ.pending.map undo^[k] := by
  rw [pending_level hk, hover]
  rfl

/-- Anchors between further levels, once the slot in front holds `p`. -/
theorem anchored_reached {i : Nat} (hik : i + k ≤ σ.depth)
    (A : (σ.level i).Anchored disk steady k) {p : Option PendingWrite}
    (hfades : ∀ n, Fades (n + 1) σ.pending p) : (σ.reached i p).Anchored disk steady k := by
  have hi : i ≤ σ.depth := by omega
  have hdepth : k ≤ (σ.level i).depth := by
    rw [depth_level]
    omega
  cases k with
  | zero => exact anchored_zero _ _ _
  | succ k =>
    cases hover : σ.override i with
    | some e =>
      rw [reached_of_override hi hover]
      exact A
    | none =>
      rw [reached_of_none hover]
      refine A.reslot hdepth ?_
      rw [pending_level_of_none hi hover]
      rintro w' hw' hlive
      -- `k + 1` rollbacks after `i` of them
      obtain ⟨v', hv', rfl⟩ := Option.map_eq_some_iff.mp hw'
      rw [← Function.iterate_add_apply, show k + 1 + i = (i + k) + 1 by omega] at hlive
      obtain ⟨v, hv, hoid, hlive⟩ := hfades (i + k) v' hv' hlive
      refine ⟨undo^[i] v, by rw [hv]; rfl, ?_, ?_⟩
      · rw [PendingWrite.indexOid_undo, PendingWrite.indexOid_undo, hoid]
      · rw [← Function.iterate_add_apply, show k + 1 + i = (i + k) + 1 by omega]
        exact hlive

end Scope

end Brindle
