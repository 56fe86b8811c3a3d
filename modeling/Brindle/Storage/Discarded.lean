/-
# Brindle.Storage.Discarded — the bookkeeping of a transaction, whatever it does.

What is set aside is keyed by the subtransaction that set it aside, and every write carries one mark for
each savepoint opened over it. Both follow the nesting of the savepoints in every run, also when calls
raise and when what is staged is lost: no subtransaction has two entries, no entry outlives its
subtransaction, and no write has more marks than there are savepoints open. A debug build checks the
first of these at every commit.
-/
import Brindle.Storage.Transaction

namespace Brindle

open Run (After Throughout along_of_forall throughout_of_invariant)
open Stash (handedUp mem_handedUp ne_of_mem_handedUp nodup_handedUp)

/-- `has_duplicate_subxact`: an entry has the key of an earlier one. -/
def hasDuplicateSubxact (stash : List (SubTransactionId × PendingWrite)) : Bool :=
  stash.zipIdx.any fun entry => (stash.take entry.2).any fun earlier => earlier.1 = entry.1.1

/-- The check finds nothing exactly when the keys are distinct. -/
theorem hasDuplicateSubxact_eq_false {stash : List (SubTransactionId × PendingWrite)} :
    hasDuplicateSubxact stash = false ↔ (stash.map Prod.fst).Nodup := by
  rw [List.nodup_iff_pairwise_ne, List.pairwise_iff_getElem]
  unfold hasDuplicateSubxact
  rw [List.any_eq_false]
  constructor
  · intro h i j hi hj hij heq
    rw [List.length_map] at hi hj
    rw [List.getElem_map, List.getElem_map] at heq
    refine h (stash[j], j) (List.mk_mem_zipIdx_iff_getElem?.mpr (List.getElem?_eq_getElem hj)) ?_
    refine List.any_eq_true.mpr ⟨stash[i], ?_, by simpa using heq⟩
    rw [List.mem_take_iff_getElem]
    exact ⟨i, by omega, rfl⟩
  · rintro h ⟨entry, j⟩ hentry hany
    obtain ⟨hj, rfl⟩ := List.getElem?_eq_some_iff.mp (List.mk_mem_zipIdx_iff_getElem?.mp hentry)
    obtain ⟨earlier, hearlier, heq⟩ := List.any_eq_true.mp hany
    obtain ⟨i, hi, rfl⟩ := List.mem_take_iff_getElem.mp hearlier
    have hlt : i < j ∧ i < stash.length := by omega
    refine h i j (by simpa using hlt.2) (by simpa using hj) hlt.1 ?_
    rw [List.getElem_map, List.getElem_map]
    simpa using heq

/-! ## Calls -/

namespace World

/-- Nothing but the slot has changed, and what is in it has at most `n` marks. -/
structure Shelf (stash : List (SubTransactionId × PendingWrite)) (n : Nat) (world : World) : Prop where
  discarded : world.discarded = stash
  marks : ∀ w ∈ world.pending, w.marks.length ≤ n

namespace Shelf

variable {stash : List (SubTransactionId × PendingWrite)} {n : Nat} {world : World}
  (h : world.Shelf stash n)
include h

theorem setPending {p : Option PendingWrite} (hp : ∀ w ∈ p, w.marks.length ≤ n) :
    (world.setPending p).Shelf stash n := ⟨h.discarded, hp⟩

theorem emptied : (world.setPending none).Shelf stash n := h.setPending nofun

variable [Arith]

theorem flushLocked (works : Bool) (write : Option PendingWrite) :
    Ends (world.flushLocked works write) (Shelf stash n) (Shelf stash n) := by
  unfold World.flushLocked
  cases write with
  | none => exact h
  | some w =>
    dsimp only
    cases world.catalog w.indexOid with
    | none => exact h
    | some file =>
      refine (Ends.access works h).bind fun _ _ => ?_
      refine (Ends.raising (Run.after_true _) h).bind fun image _ => ?_
      exact ⟨h.discarded, h.marks⟩

theorem resettle (works : Bool) {w : PendingWrite} (hw : w.marks.length ≤ n) (mark : Nat × Nat) :
    Ends (world.resettle works w mark) (Shelf stash n) (Shelf stash n) := by
  unfold World.resettle
  refine (Ends.raising (Run.after_true _) h).bind fun survivors _ => ?_
  cases world.catalog w.indexOid with
  | none => exact h
  | some file =>
    refine (Ends.access works h).bind fun _ _ => ?_
    refine (Ends.raising (Run.after_true _) h).bind fun image _ => ?_
    refine (Ends.raising (Run.after_true _) h).bind fun table _ => ?_
    refine h.setPending fun w' hw' => ?_
    cases hw'
    exact hw

theorem settlePending (works : Bool) :
    Ends (world.settlePending works) (Shelf stash n) (Shelf stash n) := by
  unfold World.settlePending
  cases hw : world.pending with
  | none => exact h
  | some w =>
    dsimp only
    cases w.rewindTo with
    | none => exact h
    | some mark =>
      dsimp only
      split_ifs
      · exact h.emptied
      · exact h.emptied.resettle works (h.marks w hw) mark

theorem flushOther (works : Bool) (oid : Oid) :
    Ends (world.flushOther works oid) (Shelf stash n) (Shelf stash n) := by
  unfold World.flushOther
  cases world.pending with
  | none => exact h
  | some w =>
    dsimp only
    split_ifs
    · exact h.emptied.flushLocked works _
    · exact h

omit [Arith] in
theorem loadPending (works : Bool) (oid : Oid) :
    Ends (world.loadPending works oid)
      (fun loaded => loaded.1.Shelf stash n ∧ loaded.2.marks.length ≤ n) (Shelf stash n) := by
  unfold World.loadPending
  cases hw : world.pending with
  | some w => exact ⟨h, h.marks w hw⟩
  | none =>
    dsimp only
    cases world.catalog oid with
    | none => exact h
    | some file =>
      refine (Ends.access works h).bind fun _ _ => ?_
      refine (Ends.raising (Run.after_true _) h).bind fun image _ => ?_
      exact ⟨h.setPending fun w hw => by cases hw; exact Nat.zero_le n, Nat.zero_le n⟩

theorem stageRow {w : PendingWrite} (hw : w.marks.length ≤ n) (vector : Option (List F32))
    (attrs : List AttrValue) (tid : TidPair) :
    Ends (world.stageRow w vector attrs tid) (Shelf stash n) (Shelf stash n) := by
  have hslot : ∀ w' : PendingWrite, w'.marks = w.marks →
      (world.setPending (some w')).Shelf stash n := by
    intro w' hmarks
    refine h.setPending fun w'' hw'' => ?_
    cases hw''
    rw [hmarks]
    exact hw
  unfold World.stageRow
  cases vector with
  | none => exact hslot _ rfl
  | some vector =>
    have hstaged : After (fun staged => staged.1.marks = w.marks)
        (w.stageVector vector attrs tid) := by
      unfold PendingWrite.stageVector
      refine (Run.after_true _).bind fun applied _ => ?_
      obtain ⟨hnsw, _ | _⟩ := applied <;> exact rfl
    refine (Ends.raising hstaged h).bind fun staged hmarks => ?_
    obtain ⟨w', e | _⟩ := staged
    · refine Ends.mono (Ends.raising (show After (fun _ => False) (Outcome.fail e) from trivial)
        (hslot w' hmarks)) (fun _ h => h.elim) fun _ h => h
    · exact hslot w' hmarks

theorem pendingInsert (pages : PageAccess) (oid : Oid) (vector : Option (List F32))
    (attrs : List AttrValue) (tid : TidPair) :
    Ends (world.pendingInsert pages oid vector attrs tid) (Shelf stash n) (Shelf stash n) := by
  unfold World.pendingInsert
  refine (h.settlePending pages.settle).bind fun world h => ?_
  refine (h.flushOther pages.flush oid).bind fun world h => ?_
  refine (h.loadPending pages.load oid).bind fun loaded h => ?_
  exact h.1.stageRow h.2 vector attrs tid

theorem flushPendingFor (pages : PageAccess) (oid : Oid) :
    Ends (world.flushPendingFor pages oid) (Shelf stash n) (Shelf stash n) := by
  unfold World.flushPendingFor
  refine (h.settlePending pages.settle).bind fun world h => ?_
  cases world.pending with
  | none => exact h
  | some w =>
    dsimp only
    split_ifs
    · exact h.emptied.flushLocked pages.flush _
    · exact h

theorem flushPending (pages : PageAccess) :
    Ends (world.flushPending pages) (Shelf stash n) (Shelf stash n) := by
  unfold World.flushPending
  refine (h.settlePending pages.settle).bind fun world h => ?_
  exact h.emptied.flushLocked pages.flush _

end Shelf

/-- A write-back empties the slot or leaves it so. -/
theorem flushLocked_slot [Arith] (works : Bool) (world : World) (write : Option PendingWrite) :
    After (fun world' => world'.pending = world.pending) (world.flushLocked works write) := by
  unfold World.flushLocked
  cases write with
  | none => exact rfl
  | some w =>
    dsimp only
    cases world.catalog w.indexOid with
    | none => exact rfl
    | some file =>
      refine (Run.after_true _).bind fun _ _ => ?_
      exact (Run.after_true _).bind fun image _ => rfl

/-- A commit leaves nothing staged and nothing set aside. -/
theorem preCommit_empty [Arith] (pages : PageAccess) (world : World) :
    After (fun world' => world'.pending = none ∧ world'.discarded = []) (world.preCommit pages) := by
  unfold World.preCommit
  refine (Run.after_true _).bind fun settled _ => ?_
  exact (flushLocked_slot pages.flush (settled.setPending none) settled.pending).bind
    fun world' h => ⟨h, rfl⟩

end World

/-! ## Steps -/

namespace PendingWrite

/-- An aborted or released subtransaction takes its mark with it. -/
theorem length_marks_boundary (w : PendingWrite) {event : SubXactEvent}
    (hevent : event ≠ .startSub) : (w.applyMarkEvent event).marks.length = w.marks.length - 1 := by
  cases event with
  | startSub => exact absurd rfl hevent
  | commitSub => exact List.length_tail
  | abortSub => exact List.length_tail

end PendingWrite

namespace Session

/-- The subtransactions that are open, the transaction itself last. -/
def openSubids (s : Session) : List SubTransactionId :=
  s.frames.map Frame.subid ++ [topSubTransactionId]

/-- What is set aside and what is marked follows the savepoints. -/
structure Shelved (s : Session) : Prop where
  /-- No subtransaction has set aside two writes. -/
  keys : (s.world.discarded.map Prod.fst).Nodup
  /-- What is set aside belongs to an open subtransaction. -/
  opened : ∀ entry ∈ s.world.discarded, entry.1 ∈ s.openSubids
  /-- No write has more marks than there are savepoints. -/
  marks : ∀ w ∈ s.scope.held, w.marks.length ≤ s.frames.length
  subids : s.openSubids.Pairwise fun inner outer => outer < inner
  subids_lt : ∀ subid ∈ s.openSubids, subid < s.nextSub

variable {s : Session} {command : Command}

theorem mem_openSubids_self (s : Session) : subidOf s.frames ∈ s.openSubids := by
  unfold subidOf openSubids
  cases s.frames with
  | nil => exact List.mem_cons_self
  | cons frame rest => exact List.mem_cons_self

namespace Shelved

variable (H : s.Shelved)
include H

theorem shelf : s.world.Shelf s.world.discarded s.frames.length :=
  ⟨rfl, fun w hw => H.marks w (Scope.mem_held.mpr (.inl hw))⟩

theorem aside {entry : SubTransactionId × PendingWrite} (h : entry ∈ s.world.discarded) :
    entry.2.marks.length ≤ s.frames.length :=
  H.marks entry.2 (Scope.mem_held.mpr (.inr ⟨entry.1, h⟩))

/-- What a call leaves behind. -/
theorem of_shelf {t : Session} (hworld : t.world.Shelf s.world.discarded s.frames.length)
    (hframes : t.frames.map Frame.subid = s.frames.map Frame.subid)
    (hnext : t.nextSub = s.nextSub) : t.Shelved := by
  have hopen : t.openSubids = s.openSubids := congrArg (· ++ [topSubTransactionId]) hframes
  have hlength : t.frames.length = s.frames.length := by
    rw [← List.length_map Frame.subid, hframes, List.length_map]
  refine ⟨?_, ?_, ?_, hopen ▸ H.subids, fun subid hsubid => ?_⟩
  · rw [hworld.discarded]
    exact H.keys
  · rw [hworld.discarded, hopen]
    exact H.opened
  · intro w hw
    rw [hlength]
    rcases Scope.mem_held.mp hw with hslot | ⟨subid, hmem⟩
    · exact hworld.marks w hslot
    · have hmem : (subid, w) ∈ t.world.discarded := hmem
      rw [hworld.discarded] at hmem
      exact H.aside hmem
  · rw [hnext]
    exact H.subids_lt subid (hopen ▸ hsubid)

theorem after {call : Outcome Raised World}
    (hcall : Ends call (World.Shelf s.world.discarded s.frames.length)
      (World.Shelf s.world.discarded s.frames.length))
    {done : Session → Session} (hdone : ∀ t : Session, (done t).world = t.world ∧
      (done t).frames = t.frames ∧ (done t).nextSub = t.nextSub) :
    After Shelved (s.after call done) := by
  cases call with
  | ok world =>
    obtain ⟨hworld, hframes, hnext⟩ := hdone { s with world }
    refine H.of_shelf ?_ (by rw [hframes]) hnext
    rw [hworld]
    exact hcall
  | error fault =>
    cases fault with
    | error raised => exact H.of_shelf hcall rfl rfl
    | panic => trivial
    | fuel => trivial

theorem savepoint : s.savepoint.Shelved := by
  have hkeys : s.savepoint.world.discarded.map Prod.fst = s.world.discarded.map Prod.fst := by
    show (s.world.discarded.map _).map Prod.fst = _
    rw [List.map_map]
    rfl
  have hmarks : ∀ w : PendingWrite, w.marks.length ≤ s.frames.length →
      (w.applyMarkEvent .startSub).marks.length ≤ s.savepoint.frames.length := fun w hw =>
    Nat.succ_le_succ hw
  refine ⟨hkeys ▸ H.keys, ?_, ?_, ?_, ?_⟩
  · intro entry hentry
    obtain ⟨old, hold, rfl⟩ := List.mem_map.mp hentry
    exact List.mem_cons_of_mem _ (H.opened old hold)
  · intro w hw
    rcases Scope.mem_held.mp hw with hslot | ⟨subid, hmem⟩
    · obtain ⟨v, hv, rfl⟩ := Option.map_eq_some_iff.mp hslot
      exact hmarks v (H.shelf.marks v hv)
    · obtain ⟨old, hold, heq⟩ := List.mem_map.mp hmem
      rw [show w = _ from (congrArg Prod.snd heq).symm]
      exact hmarks old.2 (H.aside hold)
  · exact List.pairwise_cons.mpr ⟨H.subids_lt, H.subids⟩
  · intro subid hsubid
    rcases List.mem_cons.mp hsubid with rfl | hold
    · exact Nat.lt_succ_self _
    · exact (H.subids_lt subid hold).trans (Nat.lt_succ_self _)

/-- What is left when the innermost subtransaction ends. -/
theorem ended {frame : Frame} {rest : List Frame} (hframes : s.frames = frame :: rest)
    {event : SubXactEvent} (hevent : event ≠ .startSub) (world : World) {t : Session}
    (hworld : t.world.pending = (world.applyMarkEvents event).pending ∧
      t.world.discarded = (world.applyMarkEvents event).discarded)
    (hrest : t.frames = rest) (hnext : t.nextSub = s.nextSub)
    (hkeys : (world.discarded.map Prod.fst).Nodup)
    (hopened : ∀ entry ∈ world.discarded, entry.1 ≠ frame.subid ∧
      entry.1 ∈ s.openSubids)
    (hmarks : ∀ w, world.pending = some w ∨ (∃ subid, (subid, w) ∈ world.discarded) →
      w.marks.length ≤ s.frames.length) : t.Shelved := by
  have hopen : s.openSubids = frame.subid :: t.openSubids := by
    unfold openSubids
    rw [hframes, hrest]
    rfl
  have hsubids := H.subids
  have hlt := H.subids_lt
  rw [hopen] at hopened hsubids hlt
  refine ⟨?_, ?_, ?_, (List.pairwise_cons.mp hsubids).2, ?_⟩
  · rw [hworld.2]
    show ((world.discarded.map _).map Prod.fst).Nodup
    rw [List.map_map]
    exact hkeys
  · intro entry hentry
    rw [hworld.2] at hentry
    obtain ⟨old, hold, rfl⟩ := List.mem_map.mp hentry
    obtain ⟨hne, hmem⟩ := hopened old hold
    exact (List.mem_cons.mp hmem).resolve_left hne
  · intro w hw
    have hpopped : ∃ v, (world.pending = some v ∨ ∃ subid, (subid, v) ∈ world.discarded) ∧
        w = v.applyMarkEvent event := by
      rcases Scope.mem_held.mp hw with hslot | ⟨subid, hmem⟩
      · obtain ⟨v, hv, rfl⟩ := Option.map_eq_some_iff.mp (hworld.1.symm.trans hslot)
        exact ⟨v, .inl hv, rfl⟩
      · have hmem : (subid, w) ∈ t.world.discarded := hmem
        rw [hworld.2] at hmem
        obtain ⟨old, hold, heq⟩ := List.mem_map.mp hmem
        exact ⟨old.2, .inr ⟨old.1, hold⟩, (congrArg Prod.snd heq).symm⟩
    obtain ⟨v, hv, rfl⟩ := hpopped
    have hlength := hmarks v hv
    rw [hframes, List.length_cons] at hlength
    rw [v.length_marks_boundary hevent, hrest]
    omega
  · intro subid hsubid
    rw [hnext]
    exact hlt subid (List.mem_cons_of_mem _ hsubid)

theorem release : s.release.Shelved := by
  cases hframes : s.frames with
  | nil =>
    have hsame : s.release = s := by
      unfold Session.release
      rw [hframes]
    rw [hsame]
    exact H
  | cons frame rest =>
    have hparent : subidOf rest ∈ s.openSubids ∧ subidOf rest ≠ frame.subid := by
      have hmem := mem_openSubids_self { s with frames := rest }
      have hopen : s.openSubids = frame.subid :: ({ s with frames := rest } : Session).openSubids := by
        unfold openSubids
        rw [hframes]
        rfl
      have hsubids := H.subids
      rw [hopen] at hsubids ⊢
      exact ⟨List.mem_cons_of_mem _ hmem,
        Nat.ne_of_lt ((List.pairwise_cons.mp hsubids).1 _ hmem)⟩
    have hsame : s.release = { s with
        world := s.world.subxactCallback .commitSub frame.subid (subidOf rest)
        frames := rest } := by
      unfold Session.release
      rw [hframes]
    rw [hsame]
    have hcommit : SubXactEvent.commitSub ≠ .startSub := nofun
    refine H.ended hframes hcommit
      (s.world.reparentDiscarded frame.subid (subidOf rest)) ⟨rfl, rfl⟩ rfl rfl
      (nodup_handedUp H.keys) (fun entry hentry => ⟨?_, ?_⟩) ?_
    · exact ne_of_mem_handedUp hparent.2 hentry
    · obtain ⟨old, hold, -, hkey | hkey⟩ := mem_handedUp hentry
      · rw [hkey]
        exact H.opened old hold
      · rw [hkey]
        exact hparent.1
    · rintro w (hslot | ⟨subid, hmem⟩)
      · exact H.shelf.marks w hslot
      · obtain ⟨old, hold, hvalue, -⟩ := mem_handedUp hmem
        have hvalue : w = old.2 := hvalue
        rw [hvalue]
        exact H.aside hold

theorem rollback : s.rollback.Shelved := by
  cases hframes : s.frames with
  | nil =>
    have hsame : s.rollback = s := by
      unfold Session.rollback
      rw [hframes]
    rw [hsame]
    exact H
  | cons frame rest =>
    have hsame : s.rollback = { s with
        world := { s.world.subxactCallback .abortSub frame.subid (subidOf rest) with
          catalog := frame.catalog }
        frames := rest
        dues := frame.dues
        failed := false } := by
      unfold Session.rollback
      rw [hframes]
    rw [hsame]
    have habort : SubXactEvent.abortSub ≠ .startSub := nofun
    refine H.ended hframes habort
      (s.world.restoreDiscarded frame.subid) ⟨rfl, rfl⟩ rfl rfl
      (H.keys.sublist (List.filter_sublist.map _)) (fun entry hentry => ?_) ?_
    · obtain ⟨hmem, hne⟩ := List.mem_filter.mp hentry
      exact ⟨by simpa using hne, H.opened entry hmem⟩
    · rintro w (hslot | ⟨subid, hmem⟩)
      · have hslot : (Stash.firstUnder s.world.discarded frame.subid <|> s.world.pending) = some w :=
          hslot
        cases haside : Stash.firstUnder s.world.discarded frame.subid with
        | none =>
          rw [haside] at hslot
          exact H.shelf.marks w hslot
        | some e =>
          rw [haside] at hslot
          cases hslot
          exact H.aside (Stash.mem_of_firstUnder haside)
      · exact H.aside (List.mem_of_mem_filter hmem)

/-- Setting a write aside moves it from the slot to the stash. -/
theorem forget (oid : Oid) {t : Session}
    (hworld : t.world.pending = (s.scope.forget oid).pending ∧
      t.world.discarded = (s.scope.forget oid).discarded)
    (hframes : t.frames = s.frames) (hnext : t.nextSub = s.nextSub) : t.Shelved := by
  have hopen : t.openSubids = s.openSubids := by
    unfold openSubids
    rw [hframes]
  have hheld : ∀ w ∈ t.scope.held, w ∈ s.scope.held := by
    intro w hw
    have hslot : (s.scope.forget oid).pending = some w → w ∈ s.scope.held := by
      intro h
      rcases s.scope.forget_cases oid with ⟨hsame, -⟩ | ⟨v, -, -, hnone⟩
      · exact Scope.mem_held.mpr (.inl (hsame ▸ h))
      · rw [hnone] at h
        cases h
    rcases Scope.mem_held.mp hw with h | ⟨subid, hmem⟩
    · exact hslot (hworld.1.symm.trans h)
    · have hmem : (subid, w) ∈ t.world.discarded := hmem
      rw [hworld.2] at hmem
      rcases s.scope.discarded_forget oid with hsame | ⟨v, hv, -, hpush⟩
      · exact Scope.mem_held.mpr (.inr ⟨subid, hsame ▸ hmem⟩)
      · rw [hpush] at hmem
        rcases List.mem_append.mp hmem with hold | hnew
        · exact Scope.mem_held.mpr (.inr ⟨subid, hold⟩)
        · cases List.mem_singleton.mp hnew
          exact Scope.mem_held.mpr (.inl hv)
  refine ⟨?_, fun entry hentry => ?_, fun w hw => ?_, hopen ▸ H.subids, fun subid hsubid => ?_⟩
  · rw [hworld.2]
    rcases s.scope.discarded_forget oid with hsame | ⟨w, -, hnew, hpush⟩
    · rw [hsame]
      exact H.keys
    · rw [hpush, List.map_append]
      refine List.nodup_append.mpr ⟨H.keys, List.nodup_singleton _, ?_⟩
      rintro key hkey _ hsubid rfl
      obtain ⟨entry, hentry, rfl⟩ := List.mem_map.mp hkey
      exact hnew entry hentry (List.mem_singleton.mp hsubid)
  · rw [hworld.2] at hentry
    rw [hopen]
    rcases s.scope.discarded_forget oid with hsame | ⟨w, -, -, hpush⟩
    · rw [hsame] at hentry
      exact H.opened entry hentry
    · rw [hpush] at hentry
      rcases List.mem_append.mp hentry with hold | hnew
      · exact H.opened entry hold
      · rw [List.mem_singleton.mp hnew]
        exact s.mem_openSubids_self
  · rw [hframes]
    exact H.marks w (hheld w hw)
  · rw [hnext]
    exact H.subids_lt subid (hopen ▸ hsubid)

variable [Arith]

theorem rebuild (oid : Oid) (params : HnswParams) (rows : List Row) (dues : Dues) :
    After Shelved (s.rebuild oid params rows dues) := by
  unfold Session.rebuild
  rw [s.world_forget oid]
  cases ambuild params rows with
  | ok image => exact H.forget oid ⟨rfl, rfl⟩ rfl rfl
  | error fault =>
    cases fault with
    | error e => exact H.forget oid ⟨rfl, rfl⟩ rfl rfl
    | panic => trivial
    | fuel => trivial

omit [Arith] in
/-- What only touches the catalog, the heap or the files. -/
theorem of_same {t : Session} (hpending : t.world.pending = s.world.pending)
    (hdiscarded : t.world.discarded = s.world.discarded)
    (hframes : t.frames.map Frame.subid = s.frames.map Frame.subid)
    (hnext : t.nextSub = s.nextSub) : t.Shelved :=
  H.of_shelf ⟨hdiscarded, hpending ▸ H.shelf.marks⟩ hframes hnext

theorem act (command : Command) : After Shelved (s.act command) := by
  by_cases hgone : ∃ oid, command.index? = some oid ∧ s.world.catalog oid = none
  · obtain ⟨oid, hindex, hgone⟩ := hgone
    rw [act_gone hindex hgone]
    exact H
  have hthere : ∀ {oid}, command.index? = some oid → ∃ file, s.world.catalog oid = some file :=
    fun {oid} hindex => Option.ne_none_iff_exists'.mp fun hnone => hgone ⟨oid, hindex, hnone⟩
  cases command with
  | insert oid row pages =>
    obtain ⟨file, hfile⟩ := hthere rfl
    simp only [Session.act, hfile]
    exact H.after (H.shelf.pendingInsert ..) fun _ => ⟨rfl, rfl, rfl⟩
  | scan oid pages =>
    obtain ⟨file, hfile⟩ := hthere rfl
    simp only [Session.act, hfile]
    exact H.after (H.shelf.flushPendingFor ..) fun _ => ⟨rfl, rfl, rfl⟩
  | parallelPlan pages => exact H.after (H.shelf.flushPending pages) fun _ => ⟨rfl, rfl, rfl⟩
  | savepoint => exact H.savepoint
  | release => exact H.release
  | rollback => exact H.rollback
  | truncate oid params =>
    obtain ⟨file, hfile⟩ := hthere rfl
    simp only [Session.act, hfile]
    exact H.rebuild ..
  | reindex oid params rows =>
    obtain ⟨file, hfile⟩ := hthere rfl
    simp only [Session.act, hfile]
    exact H.rebuild ..
  | dropIndex oid => exact H.of_same rfl rfl rfl rfl
  | moveIndex oid =>
    obtain ⟨file, hfile⟩ := hthere rfl
    simp only [Session.act, hfile]
    exact H.of_same rfl rfl rfl rfl
  | others oid image gone come =>
    obtain ⟨file, hfile⟩ := hthere rfl
    simp only [Session.act, hfile]
    refine H.of_same rfl rfl ?_ rfl
    show (s.frames.map _).map Frame.subid = _
    rw [List.map_map]
    rfl

theorem step (command : Command) : After Shelved (s.step command) := by
  unfold Session.step
  cases s.failed with
  | false => exact H.act command
  | true =>
    cases command with
    | rollback => exact H.rollback
    | others oid image gone come => exact H.act _
    | _ => exact H

omit H [Arith] in
theorem start (catalog : Oid → Option Nat) (disk : Oid → Nat → Image) (columns : Oid → Nat)
    (nextFile : Nat) : (Session.start catalog disk columns nextFile).Shelved where
  keys := List.nodup_nil
  opened := nofun
  marks := nofun
  subids := List.pairwise_singleton _ _
  subids_lt subid hsubid := by
    rw [List.mem_singleton.mp hsubid]
    exact Nat.lt_succ_self _

end Shelved

/-- **The stash follows the savepoints.** In every state of every run, whatever is raised on the way, the
check a debug build makes finds nothing, each write set aside belongs to one of the open
subtransactions, which all differ, and no write has more marks than there are savepoints; a commit
that returns, and an abort, leave nothing staged and nothing set aside. -/
theorem stash_follows_savepoints [Arith] (catalog : Oid → Option Nat) (disk : Oid → Nat → Image)
    (columns : Oid → Nat) (nextFile : Nat) (commands : List Command) :
    Throughout step (fun s =>
        hasDuplicateSubxact s.world.discarded = false ∧
        (∀ entry ∈ s.world.discarded, entry.1 ∈ s.openSubids) ∧ s.openSubids.Nodup ∧
        (∀ w ∈ s.scope.held, w.marks.length ≤ s.frames.length) ∧
        (∀ pages, After (fun world => world.pending = none ∧ world.discarded = [])
          (s.world.preCommit pages)) ∧
        s.world.xactAbort.pending = none ∧ s.world.xactAbort.discarded = [])
      (start catalog disk columns nextFile) commands := by
  refine throughout_of_invariant (I := Shelved) (C := fun _ _ => True) (fun _ a H _ => H.step a)
    (fun s H => ?_) (.start catalog disk columns nextFile)
    (along_of_forall (fun _ _ _ => trivial) _)
  exact ⟨hasDuplicateSubxact_eq_false.mpr H.keys, H.opened, H.subids.imp Nat.ne_of_gt, H.marks,
    fun pages => World.preCommit_empty pages s.world, rfl, rfl⟩

end Session

end Brindle
