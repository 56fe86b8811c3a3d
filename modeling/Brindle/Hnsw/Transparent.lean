/-
# Brindle.Hnsw.Transparent — writing a graph out and reading it back changes nothing.

The decoder rebuilds every list at the start of its own run, so a graph that went through its bytes
differs from the original in the unused slots and in nothing else: the two are twins. An index whose
graph is reloaded between operations therefore shows exactly what the index that stays in memory
shows: the same ids, errors, answers and bytes, with the generator picking up where it was.
-/
import Brindle.Hnsw.Twins
import Brindle.Lib.Lockstep

namespace Brindle

open Outcome (Ensures ensures_ok ensures_pure)
open Run (run Along After)
open Lockstep (outputs next Matches)

/-- An operation on a graph, as its callers make it. -/
inductive Act where
  | insert (vector : List F32) (attrs : List AttrValue)
  | delete (id : Nat)
  | search (query : List F32) (k efSearch : Nat)
  | searchFiltered (query : List F32) (k efSearch : Nat) (predicate : Predicate)
  | matching (predicate : Predicate)
  | bruteForce (query : List F32) (k : Nat)
  | compact
  | encode

/-- What an operation returns. -/
inductive Shown where
  | inserted (r : Except HnswError Nat)
  | deleted (r : Except HnswError Unit)
  | hits (r : Except HnswError (List (F32 × Nat)))
  | ids (r : Except HnswError (List Nat))
  | compacted (r : Except HnswError Nat)
  | bytes (r : Except HnswError (List UInt8))

/-- The `Result` a caller gets; a panic is not one. -/
def caught {α : Type} : Outcome HnswError α → Outcome HnswError (Except HnswError α)
  | .ok a => .ok (.ok a)
  | .error (.error e) => .ok (.error e)
  | .error .panic => .error .panic
  | .error .fuel => .error .fuel

namespace Hnsw

variable [Arith]

/-- Carry out one operation. A refused delete or compaction leaves the graph as it was. -/
def act (h : Hnsw) : Act → Outcome HnswError (Hnsw × Shown)
  | .insert vector attrs => do
    let (h, r) ← h.insertWithAttrs vector attrs
    return (h, .inserted r)
  | .delete id =>
    match h.delete id with
    | .ok h => return (h, .deleted (.ok ()))
    | .error e => return (h, .deleted (.error e))
  | .search query k efSearch => return (h, .hits (← caught (h.search query k efSearch)))
  | .searchFiltered query k efSearch predicate =>
    return (h, .hits (← caught (h.searchFiltered query k efSearch predicate)))
  | .matching predicate => return (h, .ids (← caught (h.matching predicate)))
  | .bruteForce query k => return (h, .hits (← caught (h.bruteForce query k)))
  | .compact => do
    match ← caught h.compact with
    | .ok (fresh, n) => return (fresh, .compacted (.ok n))
    | .error e => return (h, .compacted (.error e))
  | .encode => return (h, .bytes (← caught h.toBytes))

/-! ## What an operation keeps -/

/-- One insert of a compaction. -/
def rebuildStep (fresh : Hnsw) (row : List F32 × List AttrValue) : Outcome HnswError Hnsw := do
  match ← insertWithAttrs fresh row.1 row.2 with
  | (fresh, .ok _) => return fresh
  | (_, .error e) => Outcome.fail e

theorem compact_eq (h : Hnsw) : h.compact = (do
    let live ← h.liveRows
    let fresh ← run rebuildStep (Hnsw.new h.rebuildParams) live
    return (fresh, fresh.n)) :=
  rfl

/-- The layers of the next node fit a `u32`. -/
def NextFits (h : Hnsw) : Prop := h.base h.n + (h.drawnLevel + 1) < 2 ^ 32

instance (h : Hnsw) : Decidable h.NextFits := inferInstanceAs (Decidable (_ < _))

/-- The layers stored by the operation fit a `u32`, and an attribute row its length prefix. -/
def ActFits (h : Hnsw) : Act → Prop
  | .insert _ attrs => h.NextFits ∧ attrs.length < 2 ^ 64
  | .compact => After (fun rows => Along rebuildStep (fun fresh _ => fresh.NextFits)
      (Hnsw.new h.rebuildParams) rows) h.liveRows
  | _ => True

instance (h : Hnsw) : ∀ a, Decidable (h.ActFits a)
  | .insert _ attrs => inferInstanceAs (Decidable (h.NextFits ∧ attrs.length < 2 ^ 64))
  | .compact => inferInstanceAs (Decidable (After (fun rows =>
      Along rebuildStep (fun fresh _ => fresh.NextFits) (Hnsw.new h.rebuildParams) rows) h.liveRows))
  | .delete _ => .isTrue trivial
  | .search .. => .isTrue trivial
  | .searchFiltered .. => .isTrue trivial
  | .matching _ => .isTrue trivial
  | .bruteForce .. => .isTrue trivial
  | .encode => .isTrue trivial

/-- Well formed, and configured as `new` configures. -/
def Kept (h : Hnsw) : Prop := WellFormed h ∧ Configured h

theorem Kept.insertWithAttrs {h : Hnsw} (K : Kept h) (vector : List F32) {attrs : List AttrValue}
    (hrow : attrs.length < 2 ^ 64) (hfit : h.NextFits) :
    Ensures (h.insertWithAttrs vector attrs) fun r => Kept r.1 := by
  rw [insertWithAttrs_eq]
  exact (K.1.insertDrawn_keeps K.2 vector hrow hfit).mono fun r k => ⟨k.wellFormed, k.configured⟩

/-- A compaction that is not refused rebuilds a graph of the same kind. -/
theorem Kept.compact {h : Hnsw} (K : Kept h) (hfit : h.ActFits .compact) :
    After (fun r => Kept r.1) h.compact := by
  obtain ⟨rows, hrows, hmem⟩ := liveRows_spec K.1.toLayout
  have hfits : After (fun rows => Along rebuildStep (fun fresh _ => fresh.NextFits)
      (Hnsw.new h.rebuildParams) rows) h.liveRows := hfit
  rw [hrows] at hfits
  have hnew : Kept (Hnsw.new h.rebuildParams) :=
    ⟨WellFormed.new _, Configured.new K.2.m_word K.2.ef_word⟩
  have hword : ∀ row ∈ rows, row.2.length < 2 ^ 64 :=
    fun row hrow => K.2.attrs_word row.2 (hmem row hrow).2.2
  have hrun : After Kept (run rebuildStep (Hnsw.new h.rebuildParams) rows) := by
    refine Run.after_run (fun g row Kg hc => ?_) hnew (Run.along_and hfits hword)
    obtain ⟨⟨g', r⟩, hins, Kg'⟩ := Kg.insertWithAttrs row.1 hc.2 hc.1
    unfold rebuildStep
    rw [hins, Outcome.ok_bind]
    cases r with
    | ok id => exact Kg'
    | error e => trivial
  rw [compact_eq, hrows, Outcome.ok_bind]
  cases hfresh : run rebuildStep (Hnsw.new h.rebuildParams) rows with
  | error e => trivial
  | ok fresh =>
    rw [hfresh] at hrun
    exact hrun

/-! ## Reloading -/

/-- The graph read back from its own encoding, where that encoding decodes. -/
def reload (h : Hnsw) : Hnsw :=
  match h.toBytes with
  | .ok bytes =>
    match Hnsw.fromBytes bytes with
    | .ok g => g
    | .error _ => h
  | .error _ => h

theorem Kept.reload {h : Hnsw} (K : Kept h) : Twins h h.reload := by
  obtain ⟨bytes, hbytes, -, hdec⟩ := decode_encode K.1 K.2
  unfold Hnsw.reload
  rw [hbytes]
  dsimp only
  cases hread : Hnsw.fromBytes bytes with
  | error e => exact Twins.refl K.1.toLayout
  | ok g =>
    rw [hdec g hread]
    exact relinked_mirrored K.1 K.2

theorem Kept.twins {h g : Hnsw} (K : Kept h) (T : Twins h g) : Kept g :=
  ⟨T.wellFormed K.1, (Configured.relinked T).mpr K.2⟩

/-- A graph that must be kept in step with its twin. -/
def InStep (h g : Hnsw) : Prop := Kept h ∧ Twins h g

/-- The two show the same answer and stay as they are. -/
theorem InStep.shows {h g : Hnsw} {α : Type} (I : InStep h g) {x y : Outcome HnswError α}
    (hxy : y = x) (wrap : Except HnswError α → Shown) :
    Matches InStep (do return (h, wrap (← caught x)) : Outcome HnswError (Hnsw × Shown))
      (do return (g, wrap (← caught y))) := by
  rw [hxy]
  generalize caught x = r
  cases r with
  | error e => exact rfl
  | ok r => exact ⟨I, rfl⟩

/-- **One operation on twins** shows the same and leaves twins. -/
theorem InStep.act {h g : Hnsw} (I : InStep h g) (a : Act) (hfit : h.ActFits a) :
    Matches InStep (h.act a) (g.act a) := by
  obtain ⟨K, T⟩ := I
  have L := K.1.toLayout
  obtain ⟨hmatching, hbrute, hlive, hparams, hdrawn⟩ := T.scans_eq
  cases a with
  | insert vector attrs =>
    obtain ⟨hnext, hrow⟩ := hfit
    obtain ⟨h', g', r, hrun, hrun', T'⟩ := T.insertDrawn K.1 vector attrs hnext
    obtain ⟨r', hkept, K'⟩ := K.insertWithAttrs vector hrow hnext
    rw [insertWithAttrs_eq, hrun] at hkept
    cases hkept
    simp only [Hnsw.act, insertWithAttrs_eq, hdrawn, hrun, hrun', Outcome.ok_bind]
    exact ⟨⟨K', T'⟩, rfl⟩
  | delete id =>
    cases hdel : h.delete id with
    | ok h' =>
      obtain ⟨g', hdel', T'⟩ := T.delete hdel
      simp only [Hnsw.act, hdel, hdel']
      exact ⟨⟨⟨K.1.delete hdel, K.2.delete hdel⟩, T'⟩, rfl⟩
    | error e =>
      have hdel' : g.delete id = .error e := by
        have hdeleted : g.deleted = h.deleted := T.field Hnsw.deleted fun _ _ => rfl
        unfold Hnsw.delete at hdel ⊢
        rw [hdeleted]
        split_ifs at hdel ⊢
        exact hdel
      simp only [Hnsw.act, hdel, hdel']
      exact ⟨⟨K, T⟩, rfl⟩
  | search query k efSearch =>
    refine InStep.shows ⟨K, T⟩ ?_ .hits
    unfold Hnsw.search
    rw [T.searchInner_eq L]
  | searchFiltered query k efSearch predicate =>
    refine InStep.shows ⟨K, T⟩ ?_ .hits
    unfold Hnsw.searchFiltered searchFilteredWithCost
    rw [T.searchInner_eq L]
  | matching predicate => exact InStep.shows ⟨K, T⟩ (by rw [hmatching]) .ids
  | bruteForce query k => exact InStep.shows ⟨K, T⟩ (by rw [hbrute]) .hits
  | compact =>
    -- compaction reads the live rows and the parameters, and both are shared
    have hsame : g.compact = h.compact := by
      rw [compact_eq, compact_eq, hlive, hparams]
    have hkept := K.compact hfit
    simp only [Hnsw.act, hsame]
    cases hrun : h.compact with
    | ok r =>
      rw [hrun] at hkept
      exact ⟨⟨hkept, Twins.refl hkept.1.toLayout⟩, rfl⟩
    | error fault =>
      cases fault with
      | error e => exact ⟨⟨K, T⟩, rfl⟩
      | panic => exact rfl
      | fuel => exact rfl
  | encode => exact InStep.shows ⟨K, T⟩ (T.toBytes_eq L) .bytes

/-! ## Any run -/

/-- An operation, made straight on the graph held in memory. -/
def straight (h : Hnsw) (a : Bool × Act) : Outcome HnswError (Hnsw × Shown) := h.act a.2

/-- An operation, made after a round trip through the bytes where one is asked for. -/
def tripping (h : Hnsw) (a : Bool × Act) : Outcome HnswError (Hnsw × Shown) :=
  (if a.1 then h.reload else h).act a.2

theorem InStep.outputs_eq {h g : Hnsw} (I : InStep h g) {acts : List (Bool × Act)}
    (hfit : Along (next straight) (fun h a => h.ActFits a.2) h acts) :
    outputs tripping g acts = outputs straight h acts ∧
      outputs straight g acts = outputs straight h acts := by
  constructor <;> symm
  · refine Lockstep.outputs_eq (R := InStep) (fun s t a I hfits => ?_) I hfit
    obtain ⟨K, T⟩ := I
    unfold straight tripping
    cases a.1 with
    | false => exact InStep.act ⟨K, T⟩ a.2 hfits
    | true => exact InStep.act ⟨K, Relinked.trans T (K.twins T).reload⟩ a.2 hfits
  · exact Lockstep.outputs_eq (R := InStep) (fun s t a I hfits => I.act a.2 hfits) I hfit

/-- **Persistence is transparent.** Reloading the graph before any of the operations of a run
changes nothing that the run shows, and neither does anything past the live counts. -/
theorem round_trips_unseen (h : Hnsw) (W : WellFormed h) (C : Configured h)
    (acts : List (Bool × Act)) (hfit : Along (next straight) (fun h a => h.ActFits a.2) h acts) :
    outputs tripping h acts = outputs straight h acts ∧
      ∀ g, Twins h g → outputs straight g acts = outputs straight h acts :=
  ⟨(InStep.outputs_eq ⟨⟨W, C⟩, Twins.refl W.toLayout⟩ hfit).1,
    fun _ T => (InStep.outputs_eq ⟨⟨W, C⟩, T⟩ hfit).2⟩

omit [Arith] in
/-- Inserts around a delete and a compaction, with a reload before each operation. -/
def sampleActs : List (Bool × Act) :=
  [(true, .insert [F32.one] []), (true, .insert [F32.zero] [.null]), (true, .delete 0),
    (true, .search [F32.zero] 1 4), (true, .compact), (true, .insert [F32.one] []),
    (true, .encode)]

omit [Arith] in
theorem round_trips_unseen_sample :
    let h := @Hnsw.new Arith.ieee HnswParams.default
    outputs (@tripping Arith.ieee) h sampleActs = outputs (@straight Arith.ieee) h sampleActs ∧
      ∀ g, Twins h g →
        outputs (@straight Arith.ieee) g sampleActs = outputs (@straight Arith.ieee) h sampleActs :=
  @round_trips_unseen Arith.ieee _ (@WellFormed.new Arith.ieee _)
    (@Configured.new Arith.ieee _ (by decide) (by decide)) sampleActs (by decide +kernel)

end Hnsw

end Brindle
