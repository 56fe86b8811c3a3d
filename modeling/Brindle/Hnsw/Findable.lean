/-
# Brindle.Hnsw.Findable — when a search of a graph with live rows answers.

A search starts at the entry point and follows links, so it answers exactly when some layer's links
lead from the entry point to a live row: until the descent meets one it stays at the entry point, and
once it holds one it never loses it. Inserts and deletes keep that property only under a condition.
An insert links the new row to live rows it can reach, so with none alive the new row is left
unlinked, and it is found only if it became the entry point; a delete may tombstone the one live row
the entry point leads to. `answers_run` says that these are the only two ways to lose it.
-/
import Brindle.Hnsw.Runs

namespace Brindle

open Outcome (Ensures ensures_ok ensures_pure ensures_foldlM)
open Run (run Along After Throughout)

namespace Hnsw

/-- Some layer's links lead from the entry point to a live row. -/
def Findable (h : Hnsw) : Prop :=
  ∃ e, h.entryPoint = some e ∧ ∃ l ≤ h.maxLayer, ∃ x, h.Live x ∧ Reach (h.adj l) [e] x

variable [Arith]

/-! ## What a search answers -/

section Search

variable {h : Hnsw} {query : List F32}

/-- Where an unfiltered descent from `entry` has come to after the layers `done`. -/
def Descended (h : Hnsw) (entry : Nat) (done epIds : List Nat) : Prop :=
  (∃ x, h.Live x ∧ epIds = [x] ∧ ∃ l ∈ done, ∃ y, h.Live y ∧ Reach (h.adj l) [entry] y) ∨
    (epIds = [entry] ∧ ∀ l ∈ done, ∀ y, Reach (h.adj l) [entry] y → h.isDeleted y = true)

omit [Arith] in
/-- One layer more: a live row found is moved to, and none found means none is there. -/
theorem Descended.step {entry lc : Nat} {done epIds : List Nat} {w : List Cand}
    (hd : Descended h entry done epIds) (hw : Found h lc none epIds 1 w) :
    Descended h entry (done ++ [lc]) (match w.head? with
      | some nearest => [nearest.id]
      | none => epIds) := by
  cases w with
  | cons nearest rest =>
    have hmem : nearest ∈ nearest :: rest := List.mem_cons_self
    have hlive : h.Live nearest.id := ⟨hw.lt nearest hmem, (hw.admits nearest hmem).1⟩
    refine Or.inl ⟨nearest.id, hlive, rfl, ?_⟩
    rcases hd with ⟨x, -, -, l, hl, y, hy⟩ | ⟨rfl, -⟩
    · exact ⟨l, List.mem_append_left _ hl, y, hy⟩
    · exact ⟨lc, by simp, nearest.id, hlive, hw.reach nearest hmem⟩
  | nil =>
    have hnone := hw.complete rfl Nat.one_pos rfl
    rcases hd with ⟨x, hx, rfl, -⟩ | ⟨rfl, hdead⟩
    · -- a live row is reachable from itself, so the search cannot come back empty
      have hdel := hnone x (Reach.of_seed (by simp))
      rw [hx.2] at hdel
      cases hdel
    · refine Or.inr ⟨rfl, fun l hl => ?_⟩
      rcases List.mem_append.mp hl with hl | hl
      · exact hdead l hl
      · rw [List.mem_singleton.mp hl]
        exact hnone

theorem descend_unfiltered (H : InRange h) (hq : query.length = h.dim) {entry : Nat}
    (hentry : entry < h.n) (layers : List Nat) (tr : Traversal) :
    Ensures (h.descend query none layers [entry] [] tr) fun r =>
      (∀ x ∈ r.1, x < h.n) ∧ r.2.1 = [] ∧ Descended h entry layers r.1 := by
  unfold descend
  refine ensures_foldlM (fun done (r : List Nat × List Nat × Traversal) =>
    (∀ x ∈ r.1, x < h.n) ∧ r.2.1 = [] ∧ Descended h entry done r.1) _ ?_
    ⟨by simpa using hentry, rfl, Or.inr ⟨rfl, nofun⟩⟩
  rintro done lc rest ⟨eps, seeds, tr⟩ - ⟨heps, hseeds, hd⟩
  refine (searchLayer_spec H hq heps 1 lc tr).bind ?_
  rintro ⟨w, tr'⟩ hw
  refine ensures_pure.mpr ⟨?_, hseeds, hd.step hw⟩
  cases w with
  | nil => simpa using heps
  | cons nearest rest => simpa using hw.lt nearest List.mem_cons_self

omit [Arith] in
theorem mem_upperLayers {top l : Nat} : l ∈ upperLayers top ↔ 0 < l ∧ l ≤ top := by
  simp only [upperLayers, List.mem_reverse, List.mem_range'_1]
  omega

/-- **What a search answers.** Only live rows, and at least one exactly when the links lead from the
entry point to one. -/
theorem search_spec (H : InRange h) (hentry : ∀ e, h.entryPoint = some e → e < h.n)
    (hq : query.length = h.dim) {k : Nat} (hk : 1 ≤ k) (efSearch : Nat) :
    Ensures (h.search query k efSearch) fun r =>
      (∀ p ∈ r, h.Live p.2) ∧ (r ≠ [] ↔ h.Findable) := by
  unfold search searchInner
  cases he : h.entryPoint with
  | none =>
    refine ensures_pure.mpr ⟨nofun, fun hne => absurd rfl hne, ?_⟩
    rintro ⟨e, he', -⟩
    rw [he] at he'
    cases he'
  | some entry =>
    have hk' : k ≠ 0 := by omega
    simp only [if_neg hk', if_neg (not_not.mpr hq), isFiltered, Bool.false_eq_true, if_false,
      bind_assoc]
    refine (descend_unfiltered H hq (hentry entry he) (upperLayers h.maxLayer) _).bind ?_
    rintro ⟨eps, seeds, tr⟩ ⟨heps, rfl, hd⟩
    simp only [List.append_nil]
    refine (searchLayer_spec H hq heps (max efSearch k) 0 _).bind ?_
    rintro ⟨w, tr'⟩ hw
    refine ensures_pure.mpr ⟨?_, ?_⟩
    · intro p hp
      obtain ⟨c, hc, rfl⟩ := List.mem_map.mp hp
      have hc' := List.mem_of_mem_take hc
      exact ⟨hw.lt c hc', (hw.admits c hc').1⟩
    have hempty : (w.take k).map (fun c => (c.dist, c.id)) ≠ [] ↔ w ≠ [] := by
      simp [hk']
    rw [hempty]
    constructor
    · -- either navigation met a live node on its way down, or layer 0 was searched from the entry
      intro hne
      obtain ⟨c, hc⟩ := List.exists_mem_of_ne_nil w hne
      rcases hd with ⟨x, -, -, l, hl, y, hy, hreach⟩ | ⟨rfl, -⟩
      · exact ⟨entry, he, l, (mem_upperLayers.mp hl).2, y, hy, hreach⟩
      · exact ⟨entry, he, 0, Nat.zero_le _, c.id, ⟨hw.lt c hc, (hw.admits c hc).1⟩, hw.reach c hc⟩
    · rintro ⟨e, he', l, hl, x, hx, hreach⟩ hnil
      rw [he, Option.some.injEq] at he'
      subst he'
      have hpos : 0 < max efSearch k := by omega
      have hnone := hw.complete rfl hpos hnil
      have halive : ¬ h.isDeleted x = true := by simp [hx.2]
      rcases hd with ⟨y, hy, rfl, -⟩ | ⟨rfl, hdead⟩
      · have hdel := hnone y (Reach.of_seed (by simp))
        rw [hy.2] at hdel
        cases hdel
      · rcases Nat.eq_zero_or_pos l with rfl | hpos'
        · exact halive (hnone x hreach)
        · exact halive (hdead l (mem_upperLayers.mpr ⟨hpos', hl⟩) x hreach)

end Search

/-! ## The property -/

/-- While a row is live, every query of the graph's dimension is answered with a live row. -/
def Answers (h : Hnsw) : Prop :=
  (∃ x, h.Live x) → ∀ query k efSearch, query.length = h.dim → 1 ≤ k →
    Ensures (h.search query k efSearch) fun r => ∃ p ∈ r, h.Live p.2

theorem WellFormed.answers_iff {h : Hnsw} (W : WellFormed h) :
    h.Answers ↔ ((∃ x, h.Live x) → h.Findable) := by
  constructor
  · intro hans hlive
    have hq : (List.replicate h.dim F32.zero).length = h.dim := List.length_replicate ..
    obtain ⟨r, hr, p, hp, -⟩ := hans hlive _ 1 1 hq le_rfl
    obtain ⟨r', hr', -, hiff⟩ := search_spec W.toInRange W.entry_lt hq le_rfl 1
    rw [hr] at hr'
    cases hr'
    exact hiff.mp (List.ne_nil_of_mem hp)
  · intro hfind hlive query k efSearch hq hk
    refine (search_spec W.toInRange W.entry_lt hq hk efSearch).mono ?_
    rintro r ⟨hall, hiff⟩
    obtain ⟨p, hp⟩ := List.exists_mem_of_ne_nil r (hiff.mpr (hfind hlive))
    exact ⟨p, hp, hall p hp⟩

omit [Arith] in
/-- What keeps the graph answering. An insert needs a live row to link to, unless its row becomes
the entry point; a delete must leave the entry point some other live row, or leave none alive. -/
def KeepsFindable (h : Hnsw) : Edit → Prop
  | .insert vector _ level =>
    h.Accepts vector → h.n = 0 ∨ (∃ x, h.Live x) ∨ h.maxLayer < level
  | .delete id =>
    (∃ x, x ≠ id ∧ h.Live x) → ∃ e, h.entryPoint = some e ∧
      ∃ l ≤ h.maxLayer, ∃ x, x ≠ id ∧ h.Live x ∧ Reach (h.adj l) [e] x

/-! ## One change -/

section Insert

variable {h g : Hnsw} {vector : List F32} {attrs : List AttrValue} {level : Nat}
  {plan : List (Nat × List Nat)}

omit [Arith] in
/-- An insert changes the lists of live rows only. -/
theorem WellFormed.wired_frame (W : WellFormed h) (ha : h.Accepts vector)
    (hok : PlanOk (h.stored vector attrs level) h.n plan)
    (hw : Wired (h.stored vector attrs level) g h.n plan) {a : Nat} (hne : a ≠ h.n)
    (hdead : ¬ h.Live a) (l : Nat) : g.nbrs a l = h.nbrs a l := by
  have hkept : (h.stored vector attrs level).nbrs a l = h.nbrs a l :=
    W.toSound.stored_nbrs ha attrs a l
  rw [← hkept]
  apply hw.relinked.frame
  rintro ⟨selected, hmem, rfl | hsel⟩
  · exact hne rfl
  · have hlive := (hok.choice (l, selected) hmem).live a hsel
    rcases (W.toSound.stored_live ha attrs a).mp hlive with hlive | rfl
    · exact hdead hlive
    · exact hne rfl

omit [Arith] in
theorem WellFormed.settled_live (W : WellFormed h) (ha : h.Accepts vector)
    (hw : Wired (h.stored vector attrs level) g h.n plan) (a : Nat) :
    (settleEntry g h.n level).Live a ↔ h.Live a ∨ a = h.n := by
  rw [settleEntry_live, hw.relinked.live_iff]
  exact W.toSound.stored_live ha attrs a

omit [Arith] in
/-- The new row is found as soon as it is the entry point. -/
theorem WellFormed.findable_of_entry (W : WellFormed h) (ha : h.Accepts vector)
    (hw : Wired (h.stored vector attrs level) g h.n plan)
    (hentry : (settleEntry g h.n level).entryPoint = some h.n) :
    (settleEntry g h.n level).Findable :=
  ⟨h.n, hentry, 0, Nat.zero_le _, h.n, (W.settled_live ha hw h.n).mpr (Or.inr rfl),
    Reach.of_seed (by simp)⟩

omit [Arith] in
/-- With no row alive there is nothing to link to: no list changes. -/
theorem WellFormed.wired_unlinked (W : WellFormed h) (ha : h.Accepts vector)
    (hnone : ¬ ∃ x, h.Live x) (hok : PlanOk (h.stored vector attrs level) h.n plan)
    (hw : Wired (h.stored vector attrs level) g h.n plan) {e x l : Nat} (he : e < h.n)
    (hreach : Reach (g.adj l) [e] x) : x < h.n := by
  have hseed : ∀ s ∈ [e], s < h.n := by simpa using he
  refine Reach.of_closed (P := fun a => a < h.n) hseed (fun a _ halt b hb => ?_) hreach
  have hkept : g.nbrs a l = h.nbrs a l :=
    W.wired_frame ha hok hw halt.ne (fun hlive => hnone ⟨a, hlive⟩) l
  apply W.links_lt a l
  rw [← hkept]
  exact hb

omit [Arith] in
theorem WellFormed.settled_findable (W : WellFormed h) (ha : h.Accepts vector)
    (hok : PlanOk (h.stored vector attrs level) h.n plan)
    (hw : Wired (h.stored vector attrs level) g h.n plan)
    (hfind : (∃ x, h.Live x) → h.Findable) :
    (settleEntry g h.n level).Findable ↔ h.n = 0 ∨ (∃ x, h.Live x) ∨ h.maxLayer < level := by
  have hentry : g.entryPoint = h.entryPoint := hw.relinked.entryPoint_eq
  have htop : g.maxLayer = h.maxLayer := hw.relinked.maxLayer_eq
  cases he : h.entryPoint with
  | none =>
    have hzero : h.n = 0 := by
      by_contra hne
      obtain ⟨e, he', -⟩ := W.entry (Nat.pos_of_ne_zero hne)
      rw [he] at he'
      cases he'
    refine ⟨fun _ => Or.inl hzero, fun _ => W.findable_of_entry ha hw ?_⟩
    exact (settleEntry_none h.n level (hentry.trans he)).1
  | some e =>
    have hlt : e < h.n := W.entry_lt e he
    rcases settleEntry_some h.n level (hentry.trans he) with
      ⟨hle, hstay, hmax⟩ | ⟨hup, hmove, -⟩
    · rw [htop] at hle hmax
      constructor
      · rintro ⟨e', he', l, -, x, hx, hreach⟩
        rw [hstay, Option.some.injEq] at he'
        subst he'
        by_contra hnot
        have hnone : ¬ ∃ x, h.Live x := fun hlive => hnot (Or.inr (Or.inl hlive))
        have hreach' : Reach (g.adj l) [e] x := by
          have hadj : (settleEntry g h.n level).adj l = g.adj l :=
            funext fun a => settleEntry_nbrs g h.n level a l
          rwa [hadj] at hreach
        have hxlt := W.wired_unlinked ha hnone hok hw hlt hreach'
        rcases (W.settled_live ha hw x).mp hx with hlive | rfl
        · exact hnone ⟨x, hlive⟩
        · exact Nat.lt_irrefl _ hxlt
      · intro hcase
        have hlive : ∃ x, h.Live x := by
          rcases hcase with hzero | hlive | hup
          · omega
          · exact hlive
          · omega
        obtain ⟨e', he', l, hl, x, hx, hreach⟩ := hfind hlive
        rw [he, Option.some.injEq] at he'
        subst he'
        -- the lists of the dead rows are untouched, so the path still meets a live row
        have hkeep : ∀ a, ¬ (settleEntry g h.n level).Live a →
            (settleEntry g h.n level).adj l a = h.adj l a := by
          intro a hdead
          rw [W.settled_live ha hw, not_or] at hdead
          exact (settleEntry_nbrs g h.n level a l).trans
            (W.wired_frame ha hok hw hdead.2 hdead.1 l)
        obtain ⟨y, hy, hreach'⟩ := Reach.first_marked hkeep hreach
          ((W.settled_live ha hw x).mpr (Or.inl hx))
        exact ⟨e, hstay, l, hmax ▸ hl, y, hy, hreach'⟩
    · rw [htop] at hup
      exact ⟨fun _ => Or.inr (Or.inr hup), fun _ => W.findable_of_entry ha hw hmove⟩

end Insert

theorem editStep_insert {h h' : Hnsw} {vector : List F32} {attrs : List AttrValue} {level : Nat}
    {r : Except HnswError Nat} (hrun : h.insertDrawn vector attrs level = .ok (h', r)) :
    h.editStep (.insert vector attrs level) = .ok h' := by
  simp only [editStep, hrun, Outcome.ok_bind]
  rfl

theorem WellFormed.insert_answers {h h' : Hnsw} (W : WellFormed h) {vector : List F32}
    {attrs : List AttrValue} {level : Nat} (hfit : h.base h.n + (level + 1) < 2 ^ 32)
    (hans : h.Answers) (hstep : h.editStep (.insert vector attrs level) = .ok h') :
    h'.Answers ↔ h.KeepsFindable (.insert vector attrs level) := by
  unfold KeepsFindable
  by_cases ha : h.Accepts vector
  · obtain ⟨⟨g', r⟩, hrun, -, plan, g, hlevel, hok, hw, hset⟩ := W.insertDrawn_wired attrs ha hfit
    dsimp only at hset
    subst hset
    rw [editStep_insert hrun, Except.ok.injEq] at hstep
    subst hstep
    have W' := W.wired attrs ha hok hw hfit hlevel
    have hlive : ∃ x, (settleEntry g h.n level).Live x :=
      ⟨h.n, (W.settled_live ha hw h.n).mpr (Or.inr rfl)⟩
    rw [W'.answers_iff]
    rw [W.answers_iff] at hans
    have hiff := W.settled_findable ha hok hw hans
    exact ⟨fun hfind _ => hiff.mp (hfind hlive), fun hkeep _ => hiff.mpr (hkeep ha)⟩
  · obtain ⟨e, he⟩ := acceptVector_error ha
    have hrun : h.insertDrawn vector attrs level = .ok (h, .error e) := by
      unfold Hnsw.insertDrawn
      rw [he]
    rw [editStep_insert hrun, Except.ok.injEq] at hstep
    subst hstep
    exact ⟨fun _ ha' => absurd ha' ha, fun _ => hans⟩

theorem editStep_delete {h h' : Hnsw} {id : Nat} (hdel : h.delete id = .ok h') :
    h.editStep (.delete id) = .ok h' := by
  simp only [editStep, hdel]
  rfl

theorem WellFormed.delete_answers {h h' : Hnsw} (W : WellFormed h) {id : Nat}
    (hans : h.Answers) (hstep : h.editStep (.delete id) = .ok h') :
    h'.Answers ↔ h.KeepsFindable (.delete id) := by
  unfold KeepsFindable
  rw [W.answers_iff] at hans
  cases hdel : h.delete id with
  | error e =>
    have hsame : h.editStep (.delete id) = .ok h := by
      simp only [Hnsw.editStep, hdel]
      rfl
    rw [hsame, Except.ok.injEq] at hstep
    subst hstep
    -- an unknown id is not the id of a live row
    have hunknown : ∀ x, h.Live x → x ≠ id := by
      rintro x ⟨hx, -⟩ rfl
      rw [delete_eq_ok (W.deleted_len ▸ hx)] at hdel
      cases hdel
    rw [W.answers_iff]
    constructor
    · rintro hfind ⟨x, -, hx⟩
      obtain ⟨e, he, l, hl, y, hy, hreach⟩ := hfind ⟨x, hx⟩
      exact ⟨e, he, l, hl, y, hunknown y hy, hy, hreach⟩
    · intro _
      exact hans
  | ok g =>
    rw [editStep_delete hdel, Except.ok.injEq] at hstep
    subst hstep
    have W' := W.delete hdel
    obtain ⟨hid, hset⟩ := delete_eq hdel
    have hlive : ∀ x, g.Live x ↔ x ≠ id ∧ h.Live x := fun x => delete_live hdel x
    have hadj : ∀ l, g.adj l = h.adj l := fun l => by rw [hset]; rfl
    have hentry : g.entryPoint = h.entryPoint := by rw [hset]
    have htop : g.maxLayer = h.maxLayer := by rw [hset]
    have hiff : g.Findable ↔ ∃ e, h.entryPoint = some e ∧
        ∃ l ≤ h.maxLayer, ∃ x, x ≠ id ∧ h.Live x ∧ Reach (h.adj l) [e] x := by
      simp only [Findable, hadj, hentry, htop, hlive, and_assoc]
    rw [W'.answers_iff, hiff]
    simp only [hlive]

/-! ## Every run -/

/-- **When the answers stay non-empty.** A run of inserts and deletes whose layers fit a `u32` leaves
no state in which a live row exists and a query goes unanswered, iff every change of it keeps the
live rows findable. -/
theorem answers_run (params : HnswParams) (edits : List Edit)
    (hfit : Along editStep EditFits (Hnsw.new params) edits) :
    Throughout editStep Answers (Hnsw.new params) edits ↔
      Along editStep KeepsFindable (Hnsw.new params) edits := by
  refine Run.throughout_iff (I := WellFormed) (F := EditFits) ?_ ?_ (WellFormed.new params) ?_ hfit
  · intro h edit W hf
    exact W.editStep edit hf
  · intro h edit h' W hf hans hstep
    cases edit with
    | insert vector attrs level => exact W.insert_answers hf hans hstep
    | delete id => exact W.delete_answers hans hstep
  · -- nothing is live in the empty graph
    rintro ⟨x, hx, -⟩
    exact absurd hx (Nat.not_lt_zero x)

omit [Arith] in
/-- One row, deleted, and a second row on the same layer. -/
def orphanEdits : List Edit :=
  [.insert [F32.one] [] 0, .delete 0, .insert [F32.one] [] 0]

omit [Arith] in
theorem answers_run_orphan :
    Throughout (@editStep Arith.ieee) (@Answers Arith.ieee)
        (@Hnsw.new Arith.ieee HnswParams.default) orphanEdits ↔
      Along (@editStep Arith.ieee) KeepsFindable
        (@Hnsw.new Arith.ieee HnswParams.default) orphanEdits :=
  @answers_run Arith.ieee HnswParams.default orphanEdits (by decide +kernel)

omit [Arith] in
/-- The second row of `orphanEdits` is live, and a search for its own vector finds nothing. -/
theorem orphan_unanswered :
    Ensures (@run _ _ _ (@editStep Arith.ieee) (@Hnsw.new Arith.ieee HnswParams.default)
        orphanEdits) fun h =>
      h.Live 1 ∧ h.dim = 1 ∧ @search Arith.ieee h [F32.one] 1 64 = .ok [] := by
  decide +kernel

end Hnsw

end Brindle
