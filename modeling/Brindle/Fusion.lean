/-
# Brindle.Fusion — reciprocal rank fusion.

`fusion.rs`: `rrf` walks the ranked lists once, keeping for each id its score so far and the last list
that contributed to it, so that a repeat within a list is skipped; then it sorts. The scores are exact
rationals here. The map hands its entries out in some order, which is a parameter.
-/
import Brindle.Exact
import Brindle.Lib.RankFusion
import Mathlib.Algebra.Order.Field.Basic
import Mathlib.Data.List.Sort
import Mathlib.Tactic.Linarith
import Mathlib.Tactic.Positivity

namespace Brindle

open RankFusion (score)

/-- Error returned by fusion for malformed parameters. -/
inductive FusionError where
  | invalidK (k : F64)
  deriving DecidableEq, Repr

/-- `HashMap<u64, (f64, usize)>`: the accumulated score, and the last list that contributed. -/
abbrev ScoreMap := List (UInt64 × ℚ × Nat)

namespace ScoreMap

/-- `entry(id).and_modify(..).or_insert(..)`. -/
def credit (contribution : ℚ) (listIdx : Nat) (id : UInt64) : ScoreMap → ScoreMap
  | [] => [(id, contribution, listIdx)]
  | (key, score, lastList) :: rest =>
    if key = id then
      if lastList ≠ listIdx then (key, score + contribution, listIdx) :: rest
      else (key, score, lastList) :: rest
    else (key, score, lastList) :: credit contribution listIdx id rest

/-- What the map holds for `id`. -/
def get (id : UInt64) : ScoreMap → Option (ℚ × Nat)
  | [] => none
  | (key, value) :: rest => if key = id then some value else get id rest

end ScoreMap

namespace Fusion

/-- What position `pos` of a list is worth. -/
def contribution (k : ℚ) (pos : Nat) : ℚ := 1 / (k + (pos + 1 : Nat))

/-- One ranking, best first. -/
def creditRanking (k : ℚ) (scores : ScoreMap) (ranking : List UInt64) (listIdx : Nat) : ScoreMap :=
  ranking.zipIdx.foldl (fun scores (id, pos) => scores.credit (contribution k pos) listIdx id) scores

def accumulate (k : ℚ) (rankings : List (List UInt64)) : ScoreMap :=
  rankings.zipIdx.foldl (fun scores (ranking, listIdx) => creditRanking k scores ranking listIdx) []

/-- The order of the output: score descending, then id ascending. -/
def NotAfter (a b : UInt64 × ℚ) : Prop := b.2 < a.2 ∨ a.2 = b.2 ∧ a.1 ≤ b.1

instance : DecidableRel NotAfter := fun _ _ => inferInstanceAs (Decidable (_ ∨ _))

/-- Fuse ranked id lists; `iterate` is the order the map hands its entries out in. -/
def rrf (iterate : ScoreMap → ScoreMap) (rankings : List (List UInt64)) (k : F64) :
    Except FusionError (List (UInt64 × ℚ)) :=
  if !k.isFinite || k.lt F64.zero then .error (.invalidK k)
  else
    let scores := accumulate k.toRat rankings
    let fused := (iterate scores).map fun entry => (entry.1, entry.2.1)
    .ok (fused.insertionSort NotAfter)

end Fusion

/-! ## The map -/

namespace ScoreMap

/-- The keys of the map. -/
def keys (scores : ScoreMap) : List UInt64 := scores.map Prod.fst

theorem get_credit_self (c : ℚ) (listIdx : Nat) (id : UInt64) (scores : ScoreMap) :
    (scores.credit c listIdx id).get id =
      match scores.get id with
      | none => some (c, listIdx)
      | some (score, lastList) =>
        some (if lastList ≠ listIdx then (score + c, listIdx) else (score, lastList)) := by
  induction scores with
  | nil => simp [credit, get]
  | cons entry rest ih =>
    obtain ⟨key, score, lastList⟩ := entry
    by_cases hkey : key = id
    · simp only [credit, get, hkey, if_true]
      split_ifs <;> simp [get]
    · simp only [credit, get, hkey, if_false]
      exact ih

theorem get_credit_of_ne (c : ℚ) (listIdx : Nat) {id other : UInt64} (hne : other ≠ id)
    (scores : ScoreMap) : (scores.credit c listIdx id).get other = scores.get other := by
  induction scores with
  | nil => simp [credit, get, hne.symm]
  | cons entry rest ih =>
    obtain ⟨key, score, lastList⟩ := entry
    by_cases hkey : key = id
    · have hother : key ≠ other := fun h => hne (h.symm.trans hkey)
      simp only [credit, hkey, if_true]
      split_ifs <;> simp [get, hne.symm]
    · simp only [credit, get, hkey, if_false, ih]

theorem mem_keys_credit {c : ℚ} {listIdx : Nat} {id other : UInt64} {scores : ScoreMap} :
    other ∈ (scores.credit c listIdx id).keys ↔ other = id ∨ other ∈ scores.keys := by
  induction scores with
  | nil => simp [credit, keys]
  | cons entry rest ih =>
    obtain ⟨key, score, lastList⟩ := entry
    simp only [keys] at ih
    by_cases hkey : key = id
    · simp only [credit, hkey, if_true]
      split_ifs <;> simp [keys]
    · simp only [credit, hkey, if_false, keys, List.map_cons, List.mem_cons, ih]
      tauto

theorem nodup_credit {c : ℚ} {listIdx : Nat} {id : UInt64} {scores : ScoreMap}
    (h : scores.keys.Nodup) : (scores.credit c listIdx id).keys.Nodup := by
  induction scores with
  | nil => exact List.nodup_singleton id
  | cons entry rest ih =>
    obtain ⟨key, score, lastList⟩ := entry
    obtain ⟨hfresh, hrest⟩ := List.nodup_cons.mp h
    by_cases hkey : key = id
    · simp only [credit, hkey, if_true]
      rw [hkey] at hfresh
      split_ifs <;> exact List.nodup_cons.mpr ⟨hfresh, hrest⟩
    · simp only [credit, hkey, if_false]
      refine List.nodup_cons.mpr ⟨fun hmem => ?_, ih hrest⟩
      exact hfresh ((mem_keys_credit.mp hmem).resolve_left hkey)

theorem mem_iff_get {scores : ScoreMap} (h : scores.keys.Nodup) {id : UInt64} {value : ℚ × Nat} :
    (id, value) ∈ scores ↔ scores.get id = some value := by
  induction scores with
  | nil => simp [get]
  | cons entry rest ih =>
    obtain ⟨key, value'⟩ := entry
    obtain ⟨hfresh, hrest⟩ := List.nodup_cons.mp h
    by_cases hkey : key = id
    · have hnone : (id, value) ∉ rest := fun hmem =>
        hfresh (hkey ▸ List.mem_map.mpr ⟨_, hmem, rfl⟩)
      simp [get, hkey, hnone, eq_comm]
    · have hne : id ≠ key := fun h => hkey h.symm
      simp [get, hkey, hne, ih hrest]

end ScoreMap

namespace Fusion

/-! ## The walk -/

/-- The rest of a ranking credits an id at its first position, unless the ranking has done so. -/
theorem get_foldl_credit (k : ℚ) (listIdx : Nat) (id : UInt64) (ranking : List UInt64) (pos : Nat)
    (scores : ScoreMap) :
    ((ranking.zipIdx pos).foldl
      (fun (scores : ScoreMap) (id, pos) => scores.credit (contribution k pos) listIdx id)
        scores).get id =
      match scores.get id with
      | none =>
        if id ∈ ranking then some (contribution k (pos + ranking.idxOf id), listIdx) else none
      | some (score, lastList) =>
        if id ∈ ranking ∧ lastList ≠ listIdx then
          some (score + contribution k (pos + ranking.idxOf id), listIdx)
        else some (score, lastList) := by
  induction ranking generalizing pos scores with
  | nil => cases hget : scores.get id <;> simp [hget]
  | cons x rest ih =>
    rw [List.zipIdx_cons, List.foldl_cons, ih]
    by_cases hx : x = id
    · -- the first position: from here on this list is the last that credited it
      subst hx
      rw [ScoreMap.get_credit_self]
      cases hget : scores.get x with
      | none => simp
      | some value =>
        obtain ⟨score, lastList⟩ := value
        by_cases hlast : lastList = listIdx <;> simp [hlast]
    · have hidx : (x :: rest).idxOf id = rest.idxOf id + 1 := by simp [hx]
      have hpos : pos + 1 + rest.idxOf id = pos + (rest.idxOf id + 1) := by omega
      have hmem : id ∈ x :: rest ↔ id ∈ rest := by simp [Ne.symm hx]
      rw [ScoreMap.get_credit_of_ne _ _ (Ne.symm hx), hidx, hpos]
      simp only [hmem]

/-- A ranking credits an id once, at its first position. -/
theorem get_creditRanking (k : ℚ) (listIdx : Nat) (id : UInt64) (ranking : List UInt64)
    (scores : ScoreMap) : (creditRanking k scores ranking listIdx).get id =
      match scores.get id with
      | none => if id ∈ ranking then some (contribution k (ranking.idxOf id), listIdx) else none
      | some (score, lastList) =>
        if id ∈ ranking ∧ lastList ≠ listIdx then
          some (score + contribution k (ranking.idxOf id), listIdx)
        else some (score, lastList) := by
  have h := get_foldl_credit k listIdx id ranking 0 scores
  rw [Nat.zero_add] at h
  exact h

theorem nodup_creditRanking {k : ℚ} {listIdx : Nat} (ranking : List UInt64) (pos : Nat)
    {scores : ScoreMap} (h : scores.keys.Nodup) :
    ScoreMap.keys ((ranking.zipIdx pos).foldl
      (fun (scores : ScoreMap) (id, pos) => scores.credit (contribution k pos) listIdx id)
        scores) |>.Nodup := by
  induction ranking generalizing pos scores with
  | nil => exact h
  | cons x rest ih =>
    rw [List.zipIdx_cons, List.foldl_cons]
    exact ih (pos + 1) (ScoreMap.nodup_credit h)

/-- The lists not walked yet add their contributions to what is there. -/
theorem get_rankings (k : ℚ) (id : UInt64) (rankings : List (List UInt64)) (listIdx : Nat)
    {scores : ScoreMap} (hlast : ∀ value ∈ scores.get id, value.2 < listIdx) :
    (((rankings.zipIdx listIdx).foldl
      (fun scores (ranking, listIdx) => creditRanking k scores ranking listIdx) scores).get id).map
        Prod.fst =
      match scores.get id with
      | none =>
        if ∃ ranking ∈ rankings, id ∈ ranking then some (score (contribution k) rankings id)
        else none
      | some (before, _) => some (before + score (contribution k) rankings id) := by
  induction rankings generalizing listIdx scores with
  | nil =>
    cases hget : scores.get id with
    | none => simp [hget]
    | some value => simp [hget]
  | cons ranking rest ih =>
    have hstep := get_creditRanking k listIdx id ranking scores
    have hlast' : ∀ value ∈ (creditRanking k scores ranking listIdx).get id,
        value.2 < listIdx + 1 := by
      intro value hvalue
      rw [hstep] at hvalue
      cases hget : scores.get id with
      | none =>
        rw [hget] at hvalue
        dsimp only at hvalue
        split_ifs at hvalue
        · cases hvalue
          exact Nat.lt_succ_self listIdx
        · cases hvalue
      | some before =>
        have hbefore := hlast before hget
        rw [hget] at hvalue
        dsimp only at hvalue
        split_ifs at hvalue
        · cases hvalue
          exact Nat.lt_succ_self listIdx
        · cases hvalue
          exact Nat.lt_succ_of_lt hbefore
    rw [List.zipIdx_cons, List.foldl_cons, ih (listIdx + 1) hlast', hstep]
    cases hget : scores.get id with
    | none =>
      by_cases hmem : id ∈ ranking
      · simp [hmem, RankFusion.score_cons]
      · simp [hmem, RankFusion.score_cons]
    | some before =>
      have hne : before.2 ≠ listIdx := (hlast before hget).ne
      by_cases hmem : id ∈ ranking
      · simp [hmem, hne, RankFusion.score_cons, add_assoc]
      · simp [hmem, RankFusion.score_cons]

/-- **What the walk accumulates.** -/
theorem get_accumulate (k : ℚ) (rankings : List (List UInt64)) (id : UInt64) :
    ((accumulate k rankings).get id).map Prod.fst =
      if ∃ ranking ∈ rankings, id ∈ ranking then some (score (contribution k) rankings id)
      else none :=
  get_rankings k id rankings 0 nofun

theorem nodup_rankings {k : ℚ} (rankings : List (List UInt64)) (listIdx : Nat) {scores : ScoreMap}
    (h : scores.keys.Nodup) : ScoreMap.keys ((rankings.zipIdx listIdx).foldl
      (fun scores (ranking, listIdx) => creditRanking k scores ranking listIdx) scores) |>.Nodup := by
  induction rankings generalizing listIdx scores with
  | nil => exact h
  | cons ranking rest ih =>
    rw [List.zipIdx_cons, List.foldl_cons]
    exact ih (listIdx + 1) (nodup_creditRanking ranking 0 h)

theorem nodup_accumulate (k : ℚ) (rankings : List (List UInt64)) :
    (accumulate k rankings).keys.Nodup :=
  nodup_rankings rankings 0 List.nodup_nil

/-! ## The output -/

/-- The strict order of the output. -/
def Before (a b : UInt64 × ℚ) : Prop := b.2 < a.2 ∨ a.2 = b.2 ∧ a.1 < b.1

instance : Std.Total NotAfter where
  total a b := by
    rcases lt_trichotomy a.2 b.2 with h | h | h
    · exact .inr (.inl h)
    · exact (UInt64.le_total a.1 b.1).imp (fun hle => .inr ⟨h, hle⟩) fun hle => .inr ⟨h.symm, hle⟩
    · exact .inl (.inl h)

instance : IsTrans (UInt64 × ℚ) NotAfter where
  trans a b c := by
    rintro (hab | ⟨hab, hle⟩) (hbc | ⟨hbc, hle'⟩)
    · exact .inl (hbc.trans hab)
    · exact .inl (hbc ▸ hab)
    · exact .inl (hab ▸ hbc)
    · exact .inr ⟨hab.trans hbc, UInt64.le_trans hle hle'⟩

/-- A weight of reciprocal ranks is positive and falls with the position. -/
theorem contribution_pos {k : ℚ} (hk : 0 ≤ k) (pos : Nat) : 0 < contribution k pos := by
  unfold contribution
  positivity

theorem contribution_strictAnti {k : ℚ} (hk : 0 ≤ k) : StrictAnti (contribution k) := by
  intro i j hij
  unfold contribution
  have hlt : ((i + 1 : Nat) : ℚ) < (j + 1 : Nat) := by exact_mod_cast Nat.succ_lt_succ hij
  have hpos : (0 : ℚ) < k + (i + 1 : Nat) := by positivity
  exact one_div_lt_one_div_of_lt hpos (by linarith)

section Output

variable {iterate : ScoreMap → ScoreMap} (hiterate : ∀ scores, (iterate scores).Perm scores)

/-- What is sorted: the entries without the bookkeeping. -/
def unsorted (iterate : ScoreMap → ScoreMap) (k : ℚ) (rankings : List (List UInt64)) :
    List (UInt64 × ℚ) :=
  (iterate (accumulate k rankings)).map fun entry => (entry.1, entry.2.1)

include hiterate

theorem mem_unsorted {k : ℚ} {rankings : List (List UInt64)} {row : UInt64 × ℚ} :
    row ∈ unsorted iterate k rankings ↔
      (∃ ranking ∈ rankings, row.1 ∈ ranking) ∧ row.2 = score (contribution k) rankings row.1 := by
  have hget := get_accumulate k rankings row.1
  have hmem : row ∈ unsorted iterate k rankings ↔
      ((accumulate k rankings).get row.1).map Prod.fst = some row.2 := by
    rw [unsorted, List.mem_map, Option.map_eq_some_iff]
    constructor
    · intro h
      obtain ⟨entry, hentry, rfl⟩ := h
      refine ⟨entry.2, ?_, rfl⟩
      exact (ScoreMap.mem_iff_get (nodup_accumulate k rankings)).mp
        ((hiterate _).mem_iff.mp hentry)
    · intro h
      obtain ⟨value, hvalue, hscore⟩ := h
      have hentry := (ScoreMap.mem_iff_get (nodup_accumulate k rankings)).mpr hvalue
      exact ⟨(row.1, value), (hiterate _).mem_iff.mpr hentry, Prod.ext rfl hscore⟩
  rw [hmem, hget]
  split_ifs with hlisted
  · rw [Option.some.injEq]
    exact ⟨fun h => ⟨hlisted, h.symm⟩, fun h => h.2.symm⟩
  · constructor
    · intro h
      cases h
    · intro h
      exact absurd h.1 hlisted

theorem nodup_unsorted (k : ℚ) (rankings : List (List UInt64)) :
    ((unsorted iterate k rankings).map Prod.fst).Nodup := by
  have hkeys : (unsorted iterate k rankings).map Prod.fst =
      (iterate (accumulate k rankings)).map Prod.fst := by
    rw [unsorted, List.map_map]
    rfl
  rw [hkeys]
  exact ((hiterate _).map Prod.fst).nodup_iff.mpr (nodup_accumulate k rankings)

omit hiterate in
/-- Ids that are all different are sorted strictly. -/
theorem sorted_before {rows : List (UInt64 × ℚ)} (hnodup : (rows.map Prod.fst).Nodup) :
    (rows.insertionSort NotAfter).Pairwise Before := by
  have hperm := List.perm_insertionSort NotAfter rows
  have hdistinct : (rows.insertionSort NotAfter).Pairwise fun a b => a.1 ≠ b.1 :=
    List.pairwise_map.mp ((hperm.map Prod.fst).nodup_iff.mpr hnodup)
  refine ((List.pairwise_insertionSort NotAfter rows).and hdistinct).imp fun {a b} h => ?_
  exact h.1.imp id fun hle => ⟨hle.1, UInt64.lt_of_le_of_ne hle.2 h.2⟩

omit hiterate in
theorem rrf_run (rankings : List (List UInt64)) {k : F64} (hfinite : k.isFinite)
    (hsign : k.lt F64.zero = false) : rrf iterate rankings k =
      .ok ((unsorted iterate k.toRat rankings).insertionSort NotAfter) := by
  unfold rrf
  rw [hfinite, hsign]
  rfl

/-- What fusion returns: the entries of the map, each id once, sorted. -/
theorem rrf_rows (rankings : List (List UInt64)) {k : F64} (hfinite : k.isFinite)
    (hsign : k.lt F64.zero = false) : ∃ fused, rrf iterate rankings k = .ok fused ∧
      (fused.map Prod.fst).Nodup ∧
      (∀ row, row ∈ fused ↔ (∃ ranking ∈ rankings, row.1 ∈ ranking) ∧
        row.2 = score (contribution k.toRat) rankings row.1) ∧
      fused.Pairwise Before := by
  have hunsorted := nodup_unsorted hiterate k.toRat rankings
  refine ⟨_, rrf_run rankings hfinite hsign, ?_, fun row => ?_, sorted_before hunsorted⟩
  · exact ((List.perm_insertionSort NotAfter (unsorted iterate k.toRat rankings)).map
      Prod.fst).nodup_iff.mpr hunsorted
  · rw [List.mem_insertionSort]
    exact mem_unsorted hiterate

end Output

/-- **Reciprocal rank fusion.** Whatever order the map hands its entries out in: every id of the union
is returned once, with the sum of its contributions, score descending and then id ascending; and an id
ahead of another in every list that holds the other, and strictly better in one, comes before it. -/
theorem rrf_eq {iterate : ScoreMap → ScoreMap} (hiterate : ∀ scores, (iterate scores).Perm scores)
    (rankings : List (List UInt64)) {k : F64} (hfinite : k.isFinite) (hsign : k.lt F64.zero = false) :
    ∃ fused, rrf iterate rankings k = .ok fused ∧
      (fused.map Prod.fst).Nodup ∧
      (∀ id, id ∈ fused.map Prod.fst ↔ ∃ ranking ∈ rankings, id ∈ ranking) ∧
      (∀ row ∈ fused, row.2 = ((rankings.filter fun ranking => decide (row.1 ∈ ranking)).map
        fun ranking => 1 / (k.toRat + (ranking.idxOf row.1 + 1 : Nat))).sum) ∧
      fused.Pairwise Before ∧
      ∀ a b, (∃ ranking ∈ rankings, b ∈ ranking) →
        (∀ ranking ∈ rankings, b ∈ ranking → a ∈ ranking ∧ ranking.idxOf a ≤ ranking.idxOf b) →
        (∃ ranking ∈ rankings, a ∈ ranking ∧ (b ∈ ranking → ranking.idxOf a < ranking.idxOf b)) →
        [a, b].Sublist (fused.map Prod.fst) := by
  have hk := F64.toRat_nonneg hfinite hsign
  obtain ⟨fused, hrun, hids, hmem, hsorted⟩ := rrf_rows hiterate rankings hfinite hsign
  refine ⟨fused, hrun, hids, fun id => ?_, fun row hrow => ((hmem row).mp hrow).2, hsorted,
    fun a b hb hahead honce => ?_⟩
  · rw [List.mem_map]
    constructor
    · intro h
      obtain ⟨row, hrow, rfl⟩ := h
      exact ((hmem row).mp hrow).1
    · exact fun h => ⟨(id, score (contribution k.toRat) rankings id), (hmem _).mpr ⟨h, rfl⟩, rfl⟩
  · have hbetter := RankFusion.score_lt_of_dominates (contribution_pos hk)
      (contribution_strictAnti hk) hahead honce
    have ha : ∃ ranking ∈ rankings, a ∈ ranking := by
      obtain ⟨ranking, hranking, ha, -⟩ := honce
      exact ⟨ranking, hranking, ha⟩
    have hpair := RankFusion.pair_sublist_of_pairwise hsorted ((hmem (a, _)).mpr ⟨ha, rfl⟩)
      ((hmem (b, _)).mpr ⟨hb, rfl⟩) (fun h => hbetter.ne (congrArg Prod.snd h).symm)
      (fun h => h.elim (fun hlt => lt_asymm hlt hbetter) fun heq => hbetter.ne heq.1)
    exact hpair.map Prod.fst

/-- Two rankings at `k = 60`, with the map read backwards: 20, second and first, comes before 30,
third and absent. -/
theorem rrf_eq_sample : ∃ fused,
    rrf List.reverse [[10, 20, 30], [20, 40, 10]] ⟨0x404E000000000000⟩ = .ok fused ∧
      (fused.map Prod.fst).Nodup ∧ [20, 30].Sublist (fused.map Prod.fst) := by
  obtain ⟨fused, hrun, hnodup, -, -, -, hahead⟩ := rrf_eq List.reverse_perm
    [[10, 20, 30], [20, 40, 10]] (show F64.isFinite ⟨0x404E000000000000⟩ by decide) (by decide)
  exact ⟨fused, hrun, hnodup, hahead 20 30 (by decide) (by decide) (by decide)⟩

end Fusion

end Brindle
