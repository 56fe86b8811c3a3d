/-
# Brindle.Hnsw.Selection — which neighbors the heuristic selects.

`select_neighbors_heuristic` makes two passes over the sorted candidates with one accumulator: a greedy
one that keeps a candidate unless a node kept before is strictly nearer to it than the base is, and one
that fills up with the nearest leftovers. Neither needs the graph to be sound, only the candidates'
vectors to be stored, and the comparison is the total order of the distances, so a NaN is a distance
like any other.
-/
import Brindle.Hnsw.InsertSpec
import Brindle.Lib.Greedy

namespace Brindle

open Outcome (slice)
open Buffer (window_length slice_eq)

namespace Hnsw

variable [Arith] {h : Hnsw}

/-- The vector of `id` is stored: the source can read it. -/
def HasVector (h : Hnsw) (id : Nat) : Prop := id * h.dim + h.dim ≤ h.vectors.length

/-- Whether `r` is strictly nearer to the candidate than the base is. -/
def nearer (h : Hnsw) (cand r : Cand) : Bool :=
  (h.metric.value (h.vec cand.id) (h.vec r.id)).lt cand.dist

omit [Arith] in
theorem HasVector.vector_eq {id : Nat} (hid : h.HasVector id) : h.vector id = .ok (h.vec id) :=
  slice_eq hid

omit [Arith] in
theorem HasVector.vec_length {id : Nat} (hid : h.HasVector id) : (h.vec id).length = h.dim :=
  window_length hid

theorem keepsDiversity_eq {cand : Cand} {kept : List Cand} (hcand : h.HasVector cand.id)
    (hkept : ∀ r ∈ kept, h.HasVector r.id) :
    h.keepsDiversity cand (kept.map Cand.id) = .ok !kept.any (h.nearer cand) := by
  induction kept with
  | nil => rfl
  | cons r kept ih =>
    have hr := hkept r List.mem_cons_self
    have hdist := distance_ok h (hcand.vec_length.trans hr.vec_length.symm)
    rw [List.map_cons, keepsDiversity]
    simp only [hcand.vector_eq, hr.vector_eq, Outcome.ok_bind, hdist, List.any_cons]
    cases hnear : (h.metric.value (h.vec cand.id) (h.vec r.id)).lt cand.dist with
    | true =>
      have hnear' : h.nearer cand r = true := hnear
      rw [hnear', if_pos rfl]
      rfl
    | false =>
      have hnear' : h.nearer cand r = false := hnear
      rw [hnear', Bool.false_or, if_neg Bool.false_ne_true]
      exact ih fun x hx => hkept x (List.mem_cons_of_mem r hx)

/-- The greedy pass takes the first `m` of what the greedy rule keeps. -/
theorem selectDiverse_eq {m : Nat} {cands kept : List Cand} (hcands : ∀ c ∈ cands, h.HasVector c.id)
    (hkept : ∀ r ∈ kept, h.HasVector r.id) (hroom : kept.length ≤ m) :
    h.selectDiverse m cands (kept.map Cand.id) =
      .ok (((Greedy.keep h.nearer cands kept).take m).map Cand.id) := by
  induction cands generalizing kept with
  | nil =>
    rw [Greedy.keep, List.take_of_length_le hroom]
    rfl
  | cons cand rest ih =>
    have hrest : ∀ c ∈ rest, h.HasVector c.id := fun c hc => hcands c (List.mem_cons_of_mem cand hc)
    rw [selectDiverse, List.length_map]
    split_ifs with hfull
    · -- the accumulator is full, and the rule only ever adds behind it
      obtain ⟨more, hmore, -⟩ := Greedy.keep_eq_append h.nearer (cand :: rest) kept
      rw [hmore, List.take_append_of_le_length hfull, List.take_of_length_le hroom]
      rfl
    · rw [keepsDiversity_eq (hcands cand List.mem_cons_self) hkept, Outcome.ok_bind, Greedy.keep]
      cases hany : kept.any (h.nearer cand) with
      | true => exact ih hrest hkept hroom
      | false =>
        have hkept' : ∀ r ∈ kept ++ [cand], h.HasVector r.id := by
          intro r hr
          rcases List.mem_append.mp hr with hr | hr
          · exact hkept r hr
          · rw [List.mem_singleton.mp hr]
            exact hcands cand List.mem_cons_self
        have hroom' : (kept ++ [cand]).length ≤ m := by
          rw [List.length_append, List.length_singleton]
          omega
        have hrec := ih hrest hkept' hroom'
        rw [List.map_append, List.map_singleton] at hrec
        exact hrec

omit [Arith] in
/-- The backfill pass fills the room left with the first leftovers. -/
theorem backfill_eq {m : Nat} {cands taken : List Cand} (hnodup : (cands.map Cand.id).Nodup) :
    backfill m cands (taken.map Cand.id) = taken.map Cand.id ++
      ((cands.filter fun c => !(taken.map Cand.id).contains c.id).take
        (m - taken.length)).map Cand.id := by
  induction cands generalizing taken with
  | nil => simp [backfill]
  | cons cand rest ih =>
    obtain ⟨hfresh, hrest⟩ := List.nodup_cons.mp hnodup
    rw [backfill, List.length_map]
    split_ifs with hfull hmem
    · have hnone : m - taken.length = 0 := by omega
      rw [hnone, List.take_zero, List.map_nil, List.append_nil]
    · rw [ih hrest, List.filter_cons_of_neg (by simpa using hmem)]
    · -- the candidate is taken, and no later one has its id
      obtain ⟨room, hroom⟩ : ∃ room, m - taken.length = room + 1 := ⟨m - taken.length - 1, by omega⟩
      have hlater : ∀ c ∈ rest, (!((taken ++ [cand]).map Cand.id).contains c.id) =
          !(taken.map Cand.id).contains c.id := by
        intro c hc
        have hne : c.id ≠ cand.id := fun heq => hfresh (heq ▸ List.mem_map_of_mem hc)
        simp [hne]
      have hleft : m - (taken ++ [cand]).length = room := by
        rw [List.length_append, List.length_singleton]
        omega
      have hrec := @ih (taken ++ [cand]) hrest
      rw [hleft, List.filter_congr hlater, List.map_append, List.map_singleton] at hrec
      rw [hrec, List.filter_cons_of_pos (by simpa using hmem), hroom, List.take_succ_cons,
        List.map_cons, List.append_assoc, List.singleton_append]

omit [Arith] in
/-- Ids tell the candidates apart, so a leftover by id is a leftover. -/
theorem filter_leftovers {cands taken : List Cand} (hsub : taken ⊆ cands)
    (hnodup : (cands.map Cand.id).Nodup) :
    (cands.filter fun c => !(taken.map Cand.id).contains c.id) = Greedy.remaining cands taken := by
  refine List.filter_congr fun c hc => congrArg not ?_
  rw [Bool.eq_iff_iff, List.contains_iff_mem, List.contains_iff_mem]
  constructor
  · intro hid
    obtain ⟨d, hd, heq⟩ := List.mem_map.mp hid
    rwa [← List.inj_on_of_nodup_map hnodup (hsub hd) hc heq]
  · exact fun hmem => List.mem_map_of_mem hmem

omit [Arith] in
theorem sorted_strict {candidates : List Cand} (hnodup : (candidates.map Cand.id).Nodup) :
    (candidates.insertionSort (· ≤ ·)).Pairwise (· < ·) := by
  have hperm := List.perm_insertionSort (· ≤ ·) candidates
  have hdistinct : (candidates.insertionSort (· ≤ ·)).Nodup :=
    hperm.nodup_iff.mpr hnodup.of_map
  exact (List.pairwise_insertionSort (· ≤ ·) candidates).imp₂ (fun a b hle hne => lt_of_le_of_ne hle hne)
    hdistinct

/-! ## The two passes -/

/-- The candidates the greedy rule keeps, were there no bound on their number. -/
def unblocked (h : Hnsw) (candidates : List Cand) : List Cand :=
  Greedy.keep h.nearer (candidates.insertionSort (· ≤ ·)) []

/-- The part of the selection the greedy pass makes. -/
def diverse (h : Hnsw) (candidates : List Cand) (m : Nat) : List Cand := (h.unblocked candidates).take m

/-- The part of the selection that fills it up. -/
def leftovers (h : Hnsw) (candidates : List Cand) (m : Nat) : List Cand :=
  (Greedy.remaining (candidates.insertionSort (· ≤ ·)) (h.diverse candidates m)).take
    (m - (h.diverse candidates m).length)

section Passes

variable {candidates : List Cand} {m : Nat} (hnodup : (candidates.map Cand.id).Nodup)

theorem diverse_sublist (h : Hnsw) (candidates : List Cand) (m : Nat) :
    (h.diverse candidates m).Sublist (candidates.insertionSort (· ≤ ·)) :=
  (List.take_sublist m _).trans (Greedy.keep_nil_sublist h.nearer _)

theorem leftovers_sublist (h : Hnsw) (candidates : List Cand) (m : Nat) :
    (h.leftovers candidates m).Sublist (candidates.insertionSort (· ≤ ·)) :=
  (List.take_sublist _ _).trans List.filter_sublist

include hnodup

theorem mem_unblocked_iff (c : Cand) : c ∈ h.unblocked candidates ↔
    c ∈ candidates ∧ ∀ r ∈ h.unblocked candidates, r < c → h.nearer c r = false := by
  have hrule := Greedy.mem_keep_iff h.nearer (sorted_strict hnodup) c
  rw [List.mem_insertionSort] at hrule
  exact hrule

/-- The two passes select different candidates, none twice. -/
theorem selected_nodup : ((h.diverse candidates m ++ h.leftovers candidates m).map Cand.id).Nodup := by
  have hdistinct : (h.diverse candidates m ++ h.leftovers candidates m).Nodup := by
    refine List.nodup_append.mpr
      ⟨(h.diverse_sublist candidates m).nodup (sorted_strict hnodup).nodup,
        (h.leftovers_sublist candidates m).nodup (sorted_strict hnodup).nodup, ?_⟩
    intro a ha b hb hab
    exact (Greedy.mem_remaining.mp (List.mem_of_mem_take hb)).2 (hab ▸ ha)
  refine hdistinct.map_on fun a ha b hb hid => ?_
  have hin : ∀ c ∈ h.diverse candidates m ++ h.leftovers candidates m, c ∈ candidates := by
    intro c hc
    rcases List.mem_append.mp hc with hc | hc
    · exact (List.mem_insertionSort (· ≤ ·)).mp ((h.diverse_sublist candidates m).subset hc)
    · exact (List.mem_insertionSort (· ≤ ·)).mp ((h.leftovers_sublist candidates m).subset hc)
  exact List.inj_on_of_nodup_map hnodup (hin a ha) (hin b hb) hid

/-- As many are selected as the bound and the candidates allow. -/
theorem selected_length :
    (h.diverse candidates m ++ h.leftovers candidates m).length = min m candidates.length := by
  have hcount := Greedy.remaining_length (sorted_strict hnodup).nodup
    (h.diverse_sublist candidates m)
  have hbound : (h.diverse candidates m).length ≤ m := List.length_take_le _ _
  rw [List.length_insertionSort] at hcount
  rw [List.length_append, leftovers, List.length_take]
  omega

/-- Nothing is smaller than the first candidate, so nothing kept it out. -/
theorem diverse_head (hm : 1 ≤ m) (hne : candidates ≠ []) :
    ∃ least rest, h.diverse candidates m = least :: rest ∧ ∀ c ∈ candidates, least ≤ c := by
  obtain ⟨k, rfl⟩ : ∃ k, m = k + 1 := ⟨m - 1, by omega⟩
  cases hsorted : candidates.insertionSort (· ≤ ·) with
  | nil =>
    have hnil := List.length_insertionSort (· ≤ ·) candidates
    rw [hsorted] at hnil
    exact absurd (List.length_eq_zero_iff.mp hnil.symm) hne
  | cons least others =>
    obtain ⟨more, hmore⟩ := Greedy.keep_cons_head h.nearer least others
    refine ⟨least, more.take k, ?_, fun c hc => ?_⟩
    · rw [diverse, unblocked, hsorted, hmore, List.take_succ_cons]
    · have hmem : c ∈ least :: others := by
        rw [← hsorted]
        exact (List.mem_insertionSort (· ≤ ·)).mpr hc
      have hstrict := sorted_strict hnodup
      rw [hsorted] at hstrict
      rcases List.mem_cons.mp hmem with rfl | hmem
      · exact le_rfl
      · exact le_of_lt ((List.pairwise_cons.mp hstrict).1 c hmem)

/-- The source's two loops compute these two parts. -/
theorem selectNeighborsHeuristic_run (hstored : ∀ c ∈ candidates, h.HasVector c.id) :
    h.selectNeighborsHeuristic candidates m =
      .ok ((h.diverse candidates m ++ h.leftovers candidates m).map Cand.id) := by
  have hperm := List.perm_insertionSort (· ≤ ·) candidates
  have hids := (hperm.map Cand.id).nodup_iff.mpr hnodup
  have hsub := (h.diverse_sublist candidates m).subset
  have hpass : h.selectDiverse m (candidates.insertionSort (· ≤ ·)) [] =
      .ok ((h.diverse candidates m).map Cand.id) :=
    @selectDiverse_eq _ h m _ [] (fun c hc => hstored c (hperm.subset hc))
      (fun r hr => absurd hr List.not_mem_nil) (Nat.zero_le m)
  unfold selectNeighborsHeuristic
  simp only [hpass, Outcome.ok_bind, List.length_map, List.map_append]
  split_ifs with hshort
  · rw [backfill_eq hids, filter_leftovers hsub hids]
    rfl
  · have hnone : m - (h.diverse candidates m).length = 0 := by omega
    rw [leftovers, hnone, List.take_zero, List.map_nil, List.append_nil]
    rfl

end Passes

/-- **What the heuristic selects.** Of candidates with distinct ids, whatever their distances, it
returns the first `m` of those that no smaller one of them is strictly nearer to than the base is, and
then the least of the others until there are `m` or none is left; so it returns as many as it can, and
the least candidate first. -/
theorem selectNeighborsHeuristic_selects {candidates : List Cand} {m : Nat}
    (hstored : ∀ c ∈ candidates, h.HasVector c.id) (hnodup : (candidates.map Cand.id).Nodup)
    (hm : 1 ≤ m) :
    ∃ D B : List Cand,
      h.selectNeighborsHeuristic candidates m = .ok ((D ++ B).map Cand.id) ∧
      ((D ++ B).map Cand.id).Nodup ∧ (∀ c ∈ D ++ B, c ∈ candidates) ∧
      (D ++ B).length = min m candidates.length ∧
      (candidates ≠ [] → ∃ least rest, D = least :: rest ∧ ∀ c ∈ candidates, least ≤ c) ∧
      D.Pairwise (· < ·) ∧ B.Pairwise (· < ·) ∧
      (∃ K : List Cand, K.Pairwise (· < ·) ∧
        (∀ c, c ∈ K ↔ c ∈ candidates ∧ ∀ r ∈ K, r < c → h.nearer c r = false) ∧ D = K.take m) ∧
      ∀ b ∈ B, ∀ c ∈ candidates, c ∉ D → c ∉ B → b < c := by
  have hstrict := sorted_strict hnodup
  refine ⟨h.diverse candidates m, h.leftovers candidates m,
    selectNeighborsHeuristic_run hnodup hstored, selected_nodup hnodup, fun c hc => ?_,
    selected_length hnodup, diverse_head hnodup hm,
    hstrict.sublist (h.diverse_sublist candidates m),
    hstrict.sublist (h.leftovers_sublist candidates m),
    ⟨h.unblocked candidates, hstrict.sublist (Greedy.keep_nil_sublist h.nearer _), mem_unblocked_iff hnodup,
      rfl⟩, fun b hb c hc hD hB => ?_⟩
  · rcases List.mem_append.mp hc with hc | hc
    · exact (List.mem_insertionSort (· ≤ ·)).mp ((h.diverse_sublist candidates m).subset hc)
    · exact (List.mem_insertionSort (· ≤ ·)).mp ((h.leftovers_sublist candidates m).subset hc)
  · exact Greedy.lt_of_mem_take_remaining hstrict hb ((List.mem_insertionSort (· ≤ ·)).mpr hc) hD hB

omit [Arith] in
/-- Three rows of which the last is at no distance that is a number. -/
theorem selectNeighborsHeuristic_selects_nan :
    ∃ D B : List Cand, @selectNeighborsHeuristic Arith.ieee
        { @Hnsw.new Arith.ieee HnswParams.default with
          dim := 1, vectors := [F32.zero, F32.one, F32.one] }
        [⟨⟨0x7FC00000⟩, 2⟩, ⟨F32.one, 0⟩, ⟨F32.zero, 1⟩] 2 = .ok ((D ++ B).map Cand.id) ∧
      (D ++ B).length = 2 ∧ ∃ rest, D = ⟨F32.zero, 1⟩ :: rest := by
  obtain ⟨D, B, hrun, -, hin, hlen, hhead, -⟩ := @selectNeighborsHeuristic_selects Arith.ieee
    { @Hnsw.new Arith.ieee HnswParams.default with
      dim := 1, vectors := [F32.zero, F32.one, F32.one] }
    [⟨⟨0x7FC00000⟩, 2⟩, ⟨F32.one, 0⟩, ⟨F32.zero, 1⟩] 2 (by unfold HasVector; decide) (by decide)
    (by decide)
  obtain ⟨least, rest, hD, hleast⟩ := hhead (List.cons_ne_nil _ _)
  have hzero : least = ⟨F32.zero, 1⟩ := by
    have hmem := hin least (by simp [hD])
    have hle := hleast ⟨F32.zero, 1⟩ (by simp)
    simp only [List.mem_cons, List.not_mem_nil, or_false] at hmem
    rcases hmem with rfl | rfl | rfl
    · exact absurd hle (by decide)
    · exact absurd hle (by decide)
    · rfl
  exact ⟨D, B, hrun, hlen, rest, hzero ▸ hD⟩

end Hnsw

end Brindle
