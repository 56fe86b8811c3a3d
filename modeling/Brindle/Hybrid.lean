/-
# Brindle.Hybrid — the fused rows of a hybrid search.

`hybrid.rs`: `fuse` takes the ids of the vector arm and of the text arm, best first, and fuses them
under unsigned keys. The key of an id flips its sign bit, which keeps the order, so that fusion's
tie-break by key is one by id. The ranks a row reports come from maps of their own.
-/
import Brindle.Fusion

namespace Brindle

/-- What a hybrid search can raise once the two arms are read. -/
inductive HybridError where
  | fusion (e : FusionError)
  deriving DecidableEq, Repr

/-- One fused result row: the id, the fused score, and the 1-based rank within each source. -/
structure HybridRow where
  id : Int64
  score : ℚ
  vectorRank : Option Int32
  textRank : Option Int32
  deriving DecidableEq, Repr

namespace Hybrid

/-- The sign bit, flipped when mapping an id to its fusion key. -/
def idSign : UInt64 := (1 : UInt64) <<< 63

def keyOf (id : Int64) : UInt64 := id.toUInt64 ^^^ idSign

def idOf (key : UInt64) : Int64 := (key ^^^ idSign).toInt64

/-- `HashMap<u64, i32>`. -/
abbrev RankMap := List (UInt64 × Int32)

namespace RankMap

def get (key : UInt64) : RankMap → Option Int32
  | [] => none
  | (other, rank) :: rest => if other = key then some rank else get key rest

/-- `entry(key).or_insert(rank)`. -/
def orInsert (key : UInt64) (rank : Int32) (map : RankMap) : RankMap :=
  if (map.get key).isSome then map else (key, rank) :: map

end RankMap

/-- The rank of each key: its first occurrence is the best. -/
def ranks (keys : List UInt64) : RankMap :=
  keys.zipIdx.foldl (fun (map : RankMap) (key, pos) => map.orInsert key (Int32.ofNat pos + 1)) []

/-- `k as usize`. -/
def asUsize (k : Int32) : Nat := k.toInt64.toUInt64.toNat

/-- One row of the answer. -/
def rowOf (vectorRank textRank : RankMap) (fused : UInt64 × ℚ) : HybridRow where
  id := idOf fused.1
  score := fused.2
  vectorRank := vectorRank.get fused.1
  textRank := textRank.get fused.1

/-- Fuse the two ranked id lists and take the top `k`, with each row's rank within each source. -/
def fuse (iterate : ScoreMap → ScoreMap) (vectorIds textIds : List Int64) (rrfK : F64) (k : Int32) :
    Except HybridError (List HybridRow) :=
  let vectorKeys := vectorIds.map keyOf
  let textKeys := textIds.map keyOf
  let vectorRank := ranks vectorKeys
  let textRank := ranks textKeys
  match Fusion.rrf iterate [vectorKeys, textKeys] rrfK with
  | .error e => .error (.fusion e)
  | .ok fused => .ok ((fused.take (asUsize k)).map (rowOf vectorRank textRank))

/-! ## Keys -/

theorem idOf_keyOf (id : Int64) : idOf (keyOf id) = id := by
  rw [idOf, keyOf, UInt64.xor_assoc, UInt64.xor_self, UInt64.xor_zero, Int64.toInt64_toUInt64]

theorem keyOf_idOf (key : UInt64) : keyOf (idOf key) = key := by
  rw [idOf, keyOf, UInt64.toUInt64_toInt64, UInt64.xor_assoc, UInt64.xor_self, UInt64.xor_zero]

theorem keyOf_injective : Function.Injective keyOf := fun a b h => by
  rw [← idOf_keyOf a, ← idOf_keyOf b, h]

/-- Flipping the sign bit of a word moves it by half the range. -/
theorem xor_idSign_toNat (x : UInt64) : (x ^^^ idSign).toNat =
    if x.toNat < 2 ^ 63 then x.toNat + 2 ^ 63 else x.toNat - 2 ^ 63 := by
  have hx : x.toNat < 2 ^ 64 := x.toNat_lt
  have hsign : idSign.toNat = 2 ^ 63 := by decide
  have hlow : (x.toNat ^^^ 2 ^ 63) % 2 ^ 63 = x.toNat % 2 ^ 63 := by
    rw [Nat.xor_mod_two_pow, Nat.mod_self, Nat.xor_zero]
  have hhigh : (x.toNat ^^^ 2 ^ 63) / 2 ^ 63 = x.toNat / 2 ^ 63 ^^^ 1 := by
    rw [Nat.xor_div_two_pow, Nat.div_self (Nat.two_pow_pos 63)]
  rw [UInt64.toNat_xor, hsign]
  split_ifs with hsmall
  · have hzero : x.toNat / 2 ^ 63 = 0 := by omega
    rw [hzero] at hhigh
    have hone : (0 ^^^ 1 : Nat) = 1 := rfl
    omega
  · have hone : x.toNat / 2 ^ 63 = 1 := by omega
    rw [hone] at hhigh
    have hzero : (1 ^^^ 1 : Nat) = 0 := rfl
    omega

theorem keyOf_toNat (id : Int64) : ((keyOf id).toNat : Int) = id.toInt + 2 ^ 63 := by
  have hx : id.toUInt64.toNat < 2 ^ 64 := id.toUInt64.toNat_lt
  have hint : id.toInt = if 2 * id.toUInt64.toNat < 2 ^ 64 then (id.toUInt64.toNat : Int)
      else (id.toUInt64.toNat : Int) - (2 ^ 64 : Nat) := BitVec.toInt_eq_toNat_cond _
  rw [keyOf, xor_idSign_toNat, hint]
  split_ifs <;> omega

/-- The order of the keys is the signed order of the ids. -/
theorem keyOf_lt_iff {a b : Int64} : keyOf a < keyOf b ↔ a < b := by
  have ha := keyOf_toNat a
  have hb := keyOf_toNat b
  rw [UInt64.lt_iff_toNat_lt, Int64.lt_iff_toInt_lt]
  omega

theorem asUsize_of_nonneg {k : Int32} (hk : 0 ≤ k) : asUsize k = k.toInt.toNat := by
  have hint : k.toInt64.toInt = if 2 * k.toInt64.toUInt64.toNat < 2 ^ 64
      then (k.toInt64.toUInt64.toNat : Int)
      else (k.toInt64.toUInt64.toNat : Int) - (2 ^ 64 : Nat) := BitVec.toInt_eq_toNat_cond _
  have hx : k.toInt64.toUInt64.toNat < 2 ^ 64 := k.toInt64.toUInt64.toNat_lt
  have hpos : 0 ≤ k.toInt := Int32.le_iff_toInt_le.mp hk
  rw [Int32.toInt_toInt64] at hint
  rw [asUsize]
  split_ifs at hint <;> omega

/-! ## Ranks -/

theorem get_orInsert (key other : UInt64) (rank : Int32) (map : RankMap) :
    (map.orInsert key rank).get other =
      if other = key ∧ (map.get key).isNone then some rank else map.get other := by
  unfold RankMap.orInsert
  cases hget : map.get key with
  | some found => simp
  | none =>
    by_cases hkey : key = other
    · simp [RankMap.get, hkey]
    · have hkey' : other ≠ key := fun h => hkey h.symm
      simp [RankMap.get, hkey, hkey']

theorem get_foldl_orInsert (key : UInt64) (keys : List UInt64) (pos : Nat) (map : RankMap) :
    ((keys.zipIdx pos).foldl
      (fun (map : RankMap) (key, pos) => map.orInsert key (Int32.ofNat pos + 1)) map).get key =
      match map.get key with
      | some rank => some rank
      | none => if key ∈ keys then some (Int32.ofNat (pos + keys.idxOf key) + 1) else none := by
  induction keys generalizing pos map with
  | nil => cases hget : map.get key <;> simp [hget]
  | cons x rest ih =>
    rw [List.zipIdx_cons, List.foldl_cons, ih, get_orInsert]
    by_cases hx : key = x
    · subst hx
      cases hget : map.get key <;> simp
    · have hx' : x ≠ key := fun h => hx h.symm
      have hidx : (x :: rest).idxOf key = rest.idxOf key + 1 := by simp [hx']
      have hpos : pos + 1 + rest.idxOf key = pos + (rest.idxOf key + 1) := by omega
      rw [hidx, hpos]
      cases hget : map.get key <;> simp [hx]

/-- The rank of a key that is there is its first position, counted from 1. -/
theorem get_ranks (key : UInt64) (keys : List UInt64) : (ranks keys).get key =
    if key ∈ keys then some (Int32.ofNat (keys.idxOf key) + 1) else none := by
  have h := get_foldl_orInsert key keys 0 []
  rw [Nat.zero_add] at h
  exact h

/-- The rank of an id in an arm. -/
theorem get_ranks_keyOf (ids : List Int64) (id : Int64) : (ranks (ids.map keyOf)).get (keyOf id) =
    if id ∈ ids then some (Int32.ofNat (ids.idxOf id) + 1) else none := by
  rw [get_ranks, RankFusion.idxOf_map keyOf_injective]
  simp only [List.mem_map_of_injective keyOf_injective]

theorem rank_toInt {pos : Nat} (hpos : pos + 1 < 2 ^ 31) :
    (Int32.ofNat pos + 1).toInt = (pos : Int) + 1 := by
  have hsum : Int32.ofNat pos + 1 = Int32.ofNat (pos + 1) := (Int32.ofNat_add pos 1).symm
  rw [hsum, Int32.toInt_ofNat_of_lt hpos]
  rfl

/-- In an arm of fewer than 2^31 ids no rank wraps. -/
theorem rank_eq {ids : List Int64} (hids : ids.length < 2 ^ 31) (id : Int64) :
    ((ranks (ids.map keyOf)).get (keyOf id)).map Int32.toInt =
      if id ∈ ids then some (ids.idxOf id + 1 : Int) else none := by
  rw [get_ranks_keyOf]
  split_ifs with hmem
  · have hpos : ids.idxOf id < ids.length := List.idxOf_lt_length_iff.mpr hmem
    rw [Option.map_some, rank_toInt (by omega)]
  · rfl

/-! ## Rows -/

/-- What an arm adds to the score of an id. -/
def armScore (k : ℚ) (ids : List Int64) (id : Int64) : ℚ :=
  if id ∈ ids then 1 / (k + (ids.idxOf id + 1 : Nat)) else 0

/-- The rank a row reports for an arm is worth what the arm adds. -/
theorem rank_score {ids : List Int64} (hids : ids.length < 2 ^ 31) (k : ℚ) (id : Int64) :
    (((ranks (ids.map keyOf)).get (keyOf id)).toList.map fun rank =>
      1 / (k + (rank.toInt : ℚ))).sum = armScore k ids id := by
  have hrank := rank_eq hids id
  unfold armScore
  cases hget : (ranks (ids.map keyOf)).get (keyOf id) with
  | none =>
    rw [hget] at hrank
    split_ifs at hrank with hmem
    · cases hrank
    · rw [if_neg hmem]
      rfl
  | some rank =>
    rw [hget] at hrank
    split_ifs at hrank with hmem
    · have hvalue : rank.toInt = (ids.idxOf id + 1 : Int) := Option.some.inj hrank
      rw [if_pos hmem, Option.toList_some, List.map_singleton, List.sum_singleton, hvalue]
      push_cast
      rfl
    · cases hrank

/-- Fusion under the keys scores an id by the two arms. -/
theorem score_keyOf (k : ℚ) (vectorIds textIds : List Int64) (id : Int64) :
    RankFusion.score (Fusion.contribution k) [vectorIds.map keyOf, textIds.map keyOf] (keyOf id) =
      armScore k vectorIds id + armScore k textIds id := by
  have hmap := RankFusion.score_map (Fusion.contribution k) keyOf_injective [vectorIds, textIds] id
  rw [List.map_cons, List.map_singleton] at hmap
  rw [hmap, RankFusion.score_cons, RankFusion.score_cons, RankFusion.score_nil, add_zero]
  rfl

/-- The order of the rows: score descending, then id ascending. -/
def RowBefore (a b : Int64 × ℚ) : Prop := b.2 < a.2 ∨ a.2 = b.2 ∧ a.1 < b.1

/-- What a row must say of its id. -/
structure Reports (k : ℚ) (vectorIds textIds : List Int64) (row : HybridRow) : Prop where
  listed : row.id ∈ vectorIds ∨ row.id ∈ textIds
  vectorRank : row.vectorRank.map Int32.toInt =
    if row.id ∈ vectorIds then some (vectorIds.idxOf row.id + 1 : Int) else none
  textRank : row.textRank.map Int32.toInt =
    if row.id ∈ textIds then some (textIds.idxOf row.id + 1 : Int) else none
  score : row.score = ((row.vectorRank.toList ++ row.textRank.toList).map
    fun rank => 1 / (k + (rank.toInt : ℚ))).sum

theorem rowOf_reports {vectorIds textIds : List Int64} (hvector : vectorIds.length < 2 ^ 31)
    (htext : textIds.length < 2 ^ 31) {k : ℚ} {id : Int64} (hid : id ∈ vectorIds ∨ id ∈ textIds) :
    Reports k vectorIds textIds (rowOf (ranks (vectorIds.map keyOf)) (ranks (textIds.map keyOf))
      (keyOf id, armScore k vectorIds id + armScore k textIds id)) := by
  have hrecovered : (rowOf (ranks (vectorIds.map keyOf)) (ranks (textIds.map keyOf))
      (keyOf id, armScore k vectorIds id + armScore k textIds id)).id = id := idOf_keyOf id
  refine ⟨?_, ?_, ?_, ?_⟩
  · rw [hrecovered]
    exact hid
  · rw [hrecovered]
    exact rank_eq hvector id
  · rw [hrecovered]
    exact rank_eq htext id
  · rw [List.map_append, List.sum_append]
    exact congrArg₂ (· + ·) (rank_score hvector k id).symm (rank_score htext k id).symm

/-- **The rows of a hybrid search.** At most `k` rows with different ids, each of an arm and with the
rank it has there; scores are the sums over the ranks reported, and rows are ordered by score and then
by id. An id that is left out comes after every row there is, and is left out for want of room. -/
theorem fuse_eq {iterate : ScoreMap → ScoreMap} (hiterate : ∀ scores, (iterate scores).Perm scores)
    {vectorIds textIds : List Int64} (hvector : vectorIds.length < 2 ^ 31)
    (htext : textIds.length < 2 ^ 31) {rrfK : F64} (hfinite : rrfK.isFinite)
    (hsign : rrfK.lt F64.zero = false) {k : Int32} (hk : 0 ≤ k) :
    ∃ rows, fuse iterate vectorIds textIds rrfK k = .ok rows ∧
      rows.length ≤ k.toInt.toNat ∧ (rows.map HybridRow.id).Nodup ∧
      (∀ row ∈ rows, Reports rrfK.toRat vectorIds textIds row) ∧
      rows.Pairwise (fun a b => RowBefore (a.id, a.score) (b.id, b.score)) ∧
      ∀ id, id ∈ vectorIds ∨ id ∈ textIds → id ∉ rows.map HybridRow.id →
        rows.length = k.toInt.toNat ∧ ∀ row ∈ rows, RowBefore (row.id, row.score)
          (id, armScore rrfK.toRat vectorIds id + armScore rrfK.toRat textIds id) := by
  obtain ⟨fused, hrun, hnodup, hrows, hbefore⟩ := Fusion.rrf_rows hiterate
    [vectorIds.map keyOf, textIds.map keyOf] hfinite hsign
  have hcut := asUsize_of_nonneg hk
  -- a fused key is the key of an id of an arm, and its score is that of the id
  have hkey : ∀ row ∈ fused, ∃ id, (id ∈ vectorIds ∨ id ∈ textIds) ∧
      row = (keyOf id, armScore rrfK.toRat vectorIds id + armScore rrfK.toRat textIds id) := by
    intro row hrow
    obtain ⟨⟨ranking, hranking, hmem⟩, hscore⟩ := (hrows row).mp hrow
    have harm : ∃ id, row.1 = keyOf id ∧ (id ∈ vectorIds ∨ id ∈ textIds) := by
      rcases List.mem_pair.mp hranking with rfl | rfl
      · obtain ⟨id, hid, heq⟩ := List.mem_map.mp hmem
        exact ⟨id, heq.symm, .inl hid⟩
      · obtain ⟨id, hid, heq⟩ := List.mem_map.mp hmem
        exact ⟨id, heq.symm, .inr hid⟩
    obtain ⟨id, heq, hid⟩ := harm
    refine ⟨id, hid, Prod.ext heq ?_⟩
    rw [← score_keyOf, ← heq]
    exact hscore
  -- the order of the keys is that of the ids
  have horder : ∀ a b : UInt64 × ℚ, Fusion.Before a b → RowBefore (idOf a.1, a.2) (idOf b.1, b.2) := by
    intro a b hab
    refine hab.imp id fun h => ⟨h.1, ?_⟩
    rw [← keyOf_lt_iff, keyOf_idOf, keyOf_idOf]
    exact h.2
  have hrun' : fuse iterate vectorIds textIds rrfK k = .ok ((fused.take k.toInt.toNat).map
      (rowOf (ranks (vectorIds.map keyOf)) (ranks (textIds.map keyOf)))) := by
    simp only [fuse, hcut, hrun]
  refine ⟨_, hrun', ?_, ?_, fun row hrow => ?_, ?_, fun id hid hout => ?_⟩
  · rw [List.length_map]
    exact List.length_take_le _ _
  · have hall : ((fused.map Prod.fst).map idOf).Nodup :=
      hnodup.map fun a b h => by rw [← keyOf_idOf a, ← keyOf_idOf b, h]
    rw [List.map_map] at hall ⊢
    exact hall.sublist ((List.take_sublist _ _).map _)
  · obtain ⟨entry, hentry, rfl⟩ := List.mem_map.mp hrow
    obtain ⟨id, hid, rfl⟩ := hkey entry (List.mem_of_mem_take hentry)
    exact rowOf_reports hvector htext hid
  · rw [List.pairwise_map]
    exact (hbefore.sublist (List.take_sublist _ _)).imp fun {a b} hab => horder a b hab
  · -- the key of an id left out is behind the cut
    have hentry : (keyOf id, armScore rrfK.toRat vectorIds id + armScore rrfK.toRat textIds id) ∈
        fused := by
      refine (hrows _).mpr ⟨?_, (score_keyOf _ _ _ _).symm⟩
      rcases hid with hid | hid
      · exact ⟨_, List.mem_pair.mpr (.inl rfl), List.mem_map_of_mem hid⟩
      · exact ⟨_, List.mem_pair.mpr (.inr rfl), List.mem_map_of_mem hid⟩
    have hnot : (keyOf id, armScore rrfK.toRat vectorIds id + armScore rrfK.toRat textIds id) ∉
        fused.take k.toInt.toNat := fun hin =>
      hout (List.mem_map.mpr ⟨_, List.mem_map_of_mem hin, by rw [rowOf, idOf_keyOf]⟩)
    rw [← List.take_append_drop k.toInt.toNat fused] at hentry hbefore
    have hdrop := (List.mem_append.mp hentry).resolve_left hnot
    refine ⟨?_, fun row hrow => ?_⟩
    · have hlong : k.toInt.toNat < fused.length := by
        by_contra hshort
        rw [List.drop_eq_nil_of_le (Nat.not_lt.mp hshort)] at hdrop
        cases hdrop
      rw [List.length_map, List.length_take]
      omega
    · obtain ⟨kept, hkept, rfl⟩ := List.mem_map.mp hrow
      have hab := horder kept _ ((List.pairwise_append.mp hbefore).2.2 kept hkept _ hdrop)
      rw [idOf_keyOf] at hab
      exact hab

/-- A row of both arms, one of the text arm with the least id, and no room for a third. -/
theorem fuse_eq_sample : ∃ rows,
    fuse List.reverse [7, 3, 7] [3, -9223372036854775808] ⟨0x404E000000000000⟩ 2 = .ok rows ∧
      rows.length ≤ 2 ∧ ∀ row ∈ rows, Reports (F64.toRat ⟨0x404E000000000000⟩) [7, 3, 7]
        [3, -9223372036854775808] row := by
  obtain ⟨rows, hrun, hlen, -, hrows, -⟩ := @fuse_eq List.reverse List.reverse_perm
    [7, 3, 7] [3, -9223372036854775808] (by decide) (by decide) ⟨0x404E000000000000⟩
    (by decide) (by decide) 2 (by decide)
  exact ⟨rows, hrun, hlen, hrows⟩

end Hybrid

end Brindle
