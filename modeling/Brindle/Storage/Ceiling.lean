/-
# Brindle.Storage.Ceiling — the cache stays under its ceiling.

`cached_index` makes room twice: before it looks its index up, sparing that index, because the
ceiling may have been lowered since; and before it keeps a fresh copy, sparing nothing. Each time the
hash map chooses the victims, so a call is a relation here (`CachedIndexCall`): any key the loop may
drop next is a possible next victim. The first loop can stop over the ceiling, when only the requested
entry is left, and it is the checks behind it that give that entry up.
-/
import Brindle.Storage.Cache
import Mathlib.Algebra.Order.BigOperators.Group.List
import Mathlib.Data.List.Induction

namespace Brindle

namespace IndexCache

/-! ## The map -/

/-- No key has two entries. -/
def KeyUnique (cache : IndexCache) : Prop := (cache.map Prod.fst).Nodup

theorem get_eq_none_iff {cache : IndexCache} {key : CacheKey} :
    cache.get key = none ↔ ∀ p ∈ cache, p.1 ≠ key := by
  simp [get]

theorem get_insert (cache : IndexCache) (key : CacheKey) (entry : CachedIndex) :
    (cache.insert key entry).get key = some entry := by
  simp [get, insert]

theorem mem_remove {cache : IndexCache} {key : CacheKey} {p : CacheKey × CachedIndex} :
    p ∈ cache.remove key ↔ p ∈ cache ∧ p.1 ≠ key := by
  simp [remove]

theorem get_remove_self (cache : IndexCache) (key : CacheKey) : (cache.remove key).get key = none :=
  get_eq_none_iff.mpr fun _ hp => (mem_remove.mp hp).2

theorem KeyUnique.remove {cache : IndexCache} (h : cache.KeyUnique) (key : CacheKey) :
    (cache.remove key).KeyUnique :=
  List.Nodup.sublist (List.Sublist.map Prod.fst List.filter_sublist) h

theorem KeyUnique.insert {cache : IndexCache} (h : cache.KeyUnique) (key : CacheKey)
    (entry : CachedIndex) : (cache.insert key entry).KeyUnique := by
  refine List.nodup_cons.mpr ⟨fun hkey => ?_, h.remove key⟩
  obtain ⟨p, hp, heq⟩ := List.mem_map.mp hkey
  exact (mem_remove.mp hp).2 heq

theorem remove_eq_self {cache : IndexCache} {key : CacheKey} (h : ∀ p ∈ cache, p.1 ≠ key) :
    cache.remove key = cache :=
  List.filter_eq_self.mpr fun p hp => by simpa using h p hp

/-- An entry that is dropped takes its recorded size with it. -/
theorem KeyUnique.total_remove {cache : IndexCache} (h : cache.KeyUnique) {key : CacheKey}
    {entry : CachedIndex} (hget : cache.get key = some entry) :
    cache.total = entry.bytes + (cache.remove key).total := by
  induction cache with
  | nil => cases hget
  | cons p cache ih =>
    obtain ⟨hfresh, hrest⟩ := List.nodup_cons.mp h
    by_cases hp : p.1 = key
    · -- the entry is the head, and no other has its key
      have hentry : p.2 = entry := by simpa [get, hp] using hget
      have hothers : ∀ q ∈ cache, q.1 ≠ key := fun q hq heq =>
        hfresh (hp.trans heq.symm ▸ List.mem_map_of_mem hq)
      have htail : IndexCache.remove (p :: cache) key = cache := by
        rw [IndexCache.remove, List.filter_cons_of_neg (by simpa using hp)]
        exact remove_eq_self hothers
      rw [htail, ← hentry]
      rfl
    · have hget' : IndexCache.get cache key = some entry := by simpa [get, hp] using hget
      have htail : IndexCache.remove (p :: cache) key = p :: IndexCache.remove cache key :=
        List.filter_cons_of_pos (by simpa using hp)
      have hrec := ih hrest hget'
      rw [htail]
      simp only [total, List.map_cons, List.sum_cons] at hrec ⊢
      omega

theorem total_remove_le (cache : IndexCache) (key : CacheKey) :
    (cache.remove key).total ≤ cache.total :=
  (List.Sublist.map _ List.filter_sublist).sum_le_sum fun _ _ => Nat.zero_le _

/-! ## Making room -/

/-- A run of an eviction loop: while the running total is over, some key that may go is dropped, and
the loop ends early when there is none. -/
inductive Evicted (eligible : CacheKey → Prop) (excess : Nat → Prop) :
    IndexCache → Nat → IndexCache → List CacheKey → Prop where
  | under {cache : IndexCache} {total : Nat} : ¬ excess total →
      Evicted eligible excess cache total cache []
  | exhausted {cache : IndexCache} {total : Nat} : excess total → (∀ p ∈ cache, ¬ eligible p.1) →
      Evicted eligible excess cache total cache []
  | drop {cache cache' : IndexCache} {total : Nat} {victim : CacheKey} {dropped : CachedIndex}
      {victims : List CacheKey} : excess total → eligible victim → cache.get victim = some dropped →
      Evicted eligible excess (cache.remove victim) (total - dropped.bytes) cache' victims →
      Evicted eligible excess cache total cache' (victim :: victims)

variable {eligible : CacheKey → Prop} {excess : Nat → Prop}

/-- What a run of the loop leaves: some of the entries, with every key that may not go, and a total
that is not over unless no other key is left. -/
theorem Evicted.spec {cache cache' : IndexCache} {total : Nat} {victims : List CacheKey}
    (h : Evicted eligible excess cache total cache' victims) (hunique : cache.KeyUnique)
    (htotal : total = cache.total) :
    cache'.KeyUnique ∧ cache' ⊆ cache ∧
      (∀ victim ∈ victims, eligible victim ∧ ∃ p ∈ cache, p.1 = victim) ∧
      (¬ excess cache'.total ∨ ∀ p ∈ cache', ¬ eligible p.1) := by
  induction h with
  | under hover =>
    exact ⟨hunique, List.Subset.refl _, nofun, .inl (htotal ▸ hover)⟩
  | exhausted _ hnone => exact ⟨hunique, List.Subset.refl _, nofun, .inr hnone⟩
  | @drop cache cache' total victim dropped victims _ heligible hget _ ih =>
    have hsize := hunique.total_remove hget
    obtain ⟨hunique', hsub, hvictims, hend⟩ := ih (hunique.remove victim) (by omega)
    refine ⟨hunique', fun p hp => (mem_remove.mp (hsub hp)).1, fun k hk => ?_, hend⟩
    rcases List.mem_cons.mp hk with rfl | hk
    · exact ⟨heligible, _, mem_of_get hget, rfl⟩
    · obtain ⟨hk, p, hp, heq⟩ := hvictims k hk
      exact ⟨hk, p, (mem_remove.mp hp).1, heq⟩

/-- Each turn drops an entry, so the loop ends, whatever the map has chosen so far. -/
theorem exists_evicted (eligible : CacheKey → Prop) (excess : Nat → Prop) (cache : IndexCache)
    (total : Nat) : ∃ cache' victims, Evicted eligible excess cache total cache' victims := by
  by_cases hover : excess total
  · by_cases hsome : ∃ p ∈ cache, eligible p.1
    · obtain ⟨p, hp, heligible⟩ := hsome
      obtain ⟨dropped, hget⟩ : ∃ dropped, cache.get p.1 = some dropped := by
        refine Option.ne_none_iff_exists'.mp fun hnone => ?_
        exact get_eq_none_iff.mp hnone p hp rfl
      have hfewer : (cache.remove p.1).length < cache.length := by
        refine List.length_filter_lt_length_iff_exists.mpr ⟨p, hp, ?_⟩
        simp
      obtain ⟨cache', victims, hrest⟩ :=
        exists_evicted eligible excess (cache.remove p.1) (total - dropped.bytes)
      exact ⟨cache', p.1 :: victims, .drop hover heligible hget hrest⟩
    · exact ⟨cache, [], .exhausted hover fun p hp h => hsome ⟨p, hp, h⟩⟩
  · exact ⟨cache, [], .under hover⟩
  termination_by cache.length

/-- Looking a key up once there is room: an entry of another generation, or over the ceiling by
itself, is given up. -/
def consult (cache : IndexCache) (ceiling : Nat) (key : CacheKey) (generation : UInt64) :
    IndexCache × Option CachedIndex :=
  match cache.get key with
  | some entry =>
    if entry.generation ≠ generation then (cache.remove key, none)
    else if entry.bytes > ceiling then (cache.remove key, none)
    else (cache, some entry)
  | none => (cache, none)

/-- With no other key left, nothing is left when the key goes. -/
theorem remove_eq_nil {cache : IndexCache} {key : CacheKey} (h : ∀ p ∈ cache, p.1 = key) :
    cache.remove key = [] :=
  List.filter_eq_nil_iff.mpr fun p hp => by simpa using h p hp

theorem total_remove_bound {cache : IndexCache} {ceiling : Nat} {key : CacheKey}
    (h : cache.total ≤ ceiling ∨ ∀ p ∈ cache, p.1 = key) : (cache.remove key).total ≤ ceiling := by
  rcases h with hle | honly
  · exact (total_remove_le cache key).trans hle
  · rw [remove_eq_nil honly]
    exact Nat.zero_le ceiling

/-- The checks repair what the loop before them could not: when only the requested entry is left and
is over the ceiling, it is given up. -/
theorem consult_spec {cache : IndexCache} (hunique : cache.KeyUnique) (ceiling : Nat)
    (key : CacheKey) (generation : UInt64) :
    (cache.consult ceiling key generation).1.KeyUnique ∧
      (cache.consult ceiling key generation).1 ⊆ cache ∧
      (cache.total ≤ ceiling ∨ (∀ p ∈ cache, p.1 = key) →
        (cache.consult ceiling key generation).1.total ≤ ceiling) ∧
      match (cache.consult ceiling key generation).2 with
      | some entry => (cache.consult ceiling key generation).1.get key = some entry
      | none => (cache.consult ceiling key generation).1.get key = none := by
  have hgone : (cache.remove key).KeyUnique ∧ cache.remove key ⊆ cache ∧
      (cache.total ≤ ceiling ∨ (∀ p ∈ cache, p.1 = key) → (cache.remove key).total ≤ ceiling) ∧
      (cache.remove key).get key = none :=
    ⟨hunique.remove key, fun p hp => (mem_remove.mp hp).1, total_remove_bound,
      get_remove_self cache key⟩
  unfold consult
  cases hget : cache.get key with
  | none =>
    refine ⟨hunique, List.Subset.refl _, fun hbound => hbound.elim id fun honly => ?_, hget⟩
    have hnil : cache = [] := List.eq_nil_iff_forall_not_mem.mpr fun p hp =>
      get_eq_none_iff.mp hget p hp (honly p hp)
    rw [hnil]
    exact Nat.zero_le ceiling
  | some entry =>
    dsimp only
    split_ifs with hgeneration hsize
    · exact hgone
    · exact hgone
    · refine ⟨hunique, List.Subset.refl _, fun hbound => hbound.elim id fun honly => ?_, hget⟩
      have htotal := hunique.total_remove hget
      rw [remove_eq_nil honly] at htotal
      calc cache.total = entry.bytes := htotal
        _ ≤ ceiling := Nat.not_lt.mp hsize

end IndexCache

/-! ## Calls -/

/-- What one call meets: the index it is for, the generation it reads, the ceiling in force, and the
image it would load, `bytes` in memory. -/
structure CacheRequest where
  key : CacheKey
  generation : UInt64
  ceiling : Nat
  hnsw : Hnsw
  tids : List TidPair
  unrankable : List UnrankableRow
  bytes : Nat

namespace CacheRequest

/-- The entry a call makes of what it loads. -/
def entry (r : CacheRequest) : CachedIndex where
  generation := r.generation
  bytes := r.bytes
  hnsw := r.hnsw
  tids := r.tids
  unrankable := r.unrankable

end CacheRequest

open IndexCache (Evicted)

/-- The first borrow of the cache: what it is left as, what is found, and which keys had to go. -/
inductive Consulted (r : CacheRequest) (cache : IndexCache) :
    IndexCache → Option CachedIndex → List CacheKey → Prop where
  /-- Caching is switched off: everything is given up. -/
  | off : r.ceiling = 0 → Consulted r cache [] none []
  | on {cache' : IndexCache} {victims : List CacheKey} : r.ceiling ≠ 0 →
      Evicted (fun key => key ≠ r.key) (fun total => total > r.ceiling) cache cache.total cache'
        victims →
      Consulted r cache (cache'.consult r.ceiling r.key r.generation).1
        (cache'.consult r.ceiling r.key r.generation).2 victims

/-- A call of `cached_index`: the cache it leaves, what it returns (nothing when the load raises an
error), and the keys its loops dropped. -/
inductive CachedIndexCall (r : CacheRequest) (cache : IndexCache) :
    IndexCache → Option IndexHandle → List CacheKey → Prop where
  | hit {cache' : IndexCache} {entry : CachedIndex} {victims : List CacheKey} :
      Consulted r cache cache' (some entry) victims →
      CachedIndexCall r cache cache' (some (.cached entry)) victims
  | raised {cache' : IndexCache} {victims : List CacheKey} :
      Consulted r cache cache' none victims → CachedIndexCall r cache cache' none victims
  | fresh {cache' : IndexCache} {victims : List CacheKey} :
      Consulted r cache cache' none victims → r.ceiling = 0 ∨ r.bytes > r.ceiling →
      CachedIndexCall r cache cache' (some (.fresh r.hnsw r.tids r.unrankable)) victims
  | kept {cache₁ cache₂ : IndexCache} {victims more : List CacheKey} :
      Consulted r cache cache₁ none victims → ¬ (r.ceiling = 0 ∨ r.bytes > r.ceiling) →
      Evicted (fun _ => True) (fun total => total + r.bytes > r.ceiling) cache₁ cache₁.total cache₂
        more →
      CachedIndexCall r cache (cache₂.insert r.key r.entry) (some (.cached r.entry))
        (victims ++ more)

/-- One call after another, from an empty cache. -/
inductive CacheRun : List CacheRequest → IndexCache → Prop where
  | start : CacheRun [] []
  | call {requests : List CacheRequest} {cache cache' : IndexCache} {r : CacheRequest}
      {handle : Option IndexHandle} {victims : List CacheKey} : CacheRun requests cache →
      CachedIndexCall r cache cache' handle victims → CacheRun (requests ++ [r]) cache'

/-! ## The ceiling holds -/

theorem Consulted.spec {r : CacheRequest} {cache cache' : IndexCache} {found : Option CachedIndex}
    {victims : List CacheKey} (h : Consulted r cache cache' found victims)
    (hunique : cache.KeyUnique) :
    cache'.KeyUnique ∧ cache'.total ≤ r.ceiling ∧ r.key ∉ victims ∧
      cache'.get r.key = found ∧ (r.ceiling = 0 → cache' = [] ∧ found = none) := by
  cases h with
  | off hoff => exact ⟨List.nodup_nil, Nat.zero_le _, List.not_mem_nil, rfl, fun _ => ⟨rfl, rfl⟩⟩
  | @on left victims hon hevicted =>
    obtain ⟨hunique', -, hvictims, hend⟩ := hevicted.spec hunique rfl
    obtain ⟨hunique'', -, hbound, hfound⟩ :=
      IndexCache.consult_spec hunique' r.ceiling r.key r.generation
    have hroom : left.total ≤ r.ceiling ∨ ∀ p ∈ left, p.1 = r.key := by
      rcases hend with hend | hend
      · exact .inl (Nat.not_lt.mp hend)
      · exact .inr fun p hp => not_not.mp (hend p hp)
    refine ⟨hunique'', hbound hroom, fun hkey => (hvictims r.key hkey).1 rfl, ?_,
      fun h0 => absurd h0 hon⟩
    cases hresult : (left.consult r.ceiling r.key r.generation).2 with
    | none =>
      rw [hresult] at hfound
      exact hfound
    | some entry =>
      rw [hresult] at hfound
      exact hfound

/-- One call, from any map. -/
theorem CachedIndexCall.spec {r : CacheRequest} {cache cache' : IndexCache}
    {handle : Option IndexHandle} {victims : List CacheKey}
    (h : CachedIndexCall r cache cache' handle victims) (hunique : cache.KeyUnique) :
    cache'.KeyUnique ∧ cache'.total ≤ r.ceiling ∧ (r.ceiling = 0 → cache' = []) ∧
      r.key ∉ victims ∧
      ∀ entry, handle = some (.cached entry) → cache'.get r.key = some entry := by
  cases h with
  | hit hconsulted =>
    obtain ⟨hunique', htotal, hspared, hget, hoff⟩ := hconsulted.spec hunique
    refine ⟨hunique', htotal, fun h0 => (hoff h0).1, hspared, fun entry hentry => ?_⟩
    cases hentry
    exact hget
  | raised hconsulted =>
    obtain ⟨hunique', htotal, hspared, -, hoff⟩ := hconsulted.spec hunique
    exact ⟨hunique', htotal, fun h0 => (hoff h0).1, hspared, nofun⟩
  | fresh hconsulted hover =>
    obtain ⟨hunique', htotal, hspared, -, hoff⟩ := hconsulted.spec hunique
    exact ⟨hunique', htotal, fun h0 => (hoff h0).1, hspared, nofun⟩
  | @kept cache₁ cache₂ victims more hconsulted hfits hevicted =>
    obtain ⟨hunique₁, -, hspared, hmissed, -⟩ := hconsulted.spec hunique
    obtain ⟨hunique₂, hsub, hvictims, hend⟩ := hevicted.spec hunique₁ rfl
    have hothers : ∀ p ∈ cache₁, p.1 ≠ r.key := IndexCache.get_eq_none_iff.mp hmissed
    have hroom : cache₂.total + r.bytes ≤ r.ceiling := by
      rcases hend with hend | hend
      · exact Nat.not_lt.mp hend
      · -- everything went, and the entry fits by itself
        have hnil : cache₂ = [] :=
          List.eq_nil_iff_forall_not_mem.mpr fun p hp => hend p hp trivial
        have hnone : IndexCache.total [] = 0 := rfl
        rw [hnil, hnone]
        omega
    refine ⟨hunique₂.insert r.key r.entry, ?_, fun h0 => absurd (.inl h0) hfits, ?_,
      fun entry hentry => ?_⟩
    · have hkept : (cache₂.insert r.key r.entry).total = r.bytes + cache₂.total := by
        rw [IndexCache.insert, IndexCache.remove_eq_self fun p hp => hothers p (hsub hp)]
        rfl
      omega
    · rw [List.mem_append, not_or]
      refine ⟨hspared, fun hkey => ?_⟩
      obtain ⟨-, p, hp, heq⟩ := hvictims r.key hkey
      exact hothers p hp heq
    · cases hentry
      exact IndexCache.get_insert cache₂ r.key r.entry

theorem CacheRun.keyUnique {requests : List CacheRequest} {cache : IndexCache}
    (h : CacheRun requests cache) : cache.KeyUnique := by
  induction h with
  | start => exact List.nodup_nil
  | call _ hcall ih => exact (hcall.spec ih).1

/-- **The cache stays under its ceiling.** After any calls at all, and whichever keys the map offered
the loops, the next call leaves entries of at most the ceiling it met in all, none where that is zero;
what it returns as cached is the entry now stored under its key, and its loops have not dropped that
key. -/
theorem cached_index_ceiling {requests : List CacheRequest} {cache cache' : IndexCache}
    {r : CacheRequest} {handle : Option IndexHandle} {victims : List CacheKey}
    (hrun : CacheRun requests cache) (hcall : CachedIndexCall r cache cache' handle victims) :
    cache'.total ≤ r.ceiling ∧ (r.ceiling = 0 → cache' = []) ∧
      ∀ entry, handle = some (.cached entry) → cache'.get r.key = some entry ∧ r.key ∉ victims := by
  obtain ⟨-, htotal, hoff, hspared, hget⟩ := hcall.spec hrun.keyUnique
  exact ⟨htotal, hoff, fun entry hentry => ⟨hget entry hentry, hspared⟩⟩

/-- Two indexes of 60 bytes each under a ceiling of 100: keeping the second drops the first. -/
theorem cached_index_ceiling_sample :
    let hnsw := @Hnsw.new Arith.ieee HnswParams.default
    let second : CacheRequest := ⟨(1663, 5, 2), 1, 100, hnsw, [], [], 60⟩
    IndexCache.total [(second.key, second.entry)] ≤ 100 ∧
      IndexCache.get [(second.key, second.entry)] second.key = some second.entry := by
  intro hnsw second
  let first : CacheRequest := ⟨(1663, 5, 1), 1, 100, hnsw, [], [], 60⟩
  have hmissed : Consulted first [] [] none [] :=
    @Consulted.on first [] [] [] (by decide) (.under (by decide))
  have hfirst : CachedIndexCall first [] [(first.key, first.entry)] (some (.cached first.entry)) [] :=
    @CachedIndexCall.kept first [] [] [] [] [] hmissed (by decide) (.under (by decide))
  have hother : Consulted second [(first.key, first.entry)] [(first.key, first.entry)] none [] :=
    @Consulted.on second _ [(first.key, first.entry)] [] (by decide) (.under (by decide))
  have hsecond : CachedIndexCall second [(first.key, first.entry)] [(second.key, second.entry)]
      (some (.cached second.entry)) [first.key] :=
    @CachedIndexCall.kept second _ _ [] [] [first.key] hother (by decide)
      (.drop (by decide) trivial rfl (.under (by decide)))
  obtain ⟨htotal, -, hstored⟩ := cached_index_ceiling (.call .start hfirst) hsecond
  exact ⟨htotal, (hstored second.entry rfl).1⟩

/-! ## Runs -/

/-- A call comes to an end, whatever is in the cache. -/
theorem exists_call (r : CacheRequest) (cache : IndexCache) :
    ∃ cache' handle victims, CachedIndexCall r cache cache' handle victims := by
  obtain ⟨cache₁, found, victims, hconsulted⟩ :
      ∃ cache₁ found victims, Consulted r cache cache₁ found victims := by
    by_cases hoff : r.ceiling = 0
    · exact ⟨[], none, [], .off hoff⟩
    · obtain ⟨left, victims, hevicted⟩ := IndexCache.exists_evicted (fun key => key ≠ r.key)
        (fun total => total > r.ceiling) cache cache.total
      exact ⟨_, _, victims, .on hoff hevicted⟩
  cases found with
  | some entry => exact ⟨cache₁, _, victims, .hit hconsulted⟩
  | none =>
    by_cases hover : r.ceiling = 0 ∨ r.bytes > r.ceiling
    · exact ⟨cache₁, _, victims, .fresh hconsulted hover⟩
    · obtain ⟨cache₂, more, hevicted⟩ := IndexCache.exists_evicted (fun _ => True)
        (fun total => total + r.bytes > r.ceiling) cache₁ cache₁.total
      exact ⟨_, _, victims ++ more, .kept hconsulted hover hevicted⟩

/-- Any calls can be made one after another. -/
theorem exists_run (requests : List CacheRequest) : ∃ cache, CacheRun requests cache := by
  induction requests using List.reverseRecOn with
  | nil => exact ⟨[], .start⟩
  | append_singleton requests r ih =>
    obtain ⟨cache, hrun⟩ := ih
    obtain ⟨cache', handle, victims, hcall⟩ := exists_call r cache
    exact ⟨cache', .call hrun hcall⟩

/-! ## Victims in the map's order

The steps of `CacheWorld` take the victims from a list. When that list holds the map's keys, what they
do is one of the calls above. -/

namespace IndexCache

theorem evicted_evict {eligible : CacheKey → Prop} {exceeds : Nat → Bool} {order : List CacheKey}
    {cache : IndexCache} (hunique : cache.KeyUnique) (horder : order.Nodup)
    (hmem : ∀ k, k ∈ order ↔ eligible k ∧ ∃ p ∈ cache, p.1 = k) :
    ∃ victims, Evicted eligible (fun total => exceeds total) cache cache.total
      (cache.evict exceeds order) victims := by
  induction order generalizing cache with
  | nil =>
    have hnone : ∀ p ∈ cache, ¬ eligible p.1 := fun p hp heligible =>
      List.not_mem_nil ((hmem p.1).mpr ⟨heligible, p, hp, rfl⟩)
    by_cases hover : exceeds cache.total = true
    · exact ⟨[], .exhausted hover hnone⟩
    · exact ⟨[], .under hover⟩
  | cons victim order ih =>
    obtain ⟨hfresh, hrest⟩ := List.nodup_cons.mp horder
    obtain ⟨heligible, p, hp, heq⟩ := (hmem victim).mp List.mem_cons_self
    rw [evict]
    split_ifs with hover
    · obtain ⟨dropped, hget⟩ : ∃ dropped, cache.get victim = some dropped :=
        Option.ne_none_iff_exists'.mp fun hnone => get_eq_none_iff.mp hnone p hp heq
      have hsize : cache.total - dropped.bytes = (cache.remove victim).total := by
        have htotal := hunique.total_remove hget
        omega
      have hmem' : ∀ k, k ∈ order ↔ eligible k ∧ ∃ q ∈ cache.remove victim, q.1 = k := by
        intro k
        constructor
        · intro hk
          obtain ⟨hk', q, hq, rfl⟩ := (hmem k).mp (List.mem_cons_of_mem victim hk)
          exact ⟨hk', q, mem_remove.mpr ⟨hq, fun h => hfresh (h ▸ hk)⟩, rfl⟩
        · intro hk
          obtain ⟨hk, q, hq, rfl⟩ := hk
          obtain ⟨hq, hne⟩ := mem_remove.mp hq
          exact (List.mem_cons.mp ((hmem q.1).mpr ⟨hk, q, hq, rfl⟩)).resolve_left hne
      obtain ⟨victims, hevicted⟩ := ih (hunique.remove victim) hrest hmem'
      rw [← hsize] at hevicted
      exact ⟨victim :: victims, .drop hover heligible hget hevicted⟩
    · exact ⟨[], .under hover⟩

theorem mem_keys {cache : IndexCache} {k : CacheKey} :
    k ∈ cache.map Prod.fst ↔ ∃ p ∈ cache, p.1 = k :=
  List.mem_map

/-- A lookup with the map's own keys is a first borrow. -/
theorem consulted_lookup {cache : IndexCache} (hunique : cache.KeyUnique) (r : CacheRequest)
    {order : List CacheKey} (horder : order.Perm (cache.map Prod.fst)) :
    ∃ victims, Consulted r cache (cache.lookup r.ceiling order r.key r.generation).1
      (cache.lookup r.ceiling order r.key r.generation).2 victims := by
  unfold lookup
  split_ifs with hoff
  · exact ⟨[], .off hoff⟩
  · have hmem : ∀ k, k ∈ order.filter (fun k => decide (k ≠ r.key)) ↔
        k ≠ r.key ∧ ∃ p ∈ cache, p.1 = k := by
      intro k
      rw [List.mem_filter, horder.mem_iff, mem_keys, decide_eq_true_eq, and_comm]
    have hnodup : (order.filter fun k => decide (k ≠ r.key)).Nodup :=
      (horder.nodup_iff.mpr hunique).filter _
    obtain ⟨victims, hevicted⟩ := @evicted_evict (fun key => key ≠ r.key)
      (fun total => decide (total > r.ceiling)) _ cache hunique hnodup hmem
    simp only [decide_eq_true_eq] at hevicted
    exact ⟨victims, .on hoff hevicted⟩

/-- Keeping an entry with the map's own keys is a second borrow. -/
theorem kept_fill {cache cache₁ : IndexCache} (hunique : cache₁.KeyUnique) {r : CacheRequest}
    {victims order : List CacheKey} (hconsulted : Consulted r cache cache₁ none victims)
    (hfits : ¬ (r.ceiling = 0 ∨ r.bytes > r.ceiling)) (horder : order.Perm (cache₁.map Prod.fst)) :
    ∃ dropped, CachedIndexCall r cache (cache₁.fill r.ceiling order r.key r.entry)
      (some (.cached r.entry)) dropped := by
  have hmem : ∀ k, k ∈ order ↔ True ∧ ∃ p ∈ cache₁, p.1 = k := by
    intro k
    rw [horder.mem_iff, mem_keys, true_and]
  obtain ⟨more, hevicted⟩ := @evicted_evict (fun _ => True)
    (fun total => decide (total + r.bytes > r.ceiling)) _ cache₁ hunique
    (horder.nodup_iff.mpr hunique) hmem
  simp only [decide_eq_true_eq] at hevicted
  exact ⟨_, .kept hconsulted hfits hevicted⟩

end IndexCache

end Brindle
