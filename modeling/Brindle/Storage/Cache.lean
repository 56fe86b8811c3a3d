/-
# Brindle.Storage.Cache — one backend's decoded indexes, against everyone's writes.

`cached_index` reads the generation of an index under the image lock, looks the index up in the
backend's cache, and on a miss loads the image under a second lock and keeps it under the generation
it read first. Between any two of these steps other backends may rewrite any image. An entry may hold
newer contents than its label says; it is never served then, since the generation has moved on past
the label. The generation is 64 bits and wraps, so that holds for files rewritten fewer than 2^64
times.
-/
import Brindle.Storage.PageWalk

namespace Brindle

open Outcome (Ensures ensures_ok ensures_pure)
open Run (Along After run after_iff)

/-- Tablespace, database and relation file number: the physical relation. -/
abbrev CacheKey := Oid × Oid × Nat

/-- A decoded index kept for the backend that decoded it. -/
structure CachedIndex where
  generation : UInt64
  bytes : Nat
  hnsw : Hnsw
  tids : List TidPair
  unrankable : List UnrankableRow

/-- The image an entry stands for. -/
def CachedIndex.image (entry : CachedIndex) : Image :=
  ⟨entry.hnsw, entry.tids, entry.unrankable, entry.generation⟩

/-- What a reader gets back. -/
inductive IndexHandle where
  | cached (entry : CachedIndex)
  | fresh (hnsw : Hnsw) (tids : List TidPair) (unrankable : List UnrankableRow)

namespace IndexHandle

def graph : IndexHandle → Hnsw
  | cached entry => entry.hnsw
  | fresh hnsw _ _ => hnsw

def tids : IndexHandle → List TidPair
  | cached entry => entry.tids
  | fresh _ tids _ => tids

def unrankable : IndexHandle → List UnrankableRow
  | cached entry => entry.unrankable
  | fresh _ _ unrankable => unrankable

end IndexHandle

/-! ## The map -/

/-- `CACHE`: one entry a key. -/
abbrev IndexCache := List (CacheKey × CachedIndex)

namespace IndexCache

def get (cache : IndexCache) (key : CacheKey) : Option CachedIndex :=
  (cache.find? fun entry => entry.1 = key).map Prod.snd

def remove (cache : IndexCache) (key : CacheKey) : IndexCache :=
  cache.filter fun entry => entry.1 ≠ key

def insert (cache : IndexCache) (key : CacheKey) (entry : CachedIndex) : IndexCache :=
  (key, entry) :: cache.remove key

def total (cache : IndexCache) : Nat := (cache.map fun entry => entry.2.bytes).sum

/-- Drop victims, in the order the map yields its keys, while the total is over. -/
def evict (exceeds : Nat → Bool) : List CacheKey → IndexCache → IndexCache
  | [], cache => cache
  | victim :: order, cache =>
    if exceeds cache.total then evict exceeds order (cache.remove victim) else cache

/-- Bring the cache down to the ceiling, sparing `key`, and look `key` up. -/
def lookup (cache : IndexCache) (ceiling : Nat) (order : List CacheKey) (key : CacheKey)
    (generation : UInt64) : IndexCache × Option CachedIndex :=
  -- caching switched off: give up everything
  if ceiling = 0 then ([], none)
  else
    let cache := cache.evict (fun total => total > ceiling) (order.filter fun k => k ≠ key)
    match cache.get key with
    | some entry =>
      -- written since this copy was decoded, or over a ceiling since lowered
      if entry.generation ≠ generation then (cache.remove key, none)
      else if entry.bytes > ceiling then (cache.remove key, none)
      else (cache, some entry)
    | none => (cache, none)

/-- Make room for an entry and keep it. -/
def fill (cache : IndexCache) (ceiling : Nat) (order : List CacheKey) (key : CacheKey)
    (entry : CachedIndex) : IndexCache :=
  (cache.evict (fun total => total + entry.bytes > ceiling) order).insert key entry

theorem mem_of_get {cache : IndexCache} {key : CacheKey} {entry : CachedIndex}
    (h : cache.get key = some entry) : (key, entry) ∈ cache := by
  obtain ⟨⟨k, e⟩, hfind, rfl⟩ := Option.map_eq_some_iff.mp h
  have hkey : k = key := by simpa using List.find?_some hfind
  subst hkey
  exact List.mem_of_find?_eq_some hfind

theorem evict_subset (exceeds : Nat → Bool) (order : List CacheKey) (cache : IndexCache) :
    cache.evict exceeds order ⊆ cache := by
  induction order generalizing cache with
  | nil => exact List.Subset.refl _
  | cons victim order ih =>
    unfold evict
    split
    · exact List.Subset.trans (ih _) (List.filter_subset_self _)
    · exact List.Subset.refl _

theorem lookup_subset (cache : IndexCache) (ceiling : Nat) (order : List CacheKey)
    (key : CacheKey) (generation : UInt64) :
    (cache.lookup ceiling order key generation).1 ⊆ cache := by
  have hevict := evict_subset (fun total => total > ceiling) (order.filter fun k => k ≠ key) cache
  unfold lookup
  split
  · exact List.nil_subset _
  · dsimp only
    split
    · split
      · exact List.Subset.trans (List.filter_subset_self _) hevict
      · split
        · exact List.Subset.trans (List.filter_subset_self _) hevict
        · exact hevict
    · exact hevict

/-- A hit was in the cache, under the generation asked for. -/
theorem lookup_hit {cache : IndexCache} {ceiling : Nat} {order : List CacheKey} {key : CacheKey}
    {generation : UInt64} {entry : CachedIndex}
    (h : (cache.lookup ceiling order key generation).2 = some entry) :
    (key, entry) ∈ cache ∧ entry.generation = generation := by
  unfold lookup at h
  split at h
  · cases h
  · dsimp only at h
    split at h
    · next found hget =>
      split at h
      · cases h
      · next hgeneration =>
        split at h
        · cases h
        · cases h
          exact ⟨evict_subset _ _ _ (mem_of_get hget), not_not.mp hgeneration⟩
    · cases h

theorem fill_mem {cache : IndexCache} {ceiling : Nat} {order : List CacheKey} {key : CacheKey}
    {entry : CachedIndex} {p : CacheKey × CachedIndex} (h : p ∈ cache.fill ceiling order key entry) :
    p = (key, entry) ∨ p ∈ cache := by
  rcases List.mem_cons.mp h with rfl | h
  · exact .inl rfl
  · exact .inr (evict_subset _ _ _ (List.mem_of_mem_filter h))

end IndexCache

/-! ## The backend and the files -/

/-- The main fork of one file of an index. -/
structure IndexFile (capacity : Nat) where
  oid : Oid
  fork : Fork capacity
  /-- How often the fork was rewritten since it was built. No step looks at it. -/
  rewrites : Nat

/-- Where `cached_index` has come to. -/
inductive CacheCall where
  | generationRead (oid : Oid) (generation : UInt64)
  | missed (oid : Oid) (generation : UInt64) (key : CacheKey) (ceiling : Nat)

def CacheCall.oid : CacheCall → Oid
  | generationRead oid _ => oid
  | missed oid _ _ _ => oid

structure CacheWorld (capacity : Nat) where
  /-- The file each index lives in. -/
  locator : Oid → Option CacheKey
  /-- Every file there ever was. -/
  files : CacheKey → Option (IndexFile capacity)
  cache : IndexCache
  /-- The call in progress. -/
  call : Option CacheCall
  /-- What the last step answered. -/
  answer : Option (Oid × IndexHandle)

inductive CacheAction where
  /-- A backend stores a new image of an index. -/
  | rewrite (oid : Oid) (blob : List UInt8)
  /-- An index is built into a file. -/
  | rebuild (oid : Oid) (key : CacheKey) (blob : List UInt8)
  /-- A rebuild is rolled back, or the index goes. -/
  | revert (oid : Oid) (file : Option CacheKey)
  /-- `cached_index` begins: it reads the generation. -/
  | readGeneration (oid : Oid)
  /-- It consults the cache; `order` is how the map yields its keys. -/
  | lookup (ceiling : Nat) (order : List CacheKey)
  /-- It loads the image, `bytes` in memory, and keeps it. -/
  | load (bytes : Nat) (order : List CacheKey)

/-- A step of another backend, or of this one between two calls. -/
def CacheAction.Foreign : CacheAction → Prop
  | rewrite _ _ | rebuild _ _ _ | revert _ _ => True
  | readGeneration _ | lookup _ _ | load _ _ => False

instance : DecidablePred CacheAction.Foreign
  | .rewrite _ _ | .rebuild _ _ _ | .revert _ _ => inferInstanceAs (Decidable True)
  | .readGeneration _ | .lookup _ _ | .load _ _ => inferInstanceAs (Decidable False)

namespace CacheWorld

variable {capacity : Nat}

/-- Nothing built, nothing cached. -/
def empty : CacheWorld capacity where
  locator _ := none
  files _ := none
  cache := []
  call := none
  answer := none

/-- The file an index lives in now. -/
def file? (s : CacheWorld capacity) (oid : Oid) : Option (IndexFile capacity) :=
  s.locator oid >>= s.files

def setFile (s : CacheWorld capacity) (key : CacheKey) (file : IndexFile capacity) :
    CacheWorld capacity :=
  { s with files := Function.update s.files key (some file), answer := none }

/-- An error ends the call in progress. -/
def raise (s : CacheWorld capacity) : CacheWorld capacity := { s with call := none, answer := none }

variable [Arith]

def rewriteStep (s : CacheWorld capacity) (oid : Oid) (blob : List UInt8) : CacheWorld capacity :=
  match s.locator oid with
  | none => { s with answer := none }
  | some key =>
    match s.files key with
    | none => { s with answer := none }
    | some file =>
      match rewriteIndexBlob file.fork blob with
      | .ok fork => s.setFile key { file with fork, rewrites := file.rewrites + 1 }
      | .error _ => { s with answer := none }

def rebuildStep (s : CacheWorld capacity) (oid : Oid) (key : CacheKey) (blob : List UInt8) :
    CacheWorld capacity :=
  match writeIndexBlob ([] : Fork capacity) blob with
  | .ok fork =>
    { s.setFile key ⟨oid, fork, 0⟩ with locator := Function.update s.locator oid (some key) }
  | .error _ => { s with answer := none }

def readGenerationStep (s : CacheWorld capacity) (oid : Oid) : CacheWorld capacity :=
  match s.file? oid with
  | none => s.raise
  | some file =>
    match readMeta file.fork with
    | .ok (_, _, generation) =>
      { s with call := some (.generationRead oid generation), answer := none }
    | .error _ => s.raise

def lookupStep (s : CacheWorld capacity) (ceiling : Nat) (order : List CacheKey) :
    CacheWorld capacity :=
  match s.call with
  | some (.generationRead oid generation) =>
    match s.locator oid with
    | none => s.raise
    | some key =>
      match s.cache.lookup ceiling order key generation with
      | (cache, some entry) =>
        { s with cache, call := none, answer := some (oid, .cached entry) }
      | (cache, none) =>
        { s with cache, call := some (.missed oid generation key ceiling), answer := none }
  | _ => s.raise

def loadStep (columns : Oid → Nat) (s : CacheWorld capacity) (bytes : Nat)
    (order : List CacheKey) : CacheWorld capacity :=
  match s.call with
  | some (.missed oid generation key ceiling) =>
    match s.file? oid with
    | none => s.raise
    | some file =>
      match loadIndexWithGeneration (columns oid) file.fork with
      | .error _ => s.raise
      | .ok image =>
        if ceiling = 0 ∨ bytes > ceiling then
          { s with
            call := none
            answer := some (oid, .fresh image.hnsw image.tids image.unrankable) }
        else
          let entry : CachedIndex :=
            { generation
              bytes
              hnsw := image.hnsw
              tids := image.tids
              unrankable := image.unrankable }
          { s with
            cache := s.cache.fill ceiling order key entry
            call := none
            answer := some (oid, .cached entry) }
  | _ => s.raise

def step (columns : Oid → Nat) (s : CacheWorld capacity) :
    CacheAction → Outcome PageError (CacheWorld capacity)
  | .rewrite oid blob => return s.rewriteStep oid blob
  | .rebuild oid key blob => return s.rebuildStep oid key blob
  | .revert oid file =>
    return { s with locator := Function.update s.locator oid file, answer := none }
  | .readGeneration oid => return s.readGenerationStep oid
  | .lookup ceiling order => return s.lookupStep ceiling order
  | .load bytes order => return s.loadStep columns bytes order

omit [Arith] in
/-- No call on `oid` is in progress: a call holds the relation open and locked. -/
def Unlocked (s : CacheWorld capacity) (oid : Oid) : Prop :=
  ∀ call ∈ s.call, call.oid ≠ oid

omit [Arith] in
/-- What the lock manager and the file names promise: an index changes its file only while no call
on it is in progress, and a rebuild gets a file key never used before. -/
def Permitted (s : CacheWorld capacity) : CacheAction → Prop
  | .rewrite _ blob => blob.length < 2 ^ 64
  | .rebuild oid key blob => blob.length < 2 ^ 64 ∧ s.files key = none ∧ s.Unlocked oid
  | .revert oid file =>
    s.Unlocked oid ∧ ∀ key ∈ file, (s.files key).map IndexFile.oid = some oid
  | _ => True

omit [Arith] in
/-- The file a rewrite stores into has been rewritten fewer than 2^64 times. -/
def Unwrapped (s : CacheWorld capacity) : CacheAction → Prop
  | .rewrite oid _ => ∀ file ∈ s.file? oid, file.rewrites + 1 < 2 ^ 64
  | _ => True

omit [Arith] in
instance (s : CacheWorld capacity) (oid : Oid) : Decidable (s.Unlocked oid) :=
  inferInstanceAs (Decidable (∀ call ∈ s.call, call.oid ≠ oid))

omit [Arith] in
instance (s : CacheWorld capacity) : ∀ action, Decidable (s.Permitted action)
  | .rewrite _ blob => inferInstanceAs (Decidable (blob.length < 2 ^ 64))
  | .rebuild oid key blob =>
    have : Decidable (s.files key = none) := decidable_of_iff _ Option.isNone_iff_eq_none
    inferInstanceAs (Decidable (blob.length < 2 ^ 64 ∧ s.files key = none ∧ s.Unlocked oid))
  | .revert oid file => inferInstanceAs (Decidable
      (s.Unlocked oid ∧ ∀ key ∈ file, (s.files key).map IndexFile.oid = some oid))
  | .readGeneration _ => inferInstanceAs (Decidable True)
  | .lookup _ _ => inferInstanceAs (Decidable True)
  | .load _ _ => inferInstanceAs (Decidable True)

omit [Arith] in
instance (s : CacheWorld capacity) : ∀ action, Decidable (s.Unwrapped action)
  | .rewrite oid _ =>
    inferInstanceAs (Decidable (∀ file ∈ s.file? oid, file.rewrites + 1 < 2 ^ 64))
  | .rebuild _ _ _ => inferInstanceAs (Decidable True)
  | .revert _ _ => inferInstanceAs (Decidable True)
  | .readGeneration _ => inferInstanceAs (Decidable True)
  | .lookup _ _ => inferInstanceAs (Decidable True)
  | .load _ _ => inferInstanceAs (Decidable True)

/-! ## Labels and contents -/

omit [Arith] in
/-- The generation of a file rewritten `age` times. -/
def generationAt (age : Nat) : UInt64 := firstGeneration + UInt64.ofNat age

omit [Arith] in
theorem generationAt_succ (age : Nat) : generationAt age + 1 = generationAt (age + 1) := by
  unfold generationAt
  rw [UInt64.ofNat_add, UInt64.add_assoc]
  rfl

omit [Arith] in
/-- Short of wrapping, a generation says how often the file was rewritten. -/
theorem generationAt_inj {a b : Nat} (ha : a < 2 ^ 64) (hb : b < 2 ^ 64)
    (h : generationAt a = generationAt b) : a = b := by
  have hof : UInt64.ofNat a = UInt64.ofNat b := by
    have hcancel := congrArg (fun g => g - firstGeneration) h
    simpa [generationAt, UInt64.add_comm firstGeneration, UInt64.add_sub_cancel] using hcancel
  have hnat := congrArg UInt64.toNat hof
  rwa [UInt64.toNat_ofNat_of_lt' ha, UInt64.toNat_ofNat_of_lt' hb] at hnat

omit [Arith] in
/-- The file holds a blob under the generation its rewrites give. -/
def Stored (file : IndexFile capacity) : Prop :=
  ∃ blob spare, blob.length < 2 ^ 64 ∧ Holds file.fork
    (encodeMeta blob.length (generationAt file.rewrites) ::
      (Bytes.chunks capacity blob ++ List.replicate spare []))

omit [Arith] in
theorem Stored.readMeta (hcap : metaSize ≤ capacity) {file : IndexFile capacity}
    (h : Stored file) : ∃ nblocks blobLen,
      readMeta file.fork = .ok (nblocks, blobLen, generationAt file.rewrites) := by
  obtain ⟨blob, spare, hlen, hholds⟩ := h
  exact ⟨_, _, hholds.readMeta_spare (lt_of_lt_of_le (by decide) hcap) hlen⟩

omit [Arith] in
theorem Stored.rewrite (hcap : metaSize ≤ capacity) {file : IndexFile capacity} (h : Stored file)
    {blob : List UInt8} (hlen : blob.length < 2 ^ 64) :
    Ensures (rewriteIndexBlob file.fork blob) fun fork =>
      Stored { file with fork, rewrites := file.rewrites + 1 } := by
  obtain ⟨nblocks, blobLen, hmeta⟩ := h.readMeta hcap
  refine (rewriteIndexBlob_spec hcap hmeta blob).mono ?_
  rintro fork ⟨spare, hholds⟩
  rw [generationAt_succ] at hholds
  exact ⟨blob, spare, hlen, hholds⟩

omit [Arith] in
theorem Stored.build (hcap : metaSize ≤ capacity) {blob : List UInt8} (hlen : blob.length < 2 ^ 64)
    (oid : Oid) : Ensures (writeIndexBlob ([] : Fork capacity) blob) fun fork =>
      Stored ⟨oid, fork, 0⟩ := by
  refine (writeIndexBlob_spec hcap blob).mono fun fork hholds => ⟨blob, 0, hlen, ?_⟩
  rw [List.replicate_zero, List.append_nil]
  exact hholds

/-- Labelled with a generation of the file's past, or of its present; then it is the present image. -/
def Follows (columns : Oid → Nat) (file : IndexFile capacity) (entry : CachedIndex) : Prop :=
  ∃ age ≤ file.rewrites, entry.generation = generationAt age ∧
    (age = file.rewrites →
      loadIndexWithGeneration (columns file.oid) file.fork = .ok entry.image)

/-- A call that read its generation off a file which may have been rewritten since. -/
def Begun (s : CacheWorld capacity) (oid : Oid) (generation : UInt64) : Prop :=
  ∃ file, s.file? oid = some file ∧ ∃ age ≤ file.rewrites, generation = generationAt age

/-- **The invariant**: labels, contents and the generations of the files. -/
structure Coherent (columns : Oid → Nat) (s : CacheWorld capacity) : Prop where
  stored : ∀ key file, s.files key = some file → Stored file ∧ file.rewrites < 2 ^ 64
  located : ∀ oid key, s.locator oid = some key → ∃ file, s.files key = some file ∧ file.oid = oid
  entries : ∀ key entry, (key, entry) ∈ s.cache →
    ∃ file, s.files key = some file ∧ Follows columns file entry
  begun : ∀ oid generation, s.call = some (.generationRead oid generation) → s.Begun oid generation
  missed : ∀ oid generation key ceiling, s.call = some (.missed oid generation key ceiling) →
    s.Begun oid generation ∧ s.locator oid = some key

theorem Coherent.empty (columns : Oid → Nat) : Coherent columns (empty : CacheWorld capacity) :=
  ⟨nofun, nofun, nofun, nofun, nofun⟩

section Step

variable {columns : Oid → Nat} {s : CacheWorld capacity}

omit [Arith] in
theorem file?_eq {oid : Oid} {key : CacheKey} {file : IndexFile capacity}
    (hkey : s.locator oid = some key) (hfile : s.files key = some file) :
    s.file? oid = some file := by
  unfold file?
  rw [hkey]
  exact hfile

omit [Arith] in
theorem of_file? {oid : Oid} {file : IndexFile capacity} (h : s.file? oid = some file) :
    ∃ key, s.locator oid = some key ∧ s.files key = some file :=
  Option.bind_eq_some_iff.mp h

/-- The call in progress says nothing about what the step answers. -/
theorem Coherent.answered (h : Coherent columns s) (answer : Option (Oid × IndexHandle)) :
    Coherent columns { s with answer } :=
  ⟨h.stored, h.located, h.entries, h.begun, h.missed⟩

theorem Coherent.ended (h : Coherent columns s) (answer : Option (Oid × IndexHandle)) :
    Coherent columns { s with call := none, answer } :=
  ⟨h.stored, h.located, h.entries, nofun, nofun⟩

/-- A rewrite moves the generation past every label. -/
theorem Coherent.rewrite (hcap : metaSize ≤ capacity) (h : Coherent columns s) {oid : Oid}
    {blob : List UInt8} (hlen : blob.length < 2 ^ 64)
    (hwrap : ∀ file, s.file? oid = some file → file.rewrites + 1 < 2 ^ 64) :
    Coherent columns (s.rewriteStep oid blob) := by
  unfold rewriteStep
  cases hkey : s.locator oid with
  | none => exact h.answered none
  | some key =>
    obtain ⟨file, hfile, hoid⟩ := h.located oid key hkey
    obtain ⟨hstored, -⟩ := h.stored key file hfile
    obtain ⟨fork, hrun, hstored'⟩ := hstored.rewrite hcap hlen
    simp only [hfile, hrun]
    -- every file that was there is there, possibly once more rewritten
    have hfiles : ∀ k old, s.files k = some old → ∃ new,
        Function.update s.files key (some { file with fork, rewrites := file.rewrites + 1 }) k =
          some new ∧ new.oid = old.oid ∧ (new = old ∨ old.rewrites < new.rewrites) := by
      intro k old hold
      by_cases hk : k = key
      · subst hk
        rw [hfile] at hold
        cases hold
        exact ⟨_, Function.update_self _ _ _, rfl, .inr (Nat.lt_succ_self _)⟩
      · exact ⟨old, by rw [Function.update_of_ne hk, hold], rfl, .inl rfl⟩
    have hbegun : ∀ oid' generation, s.Begun oid' generation →
        (s.setFile key { file with fork, rewrites := file.rewrites + 1 }).Begun oid' generation := by
      rintro oid' generation ⟨old, hold, age, hage, hgeneration⟩
      obtain ⟨k, hk, hold⟩ := of_file? hold
      obtain ⟨new, hnew, -, hrewrites⟩ := hfiles k old hold
      refine ⟨new, file?_eq hk hnew, age, ?_, hgeneration⟩
      rcases hrewrites with rfl | hlt
      · exact hage
      · exact hage.trans hlt.le
    refine ⟨fun k new hnew => ?_, fun oid' k hk => ?_, fun k entry hentry => ?_,
      fun oid' generation hcall => hbegun oid' generation (h.begun oid' generation hcall),
      fun oid' generation k ceiling hcall => ?_⟩
    · by_cases hk : k = key
      · subst hk
        have hself : some { file with fork, rewrites := file.rewrites + 1 } = some new :=
          (Function.update_self k _ _).symm.trans hnew
        cases hself
        exact ⟨hstored', hwrap file (file?_eq hkey hfile)⟩
      · exact h.stored k new ((Function.update_of_ne hk _ _).symm.trans hnew)
    · obtain ⟨old, hold, rfl⟩ := h.located oid' k hk
      obtain ⟨new, hnew, hoid', -⟩ := hfiles k old hold
      exact ⟨new, hnew, hoid'⟩
    · obtain ⟨old, hold, age, hage, hgeneration, hcurrent⟩ := h.entries k entry hentry
      obtain ⟨new, hnew, hoid', hrewrites⟩ := hfiles k old hold
      refine ⟨new, hnew, age, ?_, hgeneration, fun hnow => ?_⟩
      · rcases hrewrites with rfl | hlt
        · exact hage
        · exact hage.trans hlt.le
      · rcases hrewrites with rfl | hlt
        · exact hcurrent hnow
        · omega
    · obtain ⟨hread, hlocator⟩ := h.missed oid' generation k ceiling hcall
      exact ⟨hbegun oid' generation hread, hlocator⟩

/-- An index that changes its file leaves every call in progress its own. -/
theorem Coherent.relocate (h : Coherent columns s) {oid : Oid} {file : Option CacheKey}
    (hunlocked : s.Unlocked oid)
    (hfile : ∀ key, file = some key → ∃ f, s.files key = some f ∧ f.oid = oid) :
    Coherent columns
      { s with locator := Function.update s.locator oid file, answer := none } := by
  have hother : ∀ oid', (∃ call, s.call = some call ∧ call.oid = oid') →
      Function.update s.locator oid file oid' = s.locator oid' := by
    rintro oid' ⟨call, hcall, rfl⟩
    exact Function.update_of_ne (hunlocked call hcall) _ _
  have hbegun : ∀ oid' generation, (∃ call, s.call = some call ∧ call.oid = oid') →
      s.Begun oid' generation →
      ({ s with locator := Function.update s.locator oid file, answer := none } :
        CacheWorld capacity).Begun oid' generation := by
    rintro oid' generation hcall ⟨old, hold, hage⟩
    obtain ⟨k, hk, hold⟩ := of_file? hold
    exact ⟨old, file?_eq ((hother oid' hcall).trans hk) hold, hage⟩
  refine ⟨h.stored, fun oid' key hkey => ?_, h.entries, fun oid' generation hcall => ?_,
    fun oid' generation key ceiling hcall => ?_⟩
  · by_cases hoid : oid' = oid
    · subst hoid
      exact hfile key ((Function.update_self oid' file s.locator).symm.trans hkey)
    · exact h.located oid' key ((Function.update_of_ne hoid file s.locator).symm.trans hkey)
  · exact hbegun oid' generation ⟨_, hcall, rfl⟩ (h.begun oid' generation hcall)
  · obtain ⟨hread, hlocator⟩ := h.missed oid' generation key ceiling hcall
    exact ⟨hbegun oid' generation ⟨_, hcall, rfl⟩ hread,
      (hother oid' ⟨_, hcall, rfl⟩).trans hlocator⟩

/-- A file with a key never used before touches nothing that is there. -/
theorem Coherent.newFile (h : Coherent columns s) {key : CacheKey} (hfresh : s.files key = none)
    {file : IndexFile capacity} (hstored : Stored file) (hzero : file.rewrites = 0) :
    Coherent columns (s.setFile key file) := by
  have hkept : ∀ k old, s.files k = some old →
      Function.update s.files key (some file) k = some old := by
    intro k old hold
    rw [Function.update_of_ne, hold]
    rintro rfl
    rw [hfresh] at hold
    cases hold
  have hbegun : ∀ oid generation, s.Begun oid generation →
      (s.setFile key file).Begun oid generation := by
    rintro oid generation ⟨old, hold, hage⟩
    obtain ⟨k, hk, hold⟩ := of_file? hold
    exact ⟨old, file?_eq hk (hkept k old hold), hage⟩
  refine ⟨fun k new hnew => ?_, fun oid k hk => ?_, fun k entry hentry => ?_,
    fun oid generation hcall => hbegun oid generation (h.begun oid generation hcall),
    fun oid generation k ceiling hcall => ?_⟩
  · by_cases hk : k = key
    · subst hk
      have hself : some file = some new := (Function.update_self k _ _).symm.trans hnew
      cases hself
      exact ⟨hstored, hzero ▸ by decide⟩
    · exact h.stored k new ((Function.update_of_ne hk _ _).symm.trans hnew)
  · obtain ⟨old, hold, hoid⟩ := h.located oid k hk
    exact ⟨old, hkept k old hold, hoid⟩
  · obtain ⟨old, hold, hfollows⟩ := h.entries k entry hentry
    exact ⟨old, hkept k old hold, hfollows⟩
  · obtain ⟨hread, hlocator⟩ := h.missed oid generation k ceiling hcall
    exact ⟨hbegun oid generation hread, hlocator⟩

theorem Coherent.rebuild (hcap : metaSize ≤ capacity) (h : Coherent columns s) {oid : Oid}
    {key : CacheKey} {blob : List UInt8} (hlen : blob.length < 2 ^ 64)
    (hfresh : s.files key = none) (hunlocked : s.Unlocked oid) :
    Coherent columns (s.rebuildStep oid key blob) := by
  obtain ⟨fork, hrun, hstored⟩ := Stored.build hcap hlen oid
  unfold rebuildStep
  rw [hrun]
  have hnew := h.newFile hfresh hstored rfl
  refine Coherent.relocate hnew hunlocked fun key' hkey' => ?_
  cases hkey'
  exact ⟨⟨oid, fork, 0⟩, Function.update_self _ _ _, rfl⟩

theorem Coherent.readGeneration (hcap : metaSize ≤ capacity) (h : Coherent columns s) (oid : Oid) :
    Coherent columns (s.readGenerationStep oid) := by
  unfold readGenerationStep
  cases hfile : s.file? oid with
  | none => exact h.ended none
  | some file =>
    obtain ⟨key, hkey, hstored⟩ := of_file? hfile
    obtain ⟨nblocks, blobLen, hmeta⟩ := (h.stored key file hstored).1.readMeta hcap
    simp only [hmeta]
    refine ⟨h.stored, h.located, h.entries, fun oid' generation hcall => ?_, nofun⟩
    cases hcall
    exact ⟨file, hfile, file.rewrites, le_rfl, rfl⟩

theorem Coherent.lookup (h : Coherent columns s) (ceiling : Nat) (order : List CacheKey) :
    Coherent columns (s.lookupStep ceiling order) := by
  unfold lookupStep
  split
  · next oid generation hcall =>
    cases hkey : s.locator oid with
    | none => exact h.ended none
    | some key =>
      have hsubset := IndexCache.lookup_subset s.cache ceiling order key generation
      dsimp only
      split
      · next cache entry hlookup =>
        rw [hlookup] at hsubset
        exact ⟨h.stored, h.located, fun k e he => h.entries k e (hsubset he), nofun, nofun⟩
      · next cache hlookup =>
        rw [hlookup] at hsubset
        refine ⟨h.stored, h.located, fun k e he => h.entries k e (hsubset he), nofun, ?_⟩
        intro oid' generation' key' ceiling' hmissed
        cases hmissed
        exact ⟨h.begun oid generation hcall, hkey⟩
  · exact h.ended none

/-- The image is kept under the generation read before it: its own, or one the file has left. -/
theorem Coherent.load (hcap : metaSize ≤ capacity) (h : Coherent columns s) (bytes : Nat)
    (order : List CacheKey) : Coherent columns (s.loadStep columns bytes order) := by
  unfold loadStep
  split
  · next oid generation key ceiling hcall =>
    obtain ⟨⟨file, hfile, age, hage, hgeneration⟩, hkey⟩ := h.missed _ _ _ _ hcall
    obtain ⟨_, hkey', hstored⟩ := of_file? hfile
    cases hkey.symm.trans hkey'
    obtain ⟨nblocks, blobLen, hmeta⟩ := (h.stored key file hstored).1.readMeta hcap
    obtain ⟨file', hfile', hoid⟩ := h.located oid key hkey
    cases hstored.symm.trans hfile'
    simp only [hfile]
    split
    · exact h.ended none
    · next image hload =>
      split
      · exact h.ended _
      · refine ⟨h.stored, h.located, fun k e he => ?_, nofun, nofun⟩
        rcases IndexCache.fill_mem he with hnew | hold
        · cases hnew
          refine ⟨file, hstored, age, hage, hgeneration, fun hnow => ?_⟩
          have himage : image.generation = generationAt file.rewrites :=
            loadIndexWithGeneration_generation hmeta hload
          rw [hoid, hload]
          show Except.ok image = Except.ok ⟨image.hnsw, image.tids, image.unrankable, generation⟩
          rw [hgeneration, hnow, ← himage]
        · exact h.entries k e hold
  · exact h.ended none

/-- Every step keeps the invariant. -/
theorem Coherent.step (hcap : metaSize ≤ capacity) (h : Coherent columns s) (action : CacheAction)
    (hpermitted : s.Permitted action) (hunwrapped : s.Unwrapped action) :
    Ensures (s.step columns action) (Coherent columns) := by
  cases action with
  | rewrite oid blob => exact ensures_pure.mpr (h.rewrite hcap hpermitted hunwrapped)
  | rebuild oid key blob =>
    obtain ⟨hlen, hfresh, hunlocked⟩ := hpermitted
    exact ensures_pure.mpr (h.rebuild hcap hlen hfresh hunlocked)
  | revert oid file =>
    obtain ⟨hunlocked, hfile⟩ := hpermitted
    refine ensures_pure.mpr (h.relocate hunlocked fun key hkey => ?_)
    exact Option.map_eq_some_iff.mp (hfile key hkey)
  | readGeneration oid => exact ensures_pure.mpr (h.readGeneration hcap oid)
  | lookup ceiling order => exact ensures_pure.mpr (h.lookup ceiling order)
  | load bytes order => exact ensures_pure.mpr (h.load hcap bytes order)

/-- What other backends do leaves the call in progress, the cache, and the file of the index the call
is on as they are. -/
structure Steady (s s' : CacheWorld capacity) : Prop where
  call : s'.call = s.call
  cache : s'.cache = s.cache
  locator : ∀ call, s.call = some call → s'.locator call.oid = s.locator call.oid

theorem steady_step {action : CacheAction} (hpermitted : s.Permitted action)
    (hforeign : action.Foreign) : Ensures (s.step columns action) (Steady s) := by
  cases action with
  | rewrite oid blob =>
    refine ensures_pure.mpr ?_
    unfold rewriteStep
    split
    · exact ⟨rfl, rfl, fun _ _ => rfl⟩
    · split
      · exact ⟨rfl, rfl, fun _ _ => rfl⟩
      · split <;> exact ⟨rfl, rfl, fun _ _ => rfl⟩
  | rebuild oid key blob =>
    obtain ⟨-, -, hunlocked⟩ := hpermitted
    refine ensures_pure.mpr ?_
    unfold rebuildStep
    split
    · exact ⟨rfl, rfl, fun call hcall => Function.update_of_ne (hunlocked call hcall) _ _⟩
    · exact ⟨rfl, rfl, fun _ _ => rfl⟩
  | revert oid file =>
    refine ensures_pure.mpr ⟨rfl, rfl, fun call hcall => ?_⟩
    exact Function.update_of_ne (hpermitted.1 call hcall) _ _
  | readGeneration oid => exact hforeign.elim
  | lookup ceiling order => exact hforeign.elim
  | load bytes order => exact hforeign.elim

theorem steady_run {foreign : List CacheAction} (hforeign : ∀ a ∈ foreign, a.Foreign)
    (hpermitted : Along (step columns) Permitted s foreign) :
    Ensures (run (step columns) s foreign) (Steady s) := by
  refine Run.ensures_run (I := Steady s) ?_ ⟨rfl, rfl, fun _ _ => rfl⟩
    (Run.along_and hpermitted hforeign)
  rintro s' action hsteady ⟨hpermitted', hforeign'⟩
  refine (steady_step hpermitted' hforeign').mono fun s'' h => ?_
  refine ⟨h.call.trans hsteady.call, h.cache.trans hsteady.cache, fun call hcall => ?_⟩
  exact (h.locator call (hsteady.call.trans hcall)).trans (hsteady.locator call hcall)

end Step

/-- After any history that meets `C`, a call reads its generation, other backends do as they like,
and the call consults the cache. If it answers, it answers with the image the index had when the
generation was read. -/
def ServesCurrent (columns : Oid → Nat) (C : CacheWorld capacity → CacheAction → Prop) : Prop :=
  ∀ (history : List CacheAction) (oid : Oid) (foreign : List CacheAction) (ceiling : Nat)
    (order : List CacheKey), (∀ a ∈ foreign, a.Foreign) →
    Along (step columns) C (empty : CacheWorld capacity)
      (history ++ (.readGeneration oid :: (foreign ++ [.lookup ceiling order]))) →
    Ensures (run (step columns) (empty : CacheWorld capacity) history) fun s =>
      Ensures (run (step columns) s (.readGeneration oid :: (foreign ++ [.lookup ceiling order])))
        fun s' => ∀ oid' entry, s'.answer = some (oid', .cached entry) →
          oid' = oid ∧ ∃ file, s.file? oid = some file ∧
            loadIndexWithGeneration (columns oid) file.fork = .ok entry.image

omit [Arith] in
theorem readGeneration_frame (s : CacheWorld capacity) (oid : Oid) :
    (s.readGenerationStep oid).cache = s.cache ∧
      (s.readGenerationStep oid).locator = s.locator := by
  unfold readGenerationStep
  split
  · exact ⟨rfl, rfl⟩
  · split <;> exact ⟨rfl, rfl⟩

omit [Arith] in
theorem readGeneration_call {s : CacheWorld capacity} {oid oid' : Oid} {generation : UInt64}
    (h : (s.readGenerationStep oid).call = some (.generationRead oid' generation)) :
    oid = oid' ∧ ∃ file key, s.locator oid' = some key ∧ s.files key = some file ∧
      ∃ nblocks blobLen, readMeta file.fork = .ok (nblocks, blobLen, generation) := by
  unfold readGenerationStep at h
  cases hfile : s.file? oid with
  | none =>
    rw [hfile] at h
    cases h
  | some file =>
    obtain ⟨key, hkey, hstored⟩ := of_file? hfile
    cases hmeta : readMeta file.fork with
    | error e =>
      simp only [hfile, hmeta] at h
      cases h
    | ok r =>
      simp only [hfile, hmeta] at h
      cases h
      exact ⟨rfl, file, key, hkey, hstored, r.1, r.2.1, hmeta⟩

/-- A hit in a coherent cache is the image the generation was read off. -/
theorem Coherent.hit {columns : Oid → Nat} {s : CacheWorld capacity} (h : Coherent columns s)
    {oid : Oid} {key : CacheKey} (hkey : s.locator oid = some key) {file : IndexFile capacity}
    (hfile : s.files key = some file) {entry : CachedIndex} (hentry : (key, entry) ∈ s.cache)
    (hgeneration : entry.generation = generationAt file.rewrites) :
    loadIndexWithGeneration (columns oid) file.fork = .ok entry.image := by
  obtain ⟨file', hfile', age, hage, hlabel, hcurrent⟩ := h.entries key entry hentry
  cases hfile.symm.trans hfile'
  obtain ⟨file', hfile', hoid⟩ := h.located oid key hkey
  cases hfile.symm.trans hfile'
  have hbound := (h.stored key file hfile).2
  have hnow : age = file.rewrites :=
    generationAt_inj (by omega) hbound (hlabel.symm.trans hgeneration)
  rw [← hoid]
  exact hcurrent hnow

/-- **Cache coherence.** In every history in which no file is rewritten 2^64 times, a call that
answers from the cache answers with the image that was current when it read the generation. -/
theorem cached_index_coherent (hcap : metaSize ≤ capacity) (columns : Oid → Nat) :
    @ServesCurrent capacity _ columns fun s a => s.Permitted a ∧ s.Unwrapped a := by
  intro history oid foreign ceiling order hforeign halong
  obtain ⟨hhistory, hcall⟩ := Run.along_split halong
  obtain ⟨s, hrun, hrest, h⟩ := hcall.of_ensures (Run.ensures_run
    (fun s a hs ha => Coherent.step hcap hs a ha.1 ha.2) (Coherent.empty columns) hhistory)
  refine ⟨s, hrun, ?_⟩
  have hfirst := hrest.2
  have hstep : step columns s (.readGeneration oid) = .ok (s.readGenerationStep oid) := rfl
  rw [hstep] at hfirst
  obtain ⟨hothers, -⟩ := Run.along_split hfirst
  obtain ⟨s₂, hrun₂, hsteady⟩ := steady_run hforeign (hothers.mono fun _ _ hc => hc.1)
  refine ⟨s₂.lookupStep ceiling order, ?_, fun oid' entry hanswer => ?_⟩
  · rw [run, List.foldlM_cons, hstep, Outcome.ok_bind, List.foldlM_append]
    rw [run] at hrun₂
    rw [hrun₂]
    rfl
  · -- the call in progress is the one that read the generation, and the cache is what it was
    have hcache : s₂.cache = s.cache := by
      rw [hsteady.cache]
      exact (readGeneration_frame s oid).1
    unfold lookupStep at hanswer
    split at hanswer
    · next oid₂ generation hcall₂ =>
      have hread : (s.readGenerationStep oid).call = some (.generationRead oid₂ generation) :=
        hsteady.call.symm.trans hcall₂
      obtain ⟨rfl, file, key, hkey, hfile, _, _, hmeta⟩ := readGeneration_call hread
      have hkey₂ : s₂.locator oid = some key := by
        rw [← hkey, ← (readGeneration_frame s oid).2]
        exact hsteady.locator _ hread
      rw [hkey₂] at hanswer
      dsimp only at hanswer
      split at hanswer
      · next cache entry' hlookup =>
        cases hanswer
        have hhit := IndexCache.lookup_hit (congrArg Prod.snd hlookup)
        rw [hcache] at hhit
        obtain ⟨nblocks, blobLen, hmeta'⟩ := (h.stored key file hfile).1.readMeta hcap
        cases hmeta.symm.trans hmeta'
        exact ⟨rfl, file, file?_eq hkey hfile, h.hit hkey hfile hhit.1 hhit.2⟩
      · cases hanswer
    · cases hanswer

omit [Arith] in
/-- An empty graph beside some rows without a vector. -/
def rowsBlob (rows : List UnrankableRow) : List UInt8 :=
  ((encodeIndex (@Hnsw.new Arith.ieee HnswParams.default) [] rows).toOption).getD []

omit [Arith] in
def sampleKey : CacheKey := (1663, 5, 16384)

omit [Arith] in
/-- An index is built, and a call on it keeps what it loads. -/
def sampleHistory : List CacheAction :=
  [.rebuild 0 sampleKey (rowsBlob []), .readGeneration 0, .lookup 4096 [], .load 100 []]

omit [Arith] in
theorem cached_index_coherent_sample :
    Ensures (run (@step 8168 Arith.ieee fun _ => 0) empty sampleHistory) fun s =>
      Ensures (run (@step 8168 Arith.ieee fun _ => 0) s
          (.readGeneration 0 :: ([.rewrite 1 []] ++ [.lookup 4096 []])))
        fun s' => ∀ oid' entry, s'.answer = some (oid', .cached entry) →
          oid' = 0 ∧ ∃ file, s.file? 0 = some file ∧
            @loadIndexWithGeneration 8168 Arith.ieee 0 file.fork = .ok entry.image :=
  @cached_index_coherent 8168 Arith.ieee (by decide) (fun _ => 0) sampleHistory 0 [.rewrite 1 []]
    4096 [] (by decide) (by decide +kernel)

/-! ## The generation wraps -/

/-- However often an image is rewritten, the generation counts along. -/
theorem rewrites_run (hcap : metaSize ≤ capacity) {columns : Oid → Nat} {s : CacheWorld capacity}
    {oid : Oid} {key : CacheKey} {blob : List UInt8} (hlen : blob.length < 2 ^ 64)
    (hkey : s.locator oid = some key) {file : IndexFile capacity}
    (hfile : s.files key = some file) (hstored : Stored file) (n : Nat) :
    Ensures (run (step columns) s (List.replicate (n + 1) (.rewrite oid blob))) fun s' =>
      s'.locator = s.locator ∧ s'.cache = s.cache ∧ ∃ file' spare, s'.files key = some file' ∧
        Holds file'.fork (encodeMeta blob.length (generationAt (file.rewrites + (n + 1))) ::
          (Bytes.chunks capacity blob ++ List.replicate spare [])) := by
  induction n generalizing s file with
  | zero =>
    obtain ⟨nblocks, blobLen, hmeta⟩ := hstored.readMeta hcap
    obtain ⟨fork, hrun, spare, hholds⟩ := rewriteIndexBlob_spec hcap hmeta blob
    refine ⟨s.rewriteStep oid blob, rfl, ?_⟩
    unfold rewriteStep
    simp only [hkey, hfile, hrun]
    rw [generationAt_succ] at hholds
    exact ⟨rfl, rfl, _, spare, Function.update_self _ _ _, hholds⟩
  | succ n ih =>
    obtain ⟨fork, hrun, hstored'⟩ := hstored.rewrite hcap hlen
    have hstep : step columns s (.rewrite oid blob) =
        .ok (s.setFile key { file with fork, rewrites := file.rewrites + 1 }) := by
      show Except.ok (s.rewriteStep oid blob) = _
      unfold rewriteStep
      simp only [hkey, hfile, hrun]
    have hrest := ih (s := s.setFile key { file with fork, rewrites := file.rewrites + 1 }) hkey
      (Function.update_self _ _ _) hstored'
    rw [show file.rewrites + (n + 1 + 1) = file.rewrites + 1 + (n + 1) by omega]
    rw [List.replicate_succ, run, List.foldlM_cons, hstep, Outcome.ok_bind]
    exact hrest

omit [Arith] in
/-- A number of rewrites that brings the generation back to where it was brings back the copy decoded
before the first of them. -/
theorem stale_of_wrap {n : Nat} (hn : generationAt (n + 1) = firstGeneration) :
    ¬ @ServesCurrent 8168 Arith.ieee (fun _ => 0) Permitted := by
  let := Arith.ieee
  let blob := rowsBlob [((0, 1), [])]
  have hsample : Ensures (run (step fun _ => 0) (empty : CacheWorld 8168) sampleHistory) fun s =>
      s.locator 0 = some sampleKey ∧ (s.files sampleKey).map IndexFile.rewrites = some 0 ∧
      s.cache.map (fun p => (p.1, p.2.generation, p.2.bytes, p.2.unrankable.length)) =
        [(sampleKey, 1, 100, 0)] := by
    decide +kernel
  have hpermitted : Along (step fun _ => 0) (fun s a => Permitted s a ∧ Unwrapped s a)
      (empty : CacheWorld 8168) sampleHistory := by
    decide +kernel
  have hloaded : Ensures (loadSlice 0 firstGeneration blob) fun image =>
      image.unrankable.length = 1 := by
    decide +kernel
  have hlen : blob.length < 2 ^ 64 := by decide +kernel
  obtain ⟨s, hrun, h⟩ := Run.ensures_run
    (fun s a hs ha => Coherent.step (by decide) hs a ha.1 ha.2) (Coherent.empty _) hpermitted
  obtain ⟨hkey, hfiles, hcache⟩ := hsample.elim hrun
  obtain ⟨file, hfile, hzero⟩ := Option.map_eq_some_iff.mp hfiles
  have hmany : Ensures (run (step fun _ => 0) s (List.replicate (n + 1) (.rewrite 0 blob))) _ :=
    rewrites_run (by decide) hlen hkey hfile (h.stored _ _ hfile).1 n
  obtain ⟨s', hrun', hlocator, hcache', file', spare, hfile', hholds⟩ := hmany
  rw [hzero, Nat.zero_add, hn] at hholds
  have hmeta := hholds.readMeta_spare (by decide) hlen
  obtain ⟨⟨_, entry⟩, _, hentries, hentry, hnone⟩ := List.map_eq_cons_iff.mp hcache
  cases List.map_eq_nil_iff.mp hnone
  simp only [Prod.mk.injEq] at hentry
  obtain ⟨rfl, hgeneration, hbytes, hrows⟩ := hentry
  rw [hentries] at hcache'
  -- the old copy is a hit again
  have hread : s'.readGenerationStep 0 =
      { s' with call := some (.generationRead 0 firstGeneration), answer := none } := by
    unfold readGenerationStep
    simp only [file?_eq (hlocator ▸ hkey) hfile', hmeta]
  have hhit : s'.cache.lookup 4096 [] sampleKey firstGeneration = (s'.cache, some entry) := by
    rw [hcache']
    simp [IndexCache.lookup, IndexCache.evict, IndexCache.get, hgeneration, hbytes,
      firstGeneration]
  have hanswer : ((s'.readGenerationStep 0).lookupStep 4096 []).answer =
      some (0, .cached entry) := by
    unfold lookupStep
    simp only [hread, hlocator, hkey, hhit]
  have hhistory : run (step fun _ => 0) (empty : CacheWorld 8168)
      (sampleHistory ++ List.replicate (n + 1) (.rewrite 0 blob)) = .ok s' := by
    rw [Run.run_append, hrun]
    exact hrun'
  intro hall
  have halong := Run.along_append (hpermitted.mono fun _ _ hc => hc.1) hrun
    (Run.along_replicate (fun t => (hlen : t.Permitted (.rewrite 0 blob))) (n + 1) s)
  obtain ⟨t, hrun₁, t', hrun₂, himage⟩ := hall _ 0 [] 4096 [] nofun
    (Run.along_append halong hhistory ⟨trivial, trivial, trivial⟩)
  cases hhistory.symm.trans hrun₁
  cases hrun₂
  obtain ⟨-, current, hcurrent, hload⟩ := himage 0 entry hanswer
  cases (file?_eq (hlocator ▸ hkey) hfile').symm.trans hcurrent
  have hslice := (load_iff_slice (by decide) hholds hlen 0 entry.image).mp hload
  have hone := hloaded.elim hslice
  have hzero' : entry.image.unrankable.length = 0 := hrows
  omega

omit [Arith] in
/-- After 2^64 rewrites the generation is back where it was. -/
theorem not_servesCurrent : ¬ @ServesCurrent 8168 Arith.ieee (fun _ => 0) Permitted :=
  @stale_of_wrap (2 ^ 64 - 1) rfl

end CacheWorld

end Brindle
