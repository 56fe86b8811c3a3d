/-
# Brindle.Storage.GuardedPayload — the framing of the stored blob on arbitrary bytes.

The tables behind the graph declare their own counts, and the graph its own length. The readers of
`Payload` return or report an error whatever the blob is; the guarded ones, which also reserve and
compute offsets as the source does, are the same functions on blobs short of `2 ^ 45` bytes.
-/
import Brindle.Hnsw.Guarded
import Brindle.Storage.Payload

namespace Brindle

open Bytes (leBytes)
open Outcome (Safe fail panicked)
open PayloadReader (ofDecoder require)
open Reader (Handles Matches)

section Read

variable {S : Type} [GraphBytes S]

/-- `read_tid_table`. -/
def readTidTableGuarded : PayloadReader S (List TidPair) := do
  let count ← ofDecoder asTruncated Decoder.readLen
  let left ← ofDecoder asTruncated Decoder.remaining
  require (count ≤ left / 6) .truncated
  reserve .tids count left
  readItems count readTid

def readUnrankableRowGuarded : PayloadReader S UnrankableRow := do
  let tid ← readTid
  return (tid, ← ofDecoder attrRowError readAttrRowGuarded)

/-- `read_unrankable`. -/
def readUnrankableGuarded : PayloadReader S (List UnrankableRow) := do
  let count ← ofDecoder asTruncated Decoder.readLen
  let left ← ofDecoder asTruncated Decoder.remaining
  require (count ≤ left / 14) .truncated
  reserve .rows (min count (left / 32)) left
  readItems count readUnrankableRowGuarded

/-! ## Errors and nothing worse -/

theorem handles_ofDecoder {α : Type} {d : Decoder S α} {Q : α → Prop}
    (f : HnswDecodeError → PayloadError) (h : Handles GraphBytes.remaining d Q) :
    Handles GraphBytes.remaining (ofDecoder f d) Q where
  safe s := by
    intro fault hfault
    have hsafe := h.safe s
    have hmapped : (d s).mapError f = .error fault := hfault
    cases hrun : d s with
    | ok r =>
      rw [hrun] at hmapped
      cases hmapped
    | error fault' =>
      obtain ⟨e, rfl⟩ := hsafe fault' hrun
      rw [hrun] at hmapped
      cases hmapped
      exact ⟨f e, rfl⟩
  post s a s' ha := h.post s a s' (Outcome.mapError_eq_ok.mp ha)

theorem handles_payload_require (ok : Bool) (e : PayloadError) :
    Handles GraphBytes.remaining (require ok e : PayloadReader S Unit) fun _ => ok = true := by
  cases ok with
  | true => exact Handles.pure rfl
  | false => exact ⟨fun _ => Outcome.safe_fail e, fun _ _ _ h => nomatch h⟩

theorem handles_items {α : Type} {d : PayloadReader S α} {Q : α → Prop}
    (h : Handles GraphBytes.remaining d Q) (k : Nat) :
    Handles GraphBytes.remaining (readItems k d) fun _ => True := by
  induction k with
  | zero => exact Handles.pure trivial
  | succ k ih =>
    apply h.bind
    intro x _
    apply ih.bind
    intro xs _
    exact Handles.pure trivial

/-- What is left of a source, to a reader of the framing. -/
theorem handles_left : Handles GraphBytes.remaining
    (ofDecoder asTruncated Decoder.remaining : PayloadReader S Nat) fun _ => True :=
  handles_ofDecoder asTruncated handles_remaining

variable [LawfulBytes S]

theorem handles_tid :
    Handles GraphBytes.remaining (readTid : PayloadReader S TidPair) fun _ => True := by
  apply (handles_ofDecoder asTruncated (handles_readExact 6)).bind
  intro entry _
  exact Handles.pure trivial

theorem handles_count : Handles GraphBytes.remaining
    (ofDecoder asTruncated Decoder.readLen : PayloadReader S Nat) fun _ => True :=
  (handles_ofDecoder asTruncated handles_readLen).mono fun _ _ => trivial

theorem handles_tidTable :
    Handles GraphBytes.remaining (readTidTable : PayloadReader S (List TidPair)) fun _ => True := by
  apply handles_count.bind
  intro count _
  apply handles_left.bind
  intro left _
  apply (handles_payload_require _ _).bind
  intro _ _
  exact handles_items handles_tid count

theorem handles_unrankableRow :
    Handles GraphBytes.remaining (readUnrankableRow : PayloadReader S UnrankableRow)
      fun _ => True := by
  apply handles_tid.bind
  intro tid _
  apply (handles_ofDecoder attrRowError handles_attrRow).bind
  intro attrs _
  exact Handles.pure trivial

theorem handles_unrankable :
    Handles GraphBytes.remaining (readUnrankable : PayloadReader S (List UnrankableRow))
      fun _ => True := by
  apply handles_count.bind
  intro count _
  apply handles_left.bind
  intro left _
  apply (handles_payload_require _ _).bind
  intro _ _
  exact handles_items handles_unrankableRow count

/-! ## The guarded readers are the readers -/

variable {limit : Nat}

omit [LawfulBytes S] in
theorem matches_ofDecoder {α : Type} {g d : Decoder S α} (f : HnswDecodeError → PayloadError)
    (h : Matches GraphBytes.remaining limit g d) :
    Matches GraphBytes.remaining limit (ofDecoder f g) (ofDecoder f d) :=
  fun s hs => congrArg (Outcome.mapError f) (h s hs)

theorem matches_tidTable :
    Matches GraphBytes.remaining limit (readTidTableGuarded : PayloadReader S _) readTidTable := by
  apply Matches.step handles_count
  intro count _
  apply Matches.step handles_left
  intro left _
  apply Matches.step (handles_payload_require _ _)
  intro _ hcount
  exact matches_reserve (of_decide_eq_true hcount) (Matches.refl _)

theorem matches_unrankable :
    Matches GraphBytes.remaining limit (readUnrankableGuarded : PayloadReader S _)
      readUnrankable := by
  apply Matches.step handles_count
  intro count _
  apply Matches.step handles_left
  intro left _
  apply Matches.step (handles_payload_require _ _)
  intro _ _
  apply matches_reserve (Nat.min_le_right _ _)
  have hrow : Matches GraphBytes.remaining limit
      (readUnrankableRowGuarded : PayloadReader S _) readUnrankableRow := by
    apply Matches.step handles_tid
    intro tid _
    exact (matches_ofDecoder attrRowError matches_attrRow).bind
      (handles_ofDecoder attrRowError handles_attrRow) fun _ _ => Matches.refl _
  clear * - hrow
  induction count with
  | zero => exact Matches.refl _
  | succ count ih =>
    apply hrow.bind handles_unrankableRow
    intro row _
    exact ih.bind (handles_items handles_unrankableRow count) fun _ _ => Matches.refl _

end Read

/-- The declared length of a graph is one the rest of the blob can supply. -/
theorem readGraphLen_ok {blob rest : List UInt8} {graphLen : Nat}
    (h : readGraphLen blob = .ok (graphLen, rest)) :
    rest = blob.drop 8 ∧ 8 ≤ blob.length ∧ graphLen ≤ rest.length := by
  unfold readGraphLen at h
  rw [Reader.bind_apply] at h
  obtain ⟨⟨len, left⟩, hlen, h⟩ := Outcome.bind_eq_ok.mp h
  have hread := Outcome.mapError_eq_ok.mp hlen
  unfold Decoder.readLen Decoder.u64 Decoder.readLe at hread
  rw [Reader.bind_apply] at hread
  obtain ⟨⟨bs, left'⟩, hexact, hread⟩ := Outcome.bind_eq_ok.mp hread
  have hexact' : (if 8 > blob.length then Outcome.fail HnswDecodeError.truncated
    else .ok (blob.take 8, blob.drop 8)) = .ok (bs, left') := hexact
  split_ifs at hexact' with hshort
  · cases hexact'
  · cases hexact'
    cases hread
    rw [Reader.bind_apply] at h
    obtain ⟨⟨total, left''⟩, hleft, h⟩ := Outcome.bind_eq_ok.mp h
    cases hleft
    rw [Reader.bind_apply] at h
    obtain ⟨⟨⟨⟩, left'''⟩, hreq, h⟩ := Outcome.bind_eq_ok.mp h
    unfold require at hreq
    split_ifs at hreq with hle
    · cases hreq
      cases h
      exact ⟨rfl, not_lt.mp hshort, of_decide_eq_true hle⟩
    · cases hreq

theorem readGraphLen_safe (blob : List UInt8) : Safe (readGraphLen blob) := by
  have h : Handles GraphBytes.remaining (readGraphLen : PayloadReader (List UInt8) Nat)
      fun _ => True := by
    apply handles_count.bind
    intro len _
    apply handles_left.bind
    intro left _
    apply (handles_payload_require _ _).bind
    intro _ _
    exact Handles.pure trivial
  exact h.safe blob

/-- `decode_index_payload`, with its offsets into the blob. -/
def decodeIndexPayloadGuarded (blob : List UInt8) :
    Outcome PayloadError (List UInt8 × List TidPair × List UnrankableRow) := do
  let (graphLen, src) ← readGraphLen blob
  let start ← Usize.sub blob.length src.length
  let stop ← Usize.add start graphLen
  let graph ← Outcome.slice blob start graphLen
  let rest ← if stop ≤ blob.length then .ok (blob.drop stop) else panicked
  let (tids, rest) ← readTidTableGuarded rest
  let (unrankable, rest) ← readUnrankableGuarded rest
  if rest.length ≠ 0 then fail .trailingBytes
  return (graph, tids, unrankable)

/-! ## The whole blob -/

theorem decodeIndexPayload_safe (blob : List UInt8) : Safe (decodeIndexPayload blob) := by
  intro fault hfault
  unfold decodeIndexPayload at hfault
  cases hlen : readGraphLen blob with
  | error fault' =>
    rw [hlen] at hfault
    cases hfault
    exact readGraphLen_safe blob fault hlen
  | ok r =>
    obtain ⟨graphLen, rest⟩ := r
    obtain ⟨-, -, hle⟩ := readGraphLen_ok hlen
    rw [hlen, Outcome.ok_bind] at hfault
    dsimp only at hfault
    rw [Outcome.slice_ok (by omega), Outcome.ok_bind] at hfault
    cases htids : readTidTable (rest.drop graphLen) with
    | error fault' =>
      rw [htids] at hfault
      cases hfault
      exact (handles_tidTable (S := List UInt8)).safe _ fault htids
    | ok r =>
      obtain ⟨tids, rest'⟩ := r
      rw [htids, Outcome.ok_bind] at hfault
      dsimp only at hfault
      cases hrows : readUnrankable rest' with
      | error fault' =>
        rw [hrows] at hfault
        cases hfault
        exact (handles_unrankable (S := List UInt8)).safe _ fault hrows
      | ok r =>
        obtain ⟨rows, rest''⟩ := r
        rw [hrows, Outcome.ok_bind] at hfault
        dsimp only at hfault
        split_ifs at hfault with hdone
        · cases hfault
          exact ⟨_, rfl⟩
        · cases hfault

theorem decodeIndexPayloadGuarded_eq {blob : List UInt8} (hblob : blob.length < 2 ^ 45) :
    decodeIndexPayloadGuarded blob = decodeIndexPayload blob := by
  unfold decodeIndexPayloadGuarded decodeIndexPayload
  cases hlen : readGraphLen blob with
  | error fault => rfl
  | ok r =>
    obtain ⟨graphLen, rest⟩ := r
    obtain ⟨hrest, hframe, hle⟩ := readGraphLen_ok hlen
    have hsize : rest.length = blob.length - 8 := by
      rw [hrest, List.length_drop]
    have hword : (2 : Nat) ^ 47 < Usize.words := by decide
    have hstart : blob.length - rest.length = 8 := by omega
    rw [Outcome.ok_bind, Outcome.ok_bind]
    dsimp only
    rw [Usize.sub_ok (by omega), Outcome.ok_bind, hstart, Usize.add_ok (by omega), Outcome.ok_bind,
      Outcome.slice_ok (by omega), Outcome.slice_ok (by omega), Outcome.ok_bind, Outcome.ok_bind,
      if_pos (by omega), Outcome.ok_bind, hrest, List.drop_drop, List.drop_zero]
    -- from here on the two read the same bytes
    have htids := @matches_tidTable (List UInt8) _ _ blob.length
      (blob.drop (8 + graphLen)) (by exact (List.length_drop ..).le.trans (Nat.sub_le _ _))
    rw [htids]
    cases hrun : readTidTable (blob.drop (8 + graphLen)) with
    | error fault => rfl
    | ok r =>
      obtain ⟨tids, rest'⟩ := r
      rw [Outcome.ok_bind, Outcome.ok_bind]
      dsimp only
      rw [@matches_unrankable (List UInt8) _ _ rest'.length rest' le_rfl]

/-! ## Decoder safety -/

/-- The guarded computation is the plain one, and it returns or reports an error. -/
def Harmless {ε α : Type} (guarded plain : Outcome ε α) : Prop :=
  guarded = plain ∧ Safe guarded

theorem Harmless.of_eq {ε α : Type} {guarded plain : Outcome ε α} (heq : guarded = plain)
    (hsafe : Safe plain) : Harmless guarded plain :=
  ⟨heq, heq ▸ hsafe⟩

/-- **Decoder safety.** On fewer than `2 ^ 45` bytes of whatever content, none of the decoders leaves
an array or the 64-bit word, or asks for more room than its share of the bytes. -/
theorem decoders_harmless [Arith] [Arith.Rounds] (bytes : List UInt8)
    (hlen : bytes.length < 2 ^ 45) :
    Harmless (Hnsw.fromBytesGuarded bytes) (Hnsw.fromBytes bytes) ∧
      Harmless (Hnsw.fromGraphBytesGuarded bytes) (Hnsw.fromGraphBytes bytes) ∧
      Harmless (readAttrRowGuarded bytes) (readAttrRow bytes) ∧
      Harmless (readTidTableGuarded bytes) (readTidTable bytes) ∧
      Harmless (readUnrankableGuarded bytes) (readUnrankable bytes) ∧
      Harmless (decodeIndexPayloadGuarded bytes) (decodeIndexPayload bytes) := by
  have hmatch : GraphBytes.remaining bytes ≤ bytes.length := le_rfl
  refine ⟨?_, ?_, ?_, ?_, ?_, ?_⟩
  · exact .of_eq (fromBytesGuarded_eq hlen) (fromBytes_safe bytes)
  · exact .of_eq (fromGraphBytesGuarded_eq hlen bytes hmatch) (handles_graph.safe bytes)
  · exact .of_eq (matches_attrRow bytes hmatch) (handles_attrRow.safe bytes)
  · exact .of_eq (matches_tidTable bytes hmatch) (handles_tidTable.safe bytes)
  · exact .of_eq (matches_unrankable bytes hmatch) (handles_unrankable.safe bytes)
  · exact .of_eq (decodeIndexPayloadGuarded_eq hlen) (decodeIndexPayload_safe bytes)

/-- A header that promises `n` rows of 16000 components each, and the beginning of one row. -/
def boastful (n : Nat) : List UInt8 :=
  ({ @Hnsw.new Arith.ieee HnswParams.default with n, dim := 16000, entryPoint := some 0 } :
      Hnsw).writeHeader ++ [0] ++ leBytes 8 1 ++ List.replicate 64 0

/-- A header that promises `2 ^ 63` rows, and one whose single row is cut short: both are truncated. -/
theorem decoders_harmless_boastful :
    (Harmless (@Hnsw.fromBytesGuarded Arith.ieee (boastful (2 ^ 63)))
          (@Hnsw.fromBytes Arith.ieee (boastful (2 ^ 63))) ∧
        Harmless (@Hnsw.fromGraphBytesGuarded (List UInt8) _ Arith.ieee (boastful (2 ^ 63)))
          (@Hnsw.fromGraphBytes (List UInt8) _ Arith.ieee (boastful (2 ^ 63))) ∧
        Harmless (readAttrRowGuarded (boastful (2 ^ 63))) (readAttrRow (boastful (2 ^ 63))) ∧
        Harmless (readTidTableGuarded (boastful (2 ^ 63))) (readTidTable (boastful (2 ^ 63))) ∧
        Harmless (readUnrankableGuarded (boastful (2 ^ 63))) (readUnrankable (boastful (2 ^ 63))) ∧
        Harmless (decodeIndexPayloadGuarded (boastful (2 ^ 63)))
          (decodeIndexPayload (boastful (2 ^ 63)))) ∧
      @Hnsw.fromBytesGuarded Arith.ieee (boastful (2 ^ 63)) = fail .truncated ∧
      Harmless (@Hnsw.fromBytesGuarded Arith.ieee (boastful 1))
        (@Hnsw.fromBytes Arith.ieee (boastful 1)) ∧
      @Hnsw.fromBytesGuarded Arith.ieee (boastful 1) = fail .truncated := by
  refine ⟨@decoders_harmless Arith.ieee _ (boastful (2 ^ 63)) (by decide +kernel), ?_,
    (@decoders_harmless Arith.ieee _ (boastful 1) (by decide +kernel)).1, ?_⟩
  · decide +kernel
  · decide +kernel

end Brindle
