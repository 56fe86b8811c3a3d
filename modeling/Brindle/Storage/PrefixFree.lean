/-
# Brindle.Storage.PrefixFree — no accepted image is a prefix of another.

Adding bytes behind an accepted input changes what the decoders are told about how much is left, and
nothing they read: they read the same values and find the addition at the end. So a proper extension
of an accepted input is refused, and therefore a strict prefix of one as well, or the input would be a
refused extension of it.
-/
import Brindle.Hnsw.Longer
import Brindle.Storage.GuardedPayload

namespace Brindle

open Outcome (Ensures fail)
open PayloadReader (ofDecoder require)
open Reader (Extends)

/-! ## The tables on a longer input -/

theorem extends_ofDecoder {α : Type} {d e : Decoder (List UInt8) α}
    (f : HnswDecodeError → PayloadError) (h : Extends d e) :
    Extends (ofDecoder f d) (ofDecoder f e) := by
  intro s a s' hrun tail
  exact Outcome.mapError_eq_ok.mpr (h s a s' (Outcome.mapError_eq_ok.mp hrun) tail)

/-- A count that what is left could hold: with more left, it still could. -/
theorem extends_payload_bounded {α : Type} (unit count : Nat) {f : PayloadReader (List UInt8) α}
    (h : Extends f f) :
    let table : PayloadReader (List UInt8) α := do
      require (count ≤ (← ofDecoder asTruncated Decoder.remaining) / unit) .truncated
      f
    Extends table table := by
  intro table s a s' hrun tail
  have htable : ∀ s : List UInt8,
      table s = if count ≤ s.length / unit then f s else fail .truncated := by
    intro s
    show (require (decide (count ≤ s.length / unit)) PayloadError.truncated >>= fun _ => f) s = _
    unfold require
    by_cases hle : count ≤ s.length / unit
    · rw [if_pos hle, if_pos (decide_eq_true hle)]
      rfl
    · rw [if_neg hle, if_neg (by simpa using hle)]
      rfl
  rw [htable] at hrun ⊢
  split_ifs at hrun with hle
  · have hmore : s.length / unit ≤ (s ++ tail).length / unit := by
      apply Nat.div_le_div_right
      rw [List.length_append]
      exact Nat.le_add_right _ _
    rw [if_pos (hle.trans hmore)]
    exact h s a s' hrun tail
  · cases hrun

theorem extends_items {α : Type} {d : PayloadReader (List UInt8) α} (h : Extends d d) (k : Nat) :
    Extends (readItems k d) (readItems k d) := by
  induction k with
  | zero => exact Extends.pure []
  | succ k ih =>
    apply h.bind
    intro x
    exact ih.bind fun xs => Extends.pure (x :: xs)

theorem extends_tid :
    Extends (readTid : PayloadReader (List UInt8) TidPair) readTid :=
  (extends_ofDecoder asTruncated (extends_readExact 6)).bind fun _ => Extends.pure _

theorem extends_tidTable :
    Extends (readTidTable : PayloadReader (List UInt8) (List TidPair)) readTidTable := by
  apply (extends_ofDecoder asTruncated extends_readLen).bind
  intro count
  exact extends_payload_bounded 6 count (extends_items extends_tid count)

theorem extends_unrankable :
    Extends (readUnrankable : PayloadReader (List UInt8) (List UnrankableRow)) readUnrankable := by
  apply (extends_ofDecoder asTruncated extends_readLen).bind
  intro count
  apply extends_payload_bounded 14 count
  apply extends_items
  apply extends_tid.bind
  intro tid
  exact (extends_ofDecoder attrRowError extends_attrRow).bind fun _ => Extends.pure _

theorem extends_graphLen :
    Extends (readGraphLen : PayloadReader (List UInt8) Nat) readGraphLen := by
  apply (extends_ofDecoder asTruncated extends_readLen).bind
  intro len
  have h := extends_payload_bounded 1 len (Extends.pure (ε := PayloadError) (γ := UInt8) len)
  simp only [Nat.div_one] at h
  exact h

/-! ## The whole input -/

theorem decodeIndexPayload_longer {blob : List UInt8}
    {r : List UInt8 × List TidPair × List UnrankableRow} (h : decodeIndexPayload blob = .ok r)
    {tail : List UInt8} (htail : tail ≠ []) :
    decodeIndexPayload (blob ++ tail) = fail .trailingBytes := by
  unfold decodeIndexPayload at h ⊢
  obtain ⟨⟨graphLen, rest⟩, hlen, h⟩ := Outcome.bind_eq_ok.mp h
  obtain ⟨-, -, hle⟩ := readGraphLen_ok hlen
  dsimp only at h
  rw [extends_graphLen blob graphLen rest hlen tail, Outcome.ok_bind]
  dsimp only
  rw [Outcome.slice_ok (by omega), Outcome.ok_bind] at h
  rw [Outcome.slice_ok (by rw [List.length_append]; omega), Outcome.ok_bind,
    List.drop_append_of_le_length hle]
  obtain ⟨⟨tids, rest'⟩, htids, h⟩ := Outcome.bind_eq_ok.mp h
  rw [extends_tidTable _ tids rest' htids tail, Outcome.ok_bind]
  dsimp only at h ⊢
  obtain ⟨⟨rows, rest''⟩, hrows, h⟩ := Outcome.bind_eq_ok.mp h
  rw [extends_unrankable _ rows rest'' hrows tail, Outcome.ok_bind]
  dsimp only at h ⊢
  have hsome : (rest'' ++ tail).length ≠ 0 := by
    rw [List.length_append]
    have hpos := List.length_pos_of_ne_nil htail
    omega
  rw [if_pos hsome]
  rfl

theorem fromBytes_longer [Arith] {bytes : List UInt8} {h : Hnsw}
    (hdec : Hnsw.fromBytes bytes = .ok h) {tail : List UInt8} (htail : tail ≠ []) :
    Hnsw.fromBytes (bytes ++ tail) = fail (.invalid "trailing bytes") := by
  unfold Hnsw.fromBytes at hdec ⊢
  obtain ⟨r, hrun, -⟩ := Outcome.bind_eq_ok.mp hdec
  rw [fromGraphBytes_longer hrun htail]
  rfl

/-- The decoder reports an error. -/
def Rejects {ε α : Type} (x : Outcome ε α) : Prop := ∃ e, x = fail e

/-- Where every extension of an accepted input is rejected, so is every strict prefix. -/
theorem rejects_initial {ε α : Type} {decode : List UInt8 → Outcome ε α}
    (hsafe : ∀ bytes, Outcome.Safe (decode bytes))
    (hlonger : ∀ bytes a tail, decode bytes = .ok a → tail ≠ [] → Rejects (decode (bytes ++ tail)))
    {bytes : List UInt8} {a : α} (h : decode bytes = .ok a) {start : List UInt8}
    (hstart : start <+: bytes) (hne : start ≠ bytes) : Rejects (decode start) := by
  obtain ⟨tail, rfl⟩ := hstart
  cases hrun : decode start with
  | error fault =>
    obtain ⟨e, rfl⟩ := hsafe start fault hrun
    exact ⟨e, rfl⟩
  | ok b =>
    have htail : tail ≠ [] := by
      rintro rfl
      exact hne (List.append_nil start).symm
    obtain ⟨e, he⟩ := hlonger start b tail hrun htail
    rw [h] at he
    cases he

/-- **The image format is prefix-free.** A strict prefix and a proper extension of an accepted payload
are rejected as payloads, and those of an accepted graph section as graph sections. -/
theorem image_prefix_free [Arith] :
    (∀ p graph tids rows h, decodeIndexPayload p = .ok (graph, tids, rows) →
      Hnsw.fromBytes graph = .ok h →
      (∀ start, start <+: p → start ≠ p → Rejects (decodeIndexPayload start)) ∧
        ∀ tail, tail ≠ [] → Rejects (decodeIndexPayload (p ++ tail))) ∧
    ∀ g h, Hnsw.fromBytes g = .ok h →
      (∀ start, start <+: g → start ≠ g → Rejects (Hnsw.fromBytes start)) ∧
        ∀ tail, tail ≠ [] → Rejects (Hnsw.fromBytes (g ++ tail)) := by
  have hpayload : ∀ bytes a tail, decodeIndexPayload bytes = .ok a → tail ≠ [] →
      Rejects (decodeIndexPayload (bytes ++ tail)) :=
    fun bytes a tail h htail => ⟨_, decodeIndexPayload_longer h htail⟩
  have hgraph : ∀ bytes a tail, Hnsw.fromBytes bytes = .ok a → tail ≠ [] →
      Rejects (Hnsw.fromBytes (bytes ++ tail)) :=
    fun bytes a tail h htail => ⟨_, fromBytes_longer h htail⟩
  constructor
  · intro p graph tids rows h hdec _
    refine ⟨fun start hstart hne => ?_, fun tail htail => hpayload p _ tail hdec htail⟩
    exact rejects_initial decodeIndexPayload_safe hpayload hdec hstart hne
  · intro g h hdec
    refine ⟨fun start hstart hne => ?_, fun tail htail => hgraph g h tail hdec htail⟩
    exact rejects_initial fromBytes_safe hgraph hdec hstart hne

/-- The image of the price list with its third row deleted: six nodes with their heap pointers, and a
row without a vector. -/
def soldImage : Outcome HnswError (List UInt8) := do
  let hnsw ← Hnsw.soldGraph
  encodeIndex hnsw [(0, 1), (0, 2), (0, 3), (0, 4), (1, 1), (1, 2)] [((1, 3), [.int 8, .null])]

/-- The image of the price list and the graph in it, cut anywhere and followed by anything. -/
theorem image_prefix_free_sold :
    Ensures soldImage fun p => ∃ graph tids rows, decodeIndexPayload p = .ok (graph, tids, rows) ∧
      (tids.length = 6 ∧ rows.length = 1) ∧
      ((∀ start, start <+: p → start ≠ p → Rejects (decodeIndexPayload start)) ∧
        ∀ tail, tail ≠ [] → Rejects (decodeIndexPayload (p ++ tail))) ∧
      (∀ start, start <+: graph → start ≠ graph → Rejects (@Hnsw.fromBytes Arith.ieee start)) ∧
        ∀ tail, tail ≠ [] → Rejects (@Hnsw.fromBytes Arith.ieee (graph ++ tail)) := by
  have hfacts : Ensures soldImage fun p => Ensures (decodeIndexPayload p) fun r =>
      (r.2.1.length = 6 ∧ r.2.2.length = 1) ∧
        Ensures (@Hnsw.fromBytes Arith.ieee r.1) fun _ => True := by
    decide +kernel
  obtain ⟨p, himage, ⟨graph, tids, rows⟩, hpayload, hcounts, h, hdec, -⟩ := hfacts
  exact ⟨p, himage, graph, tids, rows, hpayload, hcounts,
    (@image_prefix_free Arith.ieee).1 p graph tids rows h hpayload hdec,
    (@image_prefix_free Arith.ieee).2 graph h hdec⟩

end Brindle
