/-
# Brindle.Hnsw.Longer — the graph decoder on a longer input.

A count is accepted when what is left of the source could hold it, and the ceiling on the link slots
is itself computed from what is left. Both checks only loosen as bytes are added behind the input, so
every part of the decoder that accepts an input accepts it with anything behind it, reads the same
value out of it, and leaves the addition unread. What then refuses the longer input is the last check
of all, that nothing is left.
-/
import Brindle.Hnsw.Codec

namespace Brindle

open Reader (Extends)
open Decoder

/-- What refuses the shorter input is not asked about the longer one. -/
theorem extends_fail {α : Type} (e : HnswDecodeError) (g : Decoder (List UInt8) α) :
    Extends (Decoder.fail e) g := by
  intro s a s' h
  cases h

/-- A check that passes on the shorter input passes on the longer one. -/
theorem extends_require {ok ok' : Bool} (hok : ok = true → ok' = true) (e : HnswDecodeError) :
    Extends (require ok e : Decoder (List UInt8) Unit) (require ok' e) := by
  cases ok with
  | false => exact extends_fail e _
  | true =>
    rw [hok rfl]
    exact Extends.pure ()

/-- A check on what has been read, which the addition does not change. -/
theorem extends_same (ok : Bool) (e : HnswDecodeError) :
    Extends (require ok e : Decoder (List UInt8) Unit) (require ok e) :=
  extends_require id e

theorem extends_checked {α : Type} (x : Outcome HnswDecodeError α) :
    Extends (checked x : Decoder (List UInt8) α) (checked x) := by
  intro s a s' h tail
  cases x with
  | error fault => cases h
  | ok b =>
    cases h
    rfl

/-- Bytes that are there are there still, and the rest is longer by the addition. -/
theorem extends_readExact (k : Nat) :
    Extends (Decoder.readExact k : Decoder (List UInt8) _) (Decoder.readExact k) := by
  intro s bs s' h tail
  have hread : (if k > s.length then Outcome.fail HnswDecodeError.truncated
    else .ok (s.take k, s.drop k)) = .ok (bs, s') := h
  show (if k > (s ++ tail).length then Outcome.fail HnswDecodeError.truncated
    else .ok ((s ++ tail).take k, (s ++ tail).drop k)) = .ok (bs, s' ++ tail)
  split_ifs at hread with hk
  · cases hread
  · cases hread
    have hk' : k ≤ s.length := not_lt.mp hk
    rw [if_neg (by rw [List.length_append]; omega), List.take_append_of_le_length hk',
      List.drop_append_of_le_length hk']

/-- A step that only asks how much is left: on the longer input it is told more. -/
theorem extends_remaining {α : Type} {f g : Nat → Decoder (List UInt8) α}
    (h : ∀ left more, left ≤ more → Extends (f left) (g more)) :
    Extends (Decoder.remaining >>= f) (Decoder.remaining >>= g) := by
  intro s a s' hrun tail
  have hle : s.length ≤ (s ++ tail).length := by
    rw [List.length_append]
    exact Nat.le_add_right _ _
  exact h s.length (s ++ tail).length hle s a s' hrun tail

/-- A count the source can hold: what `read_len` is followed by throughout the format. -/
theorem extends_bounded {α : Type} (unit count : Nat) (e : HnswDecodeError)
    {f g : Decoder (List UInt8) α} (h : Extends f g) :
    Extends (do require (count ≤ (← remaining) / unit) e; f)
      (do require (count ≤ (← remaining) / unit) e; g) := by
  apply extends_remaining
  intro left more hle
  refine (extends_require (fun hok => ?_) e).bind fun _ => h
  have hfits : count ≤ left / unit := of_decide_eq_true hok
  exact decide_eq_true (hfits.trans (Nat.div_le_div_right hle))

theorem extends_readLe (k : Nat) :
    Extends (readLe k : Decoder (List UInt8) Nat) (readLe k) :=
  (extends_readExact k).bind fun _ => Extends.pure _

theorem extends_readLen : Extends (readLen : Decoder (List UInt8) Nat) readLen := extends_readLe 8

/-- Item by item. -/
theorem extends_times {α : Type} {d : Decoder (List UInt8) α} (h : Extends d d) (k : Nat) :
    Extends (times k d) (times k d) := by
  induction k with
  | zero => exact Extends.pure []
  | succ k ih =>
    apply h.bind
    intro x
    exact ih.bind fun xs => Extends.pure (x :: xs)

/-! ## The parts of a node -/

theorem extends_attrValue :
    Extends (readAttrValue : Decoder (List UInt8) AttrValue) readAttrValue := by
  apply (extends_readLe 1).bind
  intro tag
  match tag with
  | 0 => exact Extends.pure AttrValue.null
  | 1 => exact (extends_readLe 8).bind fun _ => Extends.pure _
  | 2 => exact (extends_readLe 8).bind fun _ => Extends.pure _
  | _ + 3 => exact extends_fail _ _

/-- The count fits what is left, and fits more. -/
theorem extends_attrRow :
    Extends (readAttrRow : Decoder (List UInt8) (List AttrValue)) readAttrRow := by
  apply extends_readLen.bind
  intro count
  apply extends_remaining
  intro left more hle
  refine (extends_require (fun hok => ?_) _).bind fun _ => extends_times extends_attrValue count
  exact decide_eq_true ((of_decide_eq_true hok).trans hle)

theorem extends_tombstone :
    Extends (readTombstone : Decoder (List UInt8) Bool) readTombstone := by
  apply (extends_readLe 1).bind
  intro flag
  match flag with
  | 0 => exact Extends.pure false
  | 1 => exact Extends.pure true
  | _ + 2 => exact extends_fail _ _

/-- The count is within the cap and within what is left; only the second of these loosens. -/
theorem extends_neighborList (cap n : Nat) :
    Extends (readNeighborList cap n : Decoder (List UInt8) _) (readNeighborList cap n) := by
  apply extends_readLen.bind
  intro count
  apply (extends_same _ _).bind
  intro _
  apply extends_bounded
  apply extends_times
  apply extends_readLen.bind
  intro id
  exact (extends_same _ _).bind fun _ => Extends.pure id

/-- The arena the lists go into is not part of the input. -/
theorem extends_layers (hdr : GraphHeader) (nodeStart levels : Nat) (links linkCounts : List Nat) :
    Extends (readLayers hdr nodeStart levels links linkCounts : Decoder (List UInt8) _)
      (readLayers hdr nodeStart levels links linkCounts) := by
  apply Extends.foldlM
  rintro ⟨links, linkCounts⟩ layer
  apply (extends_neighborList _ _).bind
  intro ids
  exact (extends_checked _).bind fun _ => Extends.pure _

/-- The ceiling may be higher for the longer input. -/
theorem extends_node (hdr : GraphHeader) {ceiling ceiling' : Nat} (hle : ceiling ≤ ceiling')
    (tables : NodeTables) :
    Extends (readNode hdr ceiling tables : Decoder (List UInt8) _)
      (readNode hdr ceiling' tables) := by
  apply extends_tombstone.bind
  intro deleted
  apply extends_readLen.bind
  intro levels
  refine (extends_same _ _).bind fun _ => (extends_same _ _).bind fun _ => ?_
  apply (extends_readExact _).bind
  intro bytes
  apply extends_bounded
  refine (extends_same _ _).bind fun _ => ?_
  refine (extends_require (fun hok => ?_) _).bind fun _ => ?_
  · exact decide_eq_true ((of_decide_eq_true hok).trans hle)
  · apply (extends_layers _ _ _ _ _).bind
    intro lists
    exact extends_attrRow.bind fun _ => Extends.pure _

/-- By induction on the nodes that are left to read. -/
theorem extends_nodes (hdr : GraphHeader) {ceiling ceiling' : Nat} (hle : ceiling ≤ ceiling')
    (count : Nat) (tables : NodeTables) :
    Extends (readNodes hdr ceiling count tables : Decoder (List UInt8) _)
      (readNodes hdr ceiling' count tables) := by
  induction count generalizing tables with
  | zero => exact Extends.pure tables
  | succ count ih =>
    apply (extends_node hdr hle tables).bind
    intro tables'
    exact ih tables'

/-! ## The graph -/

theorem extends_metric (code : Nat) :
    Extends (readMetric code : Decoder (List UInt8) Metric) (readMetric code) := by
  unfold readMetric
  cases Metric.fromCode (UInt8.ofNat code) with
  | some metric => exact Extends.pure metric
  | none => exact extends_fail _ _

theorem extends_entryPoint (entryRaw n : Nat) :
    Extends (readEntryPoint entryRaw n : Decoder (List UInt8) _) (readEntryPoint entryRaw n) := by
  unfold readEntryPoint
  split
  · exact Extends.pure none
  · split
    · exact Extends.pure (some entryRaw)
    · exact extends_fail _ _

variable [Arith]

/-- The header asks nothing about what is left. -/
theorem extends_header :
    Extends (readHeader : Decoder (List UInt8) GraphHeader) readHeader := by
  refine (extends_readLe 4).bind fun magic => (extends_same _ _).bind fun _ => ?_
  refine (extends_readLe 2).bind fun version => (extends_same _ _).bind fun _ => ?_
  refine (extends_readLe 1).bind fun code => (extends_metric code).bind fun metric => ?_
  refine (extends_readLe 1).bind fun reserved => ?_
  refine extends_readLen.bind fun m => (extends_same _ _).bind fun _ => ?_
  refine (extends_readLe 4).bind fun gamma => (extends_same _ _).bind fun _ => ?_
  refine (extends_same _ _).bind fun _ => ?_
  refine extends_readLen.bind fun efConstruction => (extends_same _ _).bind fun _ => ?_
  refine extends_readLen.bind fun dim => (extends_same _ _).bind fun _ => ?_
  refine extends_readLen.bind fun maxLayer => (extends_same _ _).bind fun _ => ?_
  refine (extends_readLe 8).bind fun seed => (extends_readLe 8).bind fun rng => ?_
  refine (extends_same _ _).bind fun _ => ?_
  refine (extends_readLe 8).bind fun entryRaw => extends_readLen.bind fun n => ?_
  refine (extends_entryPoint entryRaw n).bind fun entryPoint => ?_
  refine (extends_same _ _).bind fun _ => (extends_same _ _).bind fun _ => ?_
  exact Extends.pure _

/-- **A graph section with bytes behind it.** Whatever the decoder accepts, it does not accept with
anything behind it. -/
theorem fromGraphBytes_longer {bytes : List UInt8} {r : Hnsw × List UInt8}
    (h : Hnsw.fromGraphBytes bytes = .ok r) {tail : List UInt8} (htail : tail ≠ []) :
    Hnsw.fromGraphBytes (bytes ++ tail) =
      (Outcome.fail (.invalid "trailing bytes") : Outcome HnswDecodeError (Hnsw × List UInt8)) := by
  unfold Hnsw.fromGraphBytes at h ⊢
  rw [Reader.bind_apply] at h ⊢
  obtain ⟨⟨hdr, afterHeader⟩, hheader, h⟩ := Outcome.bind_eq_ok.mp h
  rw [extends_header bytes hdr afterHeader hheader tail, Outcome.ok_bind]
  dsimp only at h ⊢
  rw [Reader.bind_apply] at h ⊢
  have hceiling : maxSlots afterHeader.length ≤ maxSlots (afterHeader ++ tail).length := by
    rw [List.length_append]
    exact Nat.add_le_add_right (Nat.le_add_right _ _) _
  have hleft : ∀ s : List UInt8, (Decoder.remaining s : Outcome HnswDecodeError _) =
      .ok (s.length, s) := fun _ => rfl
  rw [hleft, Outcome.ok_bind] at h ⊢
  dsimp only at h ⊢
  rw [Reader.bind_apply] at h ⊢
  obtain ⟨⟨tables, afterNodes⟩, hnodes, h⟩ := Outcome.bind_eq_ok.mp h
  rw [extends_nodes hdr hceiling hdr.n {} afterHeader tables afterNodes hnodes tail,
    Outcome.ok_bind]
  dsimp only at h ⊢
  rw [Reader.bind_apply, hleft, Outcome.ok_bind] at h ⊢
  -- the shorter input ends here, so what is left of the longer one is the addition
  have hsome : (afterNodes ++ tail).length ≠ 0 := by
    rw [List.length_append]
    have hpos := List.length_pos_of_ne_nil htail
    omega
  rw [Reader.bind_apply]
  simp only [hsome, decide_false, require, Bool.false_eq_true, if_false]
  rfl

end Brindle
