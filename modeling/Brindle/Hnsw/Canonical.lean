/-
# Brindle.Hnsw.Canonical — an accepted blob is the encoding of the graph it decodes to.

The decoder keeps every byte it reads but one: the reserved byte of the header, which it skips and the
encoder writes as zero. Whatever it derives rather than stores it derives from fields it keeps, and a
list it copies into a slot is read back from there whole. So re-encoding restores the blob, and two
blobs that differ elsewhere decode to different graphs.
-/
import Brindle.Hnsw.Accepted
import Brindle.Hnsw.Configured
import Brindle.Hnsw.Untrusted

namespace Brindle

open Bytes (leBytes)
open Decoder
open Reader (Consumes)

/-- Offset of the reserved byte. -/
def reservedOffset : Nat := 7

/-! ## The header -/

theorem consumes_metric (code : Nat) :
    Consumes (readMetric code : Decoder (List UInt8) Metric) fun bs metric =>
      bs = [] ∧ metric.code = UInt8.ofNat code := by
  unfold readMetric
  cases hcode : Metric.fromCode (UInt8.ofNat code) with
  | none =>
    intro s a s' h
    cases h
  | some metric => exact Consumes.pure ⟨rfl, Metric.code_of_fromCode hcode⟩

theorem consumes_entryPoint (entryRaw n : Nat) :
    Consumes (readEntryPoint entryRaw n : Decoder (List UInt8) _) fun bs entry =>
      bs = [] ∧ entry.getD Hnsw.noEntry = entryRaw := by
  unfold readEntryPoint
  split_ifs with hnone hlt
  · exact Consumes.pure ⟨rfl, hnone.symm⟩
  · exact Consumes.pure ⟨rfl, rfl⟩
  · intro s a s' h
    cases h

variable [Arith]

/-- The header's bytes are the ones written for it, the reserved byte aside. -/
theorem consumes_header :
    Consumes (readHeader : Decoder (List UInt8) GraphHeader) fun bs hdr =>
      ∀ tables, bs.set reservedOffset 0 = (assemble hdr tables).writeHeader := by
  unfold readHeader
  refine (consumes_readLe 4).bind ?_
  rintro _ magic ⟨rfl, -⟩
  refine (consumes_require _ _).bind_check fun _ hmagic => ?_
  refine (consumes_readLe 2).bind ?_
  rintro _ version ⟨rfl, -⟩
  refine (consumes_require _ _).bind_check fun _ hversion => ?_
  refine (consumes_readLe 1).bind ?_
  rintro _ code ⟨rfl, -⟩
  refine (consumes_metric code).bind_check fun metric hmetric => ?_
  refine (consumes_readLe 1).bind ?_
  rintro _ reserved ⟨rfl, -⟩
  refine (consumes_readLe 8).bind ?_
  rintro _ m ⟨rfl, -⟩
  refine (consumes_require _ _).bind_check fun _ _ => ?_
  refine (consumes_readLe 4).bind ?_
  rintro _ gamma ⟨rfl, hgamma⟩
  refine (consumes_require _ _).bind_check fun _ _ => ?_
  refine (consumes_require _ _).bind_check fun _ _ => ?_
  refine (consumes_readLe 8).bind ?_
  rintro _ ef ⟨rfl, -⟩
  refine (consumes_require _ _).bind_check fun _ _ => ?_
  refine (consumes_readLe 8).bind ?_
  rintro _ dim ⟨rfl, -⟩
  refine (consumes_require _ _).bind_check fun _ _ => ?_
  refine (consumes_readLe 8).bind ?_
  rintro _ maxLayer ⟨rfl, -⟩
  refine (consumes_require _ _).bind_check fun _ _ => ?_
  refine (consumes_readLe 8).bind ?_
  rintro _ seed ⟨rfl, hseed⟩
  refine (consumes_readLe 8).bind ?_
  rintro _ rng ⟨rfl, hrng⟩
  refine (consumes_require _ _).bind_check fun _ _ => ?_
  refine (consumes_readLe 8).bind ?_
  rintro _ entryRaw ⟨rfl, -⟩
  refine (consumes_readLe 8).bind ?_
  rintro _ n ⟨rfl, -⟩
  refine (consumes_entryPoint entryRaw n).bind_check fun entry hentry => ?_
  refine (consumes_require _ _).bind_check fun _ _ => ?_
  refine (consumes_require _ _).bind_check fun _ _ => ?_
  apply Consumes.pure
  intro tables
  -- magic and version are checked, and every other field but the reserved byte is stored as read
  have hmagic' : magic = codecMagic := of_decide_eq_true hmagic
  have hversion' : version = codecVersion := of_decide_eq_true hversion
  have hbits : (F32.ofNatBits gamma).bits.toNat = gamma := UInt32.toNat_ofNat_of_lt' hgamma
  have hseed' : (UInt64.ofNat seed).toNat = seed := UInt64.toNat_ofNat_of_lt' hseed
  have hrng' : (UInt64.ofNat rng).toNat = rng := UInt64.toNat_ofNat_of_lt' hrng
  subst hmagic' hversion'
  unfold Hnsw.writeHeader assemble
  dsimp only
  rw [hmetric, hbits, hseed', hrng', hentry]
  simp only [List.append_assoc, List.append_nil, List.cons_append, List.nil_append]
  rfl

/-! ## The whole blob -/

omit [Arith] in
theorem consumes_checkEntry (hdr : GraphHeader) (tables : NodeTables) :
    Consumes (checkEntry hdr tables : Decoder (List UInt8) Unit) fun bs _ => bs = [] ∧ True := by
  have hchecked : ∀ x : Outcome HnswDecodeError Nat,
      Consumes (checked x : Decoder (List UInt8) Nat) fun bs _ => bs = [] ∧ True := by
    intro x
    cases x with
    | ok a => exact (consumes_checked rfl).mono fun _ _ h => ⟨h.1, trivial⟩
    | error fault =>
      intro s a s' h
      cases h
  have hrequire : ∀ ok e, Consumes (require ok e : Decoder (List UInt8) Unit)
      fun bs _ => bs = [] ∧ True :=
    fun ok e => (consumes_require ok e).mono fun _ _ h => ⟨h.1, trivial⟩
  unfold checkEntry
  cases hdr.entryPoint with
  | none => exact hrequire _ _
  | some e =>
    refine (hchecked _).bind_check fun stop _ => ?_
    refine (hchecked _).bind_check fun start _ => ?_
    exact hrequire _ _

omit [Arith] in
/-- The closing checks accept only at the end of the bytes, and return the tables as a graph. -/
theorem closing_ok {hdr : GraphHeader} {tables : NodeTables} {s rest : List UInt8} {h : Hnsw}
    (hrun : (do
      require ((← remaining) = 0) (.invalid "trailing bytes")
      checkEntry hdr tables
      return assemble hdr tables : Decoder (List UInt8) Hnsw) s = .ok (h, rest)) :
    s = [] ∧ rest = [] ∧ h = assemble hdr tables := by
  rw [Reader.bind_apply] at hrun
  obtain ⟨⟨left, s'⟩, hleft, hchecks⟩ := Outcome.bind_eq_ok.mp hrun
  cases hleft
  rw [Reader.bind_apply] at hchecks
  obtain ⟨⟨_, s'⟩, hend, hentry⟩ := Outcome.bind_eq_ok.mp hchecks
  obtain ⟨bs, hs, rfl, hempty⟩ := consumes_require _ _ s _ s' hend
  obtain rfl : s = [] := List.length_eq_zero_iff.mp (of_decide_eq_true hempty)
  rw [Reader.bind_apply] at hentry
  obtain ⟨⟨_, s''⟩, hentry, hreturn⟩ := Outcome.bind_eq_ok.mp hentry
  obtain ⟨bs, hs', rfl, -⟩ := consumes_checkEntry hdr tables s' _ s'' hentry
  cases hreturn
  rw [List.nil_append] at hs hs'
  exact ⟨rfl, (hs.trans hs').symm, rfl⟩

variable [Arith.Rounds]

theorem HeaderBounds.narrow {hdr : GraphHeader} (H : HeaderBounds hdr) (hn : hdr.n ≤ 2 ^ 32) :
    hdr.Narrow where
  n_le := hn
  m0Cap_lt := H.m0Cap_le.trans_lt (by decide)
  mCap_lt := by
    have hle : hdr.derived.mCap ≤ hdr.derived.m0Cap := by
      rw [H.derived_eq]
      exact Hnsw.derivedParams_mCap_le hdr.m hdr.gamma
    exact (hle.trans H.m0Cap_le).trans_lt (by decide)

/-- What the decoder accepts is used up, and is the encoding of what it returns. -/
theorem fromGraphBytes_spelled {bytes rest : List UInt8} {h : Hnsw}
    (hdec : (Hnsw.fromGraphBytes : Decoder (List UInt8) Hnsw) bytes = .ok (h, rest)) :
    rest = [] ∧ bytes.set reservedOffset 0 = h.writeHeader ++ (List.range h.n).flatMap h.nodeBytes := by
  unfold Hnsw.fromGraphBytes at hdec
  rw [Reader.bind_apply] at hdec
  obtain ⟨⟨hdr, afterHeader⟩, hheader, htail⟩ := Outcome.bind_eq_ok.mp hdec
  obtain ⟨header, rfl, hspelled⟩ := consumes_header bytes hdr afterHeader hheader
  have H := (handles_header.post _ hdr afterHeader hheader).1
  rw [Reader.bind_apply] at htail
  obtain ⟨⟨left, _⟩, hleft, htail⟩ := Outcome.bind_eq_ok.mp htail
  cases hleft
  rw [Reader.bind_apply] at htail
  obtain ⟨⟨tables, afterNodes⟩, hnodes, hclosing⟩ := Outcome.bind_eq_ok.mp htail
  obtain ⟨nodes, rfl, D, -, hrecords⟩ :=
    (Decoded.nil hdr).consumes_nodes _ hdr.n afterHeader tables afterNodes hnodes
  obtain ⟨rfl, rfl, rfl⟩ := closing_ok hclosing
  rw [Nat.zero_add] at D hrecords
  have hn : hdr.n ≤ 2 ^ 32 := D.layout.n_lt_u32.le
  have hheaderLen : reservedOffset < header.length := by
    have hlen := Hnsw.writeHeader_length (h := assemble hdr tables)
    rw [← hspelled tables, List.length_set] at hlen
    rw [hlen]
    decide
  refine ⟨rfl, ?_⟩
  rw [List.append_nil, List.set_append_left _ _ hheaderLen, hspelled tables,
    hrecords (H.narrow hn), ← List.range_eq_range']
  rfl

/-- **Canonical encoding.** Re-encoding an accepted blob restores it, the reserved byte cleared; so
two accepted blobs that differ at any other offset decode to different graphs. -/
theorem toBytes_fromBytes :
    (∀ bytes h, Hnsw.fromBytes bytes = .ok h → h.toBytes = .ok (bytes.set reservedOffset 0)) ∧
      ∀ bytes bytes' h h', Hnsw.fromBytes bytes = .ok h → Hnsw.fromBytes bytes' = .ok h' →
        (∃ i, i ≠ reservedOffset ∧ bytes[i]? ≠ bytes'[i]?) → h ≠ h' := by
  have hcanonical : ∀ bytes h, Hnsw.fromBytes bytes = .ok h →
      h.toBytes = .ok (bytes.set reservedOffset 0) := by
    intro bytes h hdec
    have hlayout := (fromBytes_sound hdec).toLayout
    unfold Hnsw.fromBytes at hdec
    obtain ⟨⟨h', rest⟩, hrun, hret⟩ := Outcome.bind_eq_ok.mp hdec
    cases hret
    rw [hlayout.toBytes_eq, (fromGraphBytes_spelled hrun).2]
  refine ⟨hcanonical, ?_⟩
  rintro bytes bytes' h _ hdec hdec' ⟨i, hi, hdiffer⟩ rfl
  -- both re-encode to the one encoding of the graph, which has every other byte of each
  have hsame : bytes.set reservedOffset 0 = bytes'.set reservedOffset 0 := by
    have hencoded := hcanonical bytes h hdec
    rw [hcanonical bytes' h hdec'] at hencoded
    exact (Except.ok.inj hencoded).symm
  apply hdiffer
  have hbyte := congrArg (·[i]?) hsame
  simp only [List.getElem?_set_ne hi.symm] at hbyte
  exact hbyte

omit [Arith] [Arith.Rounds] in
/-- The blob of `misfiled 0` with a reserved byte of its own, and that of `misfiled 1`. -/
theorem toBytes_fromBytes_misfiled :
    (Hnsw.misfiled 0).toBytes = .ok (Hnsw.misfiledBytes 0) ∧
      Hnsw.misfiled 0 ≠ Hnsw.misfiled 1 := by
  have hcanonical := @toBytes_fromBytes Arith.ieee inferInstance
  have hblob : ((Hnsw.misfiledBytes 0).set reservedOffset 5).set reservedOffset 0 =
      Hnsw.misfiledBytes 0 := by decide +kernel
  refine ⟨?_, ?_⟩
  · rw [← hblob]
    exact hcanonical.1 ((Hnsw.misfiledBytes 0).set reservedOffset 5) (Hnsw.misfiled 0)
      (by decide +kernel)
  · exact hcanonical.2 (Hnsw.misfiledBytes 0) (Hnsw.misfiledBytes 1) _ _ (by decide +kernel)
      (by decide +kernel) ⟨113, by decide, by decide +kernel⟩

end Brindle
