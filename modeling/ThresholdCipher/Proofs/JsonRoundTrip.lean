import ThresholdCipher.Json
import ThresholdCipher.Proofs.JsonFormats
import ThresholdCipher.Proofs.WireRoundTrip

/-
Values in JSON are read back as they were.

Every kind of value is written, with any participant and however many entries, and reading
the text gives the value again.  The one exception is a simple share of the identity, which
has no encoding.  Since decoding undoes encoding on the wire as well, the two codecs agree
on what has both forms (`codecs_agree`).
-/

namespace ThresholdCipher
namespace Json

/-- A value is read back from its form in JSON, and where it has a wire form as well, that gives
the same value. -/
structure CodecsAgree {α : Type} [Json α] [Wire α] (a : α) : Prop where
  kept : (format : Format α).RoundTrips a
  same : ∀ text bs, encode a = .ok text → Wire.encode a = .ok bs →
    decode text = .ok a ∧ Wire.decode bs = .ok a

theorem codecsAgree_of_keeps {α : Type} [Json α] [Wire α] {numbers : List Nat} {a : α}
    (h : (format : Format α).Keeps a) (hwire : (Wire.layout : Layout α).Carries numbers a) :
    CodecsAgree a := by
  refine ⟨h.roundTrips, fun text bs htext hbs =>
    ⟨?_, (Wire.faithful_of_carries hwire).decodes bs hbs⟩⟩
  obtain ⟨written, hwrite, hdecode⟩ := h.roundTrips
  obtain rfl : text = written := Except.ok.inj (htext.symm.trans hwrite)
  exact hdecode

/-! ## Elements -/

theorem scalar_encode (s : Scalar) : scalar s.encode = .ok s := by
  have hlen : s.encode.length = 32 := Bytes.length_bigEndian 32 s.val
  rw [scalar, if_pos hlen, Scalar.decode_encode]
  rfl

variable {G1 G2 T : Type} [CurveGroup G1] [CurveGroup G2] [TargetGroup T] [LawfulPointEncoding G1]
  [LawfulPointEncoding G2] [LawfulTargetEncoding T]

theorem point_encode (p : G1) : point (CurveGroup.encode p) = .ok p := by
  rw [point, LawfulPointEncoding.decode_encode]
  rfl

theorem keeps_publicKey (key : G1) : publicKey.Keeps key :=
  (Format.keeps_bytes (CurveGroup.encode key)).refine rfl (point_encode key)

/-! ## Values -/

theorem keeps_seated {name : String} (hname : Record.WellNamed (seated name).keys) (p : Participant)
    (x value : Bytes) : (seated name).format.Keeps (p, x, value, ()) :=
  Record.keeps_format hname
    ⟨Field.keeps_required _ (Format.keeps_word64 p),
      Field.keeps_required _ (Format.keeps_bytes x),
      Field.keeps_required _ (Format.keeps_bytes value), trivial⟩

example : (seated "value").format.write (7, [1], [20, 3], ()) =
    .ok (Bytes.ofText "\x7b\"participant\":7,\"domain_point\":[1],\"value\":[20,3]\x7d") := by cbv

theorem keeps_keyShare (share : KeyShare) : (format : Format KeyShare).Keeps share := by
  refine (keeps_seated (by decide) share.participant share.domainPoint.encode
    share.value.encode).refine rfl ?_
  show (do
    return (⟨share.participant, ← scalar share.domainPoint.encode, ← scalar share.value.encode⟩ :
      KeyShare)) = Except.ok share
  rw [scalar_encode, scalar_encode]
  rfl

theorem keeps_entry (entry : ShareCommitment G1) :
    (format : Format (ShareCommitment G1)).Keeps entry := by
  refine (keeps_seated (by decide) entry.participant entry.domainPoint.encode
    (CurveGroup.encode entry.commitment)).refine rfl ?_
  show (do
    return (⟨entry.participant, ← scalar entry.domainPoint.encode,
      ← point (CurveGroup.encode entry.commitment)⟩ : ShareCommitment G1)) = Except.ok entry
  rw [scalar_encode, point_encode]
  rfl

theorem keeps_prepared (share : PreparedDecryptionShare G2) :
    (format : Format (PreparedDecryptionShare G2)).Keeps share := by
  refine (keeps_seated (by decide) share.participant share.domainPoint.encode
    (CurveGroup.encode share.value)).refine rfl ?_
  show (do
    return (⟨share.participant, ← scalar share.domainPoint.encode,
      ← point (CurveGroup.encode share.value)⟩ : PreparedDecryptionShare G2)) = Except.ok share
  rw [scalar_encode, point_encode]
  rfl

theorem keeps_vector (vector : VerificationVector G1) :
    (format : Format (VerificationVector G1)).Keeps vector :=
  Format.Keeps.convert
    (Record.keeps_format
      (by decide : Record.WellNamed [Bytes.ofText "public_key", Bytes.ofText "share_commitments"])
      ⟨Field.keeps_required _ (keeps_publicKey vector.publicKey),
        Field.keeps_required _ (Format.keeps_list fun entry _ => keeps_entry entry), trivial⟩)
    rfl

theorem keeps_ciphertext (ciphertext : Ciphertext G1 G2) :
    (format : Format (Ciphertext G1 G2)).Keeps ciphertext := by
  refine Format.Keeps.refine
    (Record.keeps_format (by decide)
      ⟨Field.keeps_required _ (Format.keeps_bytes _),
        Field.keeps_required _ (Format.keeps_bytes _),
        Field.keeps_required _ (Format.keeps_bytes _),
        Field.keeps_required _ (Format.keeps_bytes _), trivial⟩) rfl ?_
  show (do
    return (⟨⟨← point (CurveGroup.encode ciphertext.header.u),
      ← point (CurveGroup.encode ciphertext.header.v),
      ← point (CurveGroup.encode ciphertext.header.w)⟩, ciphertext.payload⟩ :
        Ciphertext G1 G2)) = Except.ok ciphertext
  rw [point_encode, point_encode, point_encode]
  rfl

/-! ## Decryption shares -/

theorem keeps_variant (v : ShareVariant) : variant.Keeps v := by
  cases v with
  | fast => exact Format.keeps_choice (by decide) rfl
  | simple => exact Format.keeps_choice (by decide) rfl

theorem keeps_shareRecord (v : ShareVariant) (p : Participant) (x value : Bytes)
    {challenge? response? : Option Bytes}
    (hchallenge : (Field.optional "challenge" .bytes).Keeps challenge?)
    (hresponse : (Field.optional "response" .bytes).Keeps response?) :
    shareRecord.format.Keeps (v, p, x, value, challenge?, response?, ()) :=
  Record.keeps_format (by decide)
    ⟨Field.keeps_required _ (keeps_variant v), Field.keeps_required _ (Format.keeps_word64 p),
      Field.keeps_required _ (Format.keeps_bytes x),
      Field.keeps_required _ (Format.keeps_bytes value), hchallenge, hresponse, trivial⟩

theorem keeps_decryptionShare {share : DecryptionShare G2 T}
    (hvalue : ∀ s, share = .simple s → s.value ≠ 1) :
    (format : Format (DecryptionShare G2 T)).Keeps share := by
  cases share with
  | fast s =>
    refine (keeps_shareRecord .fast s.participant s.domainPoint.encode (CurveGroup.encode s.value)
      (Field.keeps_none _ _) (Field.keeps_none _ _)).refine rfl ?_
    show (do
      return (.fast ⟨s.participant, ← scalar s.domainPoint.encode,
        ← point (CurveGroup.encode s.value)⟩ : DecryptionShare G2 T)) = Except.ok (.fast s)
    rw [scalar_encode, point_encode]
    rfl
  | simple s =>
    obtain ⟨bs, hencode, -, hdecode⟩ := LawfulTargetEncoding.exists_encode s.value (hvalue s rfl)
    have hfields : (fieldsOfShare (.simple s : DecryptionShare G2 T)) = .ok
        (.simple, s.participant, s.domainPoint.encode, bs, some s.proof.challenge.encode,
          some s.proof.response.encode, ()) := by
      rw [fieldsOfShare, encodeTarget, hencode]
      rfl
    refine (keeps_shareRecord .simple s.participant s.domainPoint.encode bs
      (Field.keeps_some _ (Format.keeps_bytes s.proof.challenge.encode))
      (Field.keeps_some _ (Format.keeps_bytes s.proof.response.encode))).refine hfields ?_
    rw [shareOfFields, scalar_encode]
    show (do
      return (.simple ⟨s.participant, s.domainPoint, ← element (TargetGroup.decode bs),
        ⟨← scalar s.proof.challenge.encode, ← scalar s.proof.response.encode⟩⟩ :
          DecryptionShare G2 T)) = Except.ok (.simple s)
    rw [hdecode, scalar_encode, scalar_encode]
    rfl

/-- Every kind of value is read back from its form in JSON, and from its wire form as the same. -/
theorem codecs_agree :
    (∀ share : KeyShare, CodecsAgree share) ∧
    (∀ key : G1, publicKey.RoundTrips key) ∧
    (∀ vector : VerificationVector G1, CodecsAgree vector) ∧
    (∀ ciphertext : Ciphertext G1 G2, CodecsAgree ciphertext) ∧
    (∀ share : DecryptionShare G2 T, (∀ s, share = .simple s → s.value ≠ 1) →
      CodecsAgree share) ∧
    ∀ share : PreparedDecryptionShare G2, CodecsAgree share :=
  ⟨fun share => codecsAgree_of_keeps (keeps_keyShare share) (Wire.carries_keyShare share),
    fun key => (keeps_publicKey key).roundTrips,
    fun vector => codecsAgree_of_keeps (keeps_vector vector) (Wire.carries_vector vector),
    fun ciphertext =>
      codecsAgree_of_keeps (keeps_ciphertext ciphertext) (Wire.carries_ciphertext ciphertext),
    fun _ hvalue =>
      codecsAgree_of_keeps (keeps_decryptionShare hvalue) (Wire.carries_decryptionShare hvalue),
    fun share => codecsAgree_of_keeps (keeps_prepared share) (Wire.carries_prepared share)⟩

/-- A simple share of the last participant there is, which has no wire form, and a vector of two
entries, which has one. -/
theorem codecs_agree_last_participant :
    (∃ text, encode (.simple ⟨18446744073709551615, 3, ⟨56⟩, ⟨1, 2⟩⟩ :
        DecryptionShare LogPoint LogTarget) = .ok text ∧
      decode text = .ok (.simple ⟨18446744073709551615, 3, ⟨56⟩, ⟨1, 2⟩⟩ :
        DecryptionShare LogPoint LogTarget)) ∧
    CodecsAgree (⟨⟨5⟩, [⟨0, 1, ⟨8⟩⟩, ⟨1, 2, ⟨11⟩⟩]⟩ : VerificationVector LogPoint) := by
  obtain ⟨-, -, hvector, -, hshare, -⟩ := @codecs_agree LogPoint LogPoint LogTarget _ _ _ _ _ _
  have hlast := hshare (.simple ⟨18446744073709551615, 3, ⟨56⟩, ⟨1, 2⟩⟩) fun s hs => by
    cases hs
    decide
  exact ⟨hlast.kept, hvector _⟩

end Json
end ThresholdCipher
