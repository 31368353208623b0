import ThresholdCipher.Proofs.Layouts

/-
Decoding undoes encoding.

The layout of every exchanged value carries it, so a value is encoded exactly where its
participants, its number of entries and the length of its payload fit 32 bits, and is then
decoded whole (`faithful`).  No field ever holds a part of a number: a value with a number
that does not fit is refused for it.
-/

namespace ThresholdCipher
namespace Wire

/-- `numbers` are the numbers of `a` that have 32-bit fields.  If they fit, the value is encoded
and that decodes to it; otherwise it is refused for one that does not. -/
structure Faithful {α : Type} [Wire α] (numbers : List Nat) (a : α) : Prop where
  encodes_iff : (∃ bs, encode a = .ok bs) ↔ ∀ n ∈ numbers, n ≤ maxWord32
  refused : (¬∀ n ∈ numbers, n ≤ maxWord32) →
    ∃ n ∈ numbers, maxWord32 < n ∧ encode a = .error (.malformed (.exceedsWord n))
  decodes : ∀ bs, encode a = .ok bs → decode bs = .ok a

theorem faithful_of_carries {α : Type} [Wire α] {numbers : List Nat} {a : α}
    (h : (layout : Layout α).Carries numbers a) : Faithful numbers a := by
  have hfits : numbers.find? (maxWord32 < ·) = none ↔ ∀ n ∈ numbers, n ≤ maxWord32 := by simp
  have hrefused : (¬∀ n ∈ numbers, n ≤ maxWord32) →
      ∃ n ∈ numbers, maxWord32 < n ∧ encode a = .error (.malformed (.exceedsWord n)) := by
    intro hlarge
    obtain ⟨n, hn⟩ := Option.ne_none_iff_exists'.mp (mt hfits.mp hlarge)
    have hfound := List.find?_some hn
    exact ⟨n, List.mem_of_find?_eq_some hn, of_decide_eq_true hfound, h.refused n hn⟩
  have hwritten : ∀ bs, encode a = .ok bs → ∀ n ∈ numbers, n ≤ maxWord32 := by
    intro bs hbs
    by_contra hlarge
    obtain ⟨n, -, -, hfails⟩ := hrefused hlarge
    rw [hbs] at hfails
    cases hfails
  refine ⟨⟨fun ⟨bs, hbs⟩ => hwritten bs hbs, fun hsmall => ?_⟩, hrefused, fun bs hbs => ?_⟩
  · obtain ⟨bs, hbs, -⟩ := h.written (hfits.mpr hsmall)
    exact ⟨bs, hbs⟩
  · obtain ⟨written, hwrite, hread⟩ := h.written (hfits.mpr (hwritten bs hbs))
    obtain rfl : written = bs := Except.ok.inj (hwrite.symm.trans hbs)
    -- With nothing after it, the value takes up the whole input.
    have hwhole := hread 0 []
    rw [List.append_nil] at hwhole
    show ((layout : Layout α).read (.start written) >>= fun p =>
      p.2.finish >>= fun _ => Except.ok p.1) = _
    rw [Cursor.start, hwhole]
    rfl

variable {G1 G2 T : Type} [CurveGroup G1] [CurveGroup G2] [TargetGroup T] [LawfulPointEncoding G1]
  [LawfulPointEncoding G2] [LawfulTargetEncoding T]

theorem carries_seat (p : Participant) (x : Scalar) : seat.Carries [p.toNat] (p, x) :=
  (Layout.carries_participant p).both (Layout.carries_scalar x)

theorem carries_keyShare (share : KeyShare) :
    (layout : Layout KeyShare).Carries [share.participant.toNat] share :=
  Layout.Carries.convert ((carries_seat _ _).both (Layout.carries_scalar share.value)) rfl

theorem carries_entry (commitment : ShareCommitment G1) :
    entry.Carries [commitment.participant.toNat] commitment :=
  Layout.Carries.convert ((carries_seat _ _).both (Layout.carries_point commitment.commitment)) rfl

theorem carries_vector (vector : VerificationVector G1) :
    (layout : Layout (VerificationVector G1)).Carries
      (vector.entries.length :: vector.entries.map (·.participant.toNat)) vector := by
  have hentries := Layout.carries_counted fun entry (_ : entry ∈ vector.entries) =>
    carries_entry entry
  rw [← List.map_eq_flatMap] at hentries
  exact Layout.Carries.convert ((Layout.carries_point vector.publicKey).both hentries) rfl

theorem carries_ciphertext (ciphertext : Ciphertext G1 G2) :
    (layout : Layout (Ciphertext G1 G2)).Carries [ciphertext.payload.length] ciphertext := by
  have hheader : header.Carries [] ciphertext.header :=
    Layout.Carries.convert ((Layout.carries_point ciphertext.header.u).both
      ((Layout.carries_point ciphertext.header.v).both
        (Layout.carries_point ciphertext.header.w))) rfl
  exact Layout.Carries.convert (hheader.both (Layout.carries_sized ciphertext.payload)) rfl

theorem carries_proof (p : EqualityProof) : proof.Carries [] p :=
  Layout.Carries.convert
    ((Layout.carries_scalar p.challenge).both (Layout.carries_scalar p.response)) rfl

theorem carries_decryptionShare {share : DecryptionShare G2 T}
    (hvalue : ∀ s, share = .simple s → s.value ≠ 1) :
    (layout : Layout (DecryptionShare G2 T)).Carries [share.participant.toNat] share := by
  cases share with
  | fast s =>
    exact Layout.Carries.convert
      (Layout.carries_tagged_zero (carries_seat _ _) (Layout.carries_point s.value)) rfl
  | simple s =>
    have hbody := (Layout.carries_target (hvalue s rfl)).both (carries_proof s.proof)
    exact Layout.Carries.convert (Layout.carries_tagged_one (carries_seat _ _) hbody) rfl

theorem carries_prepared (share : PreparedDecryptionShare G2) :
    (layout : Layout (PreparedDecryptionShare G2)).Carries [share.participant.toNat] share :=
  Layout.Carries.convert ((carries_seat _ _).both (Layout.carries_point share.value)) rfl

/-- Every kind of value is encoded exactly where its numbers fit, and decoded as it was. -/
theorem faithful :
    (∀ share : KeyShare, Faithful [share.participant.toNat] share) ∧
    (∀ vector : VerificationVector G1,
      Faithful (vector.entries.length :: vector.entries.map (·.participant.toNat)) vector) ∧
    (∀ ciphertext : Ciphertext G1 G2, Faithful [ciphertext.payload.length] ciphertext) ∧
    (∀ share : DecryptionShare G2 T, (∀ s, share = .simple s → s.value ≠ 1) →
      Faithful [share.participant.toNat] share) ∧
    ∀ share : PreparedDecryptionShare G2, Faithful [share.participant.toNat] share :=
  ⟨fun share => faithful_of_carries (carries_keyShare share),
    fun vector => faithful_of_carries (carries_vector vector),
    fun ciphertext => faithful_of_carries (carries_ciphertext ciphertext),
    fun _ hvalue => faithful_of_carries (carries_decryptionShare hvalue),
    fun share => faithful_of_carries (carries_prepared share)⟩

end Wire

/-! ## Encodings of the model -/

instance : LawfulPointEncoding LogPoint where
  length_encode p := Bytes.length_bigEndian 32 p.log.val
  decode_encode p := congrArg (Except.map LogPoint.mk) (Scalar.decode_encode p.log)

instance : LawfulTargetEncoding LogTarget where
  exists_encode t ht := by
    have hlog : t.log ≠ 0 := fun h => ht (LogTarget.ext_log h)
    refine ⟨t.log.encode, if_neg hlog, ?_,
      congrArg (Except.map LogTarget.mk) (Scalar.decode_encode t.log)⟩
    rw [Scalar.encode, Bytes.length_bigEndian]
    decide

namespace Wire

/-- A simple share of the last participant that fits, and of the next one. -/
theorem faithful_last_participant :
    (∃ bs, encode (.simple ⟨4294967295, 3, ⟨56⟩, ⟨1, 2⟩⟩ : DecryptionShare LogPoint LogTarget) =
        .ok bs ∧
      decode bs = .ok (.simple ⟨4294967295, 3, ⟨56⟩, ⟨1, 2⟩⟩ :
        DecryptionShare LogPoint LogTarget)) ∧
    encode (.simple ⟨4294967296, 3, ⟨56⟩, ⟨1, 2⟩⟩ : DecryptionShare LogPoint LogTarget) =
      .error (.malformed (.exceedsWord 4294967296)) := by
  obtain ⟨-, -, -, hshare, -⟩ := @faithful LogPoint LogPoint LogTarget _ _ _ _ _ _
  constructor
  · have hlast := hshare (.simple ⟨4294967295, 3, ⟨56⟩, ⟨1, 2⟩⟩) fun s hs => by
      cases hs
      decide
    obtain ⟨bs, hbs⟩ := hlast.encodes_iff.mpr (by decide)
    exact ⟨bs, hbs, hlast.decodes bs hbs⟩
  · have hnext := hshare (.simple ⟨4294967296, 3, ⟨56⟩, ⟨1, 2⟩⟩) fun s hs => by
      cases hs
      decide
    obtain ⟨n, hn, -, hrefused⟩ := hnext.refused (by decide)
    rw [List.mem_singleton.mp hn] at hrefused
    exact hrefused

end Wire
end ThresholdCipher
