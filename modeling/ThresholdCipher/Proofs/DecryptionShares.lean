import ThresholdCipher.Proofs.Encryption

/-
What decryption shares stand for.

Both variants of a share lift to the same power of the pairing of the generators,
whose exponent is the header's times the key share (`lift_of_shareOf`).  A fast
share can always be made; a simple one where its value and its nonce are not zero,
since the target group's identity has no encoding.
-/

namespace ThresholdCipher

/-- The challenge exists where nothing that it hashes is the identity. -/
theorem EqualityProof.challengeFor_ok {G1 T : Type} [CurveGroup G1] [TargetGroup T]
    [LawfulTargetGroup T] (participant : Participant) (commitment : G1) (context : Bytes)
    (t1 : G1) {value t2 : T} (hvalue : value ≠ 1) (ht2 : t2 ≠ 1) :
    ∃ challenge, challengeFor participant commitment context value t1 t2 = .ok challenge := by
  obtain ⟨valueBytes, hvalueBytes⟩ := encodeTarget_ok hvalue
  obtain ⟨t2Bytes, ht2Bytes⟩ := encodeTarget_ok ht2
  rw [challengeFor, hvalueBytes, ht2Bytes]
  exact ⟨_, rfl⟩

variable {G1 G2 T : Type} [CurveGroup G1] [CurveGroup G2] [TargetGroup T] [Pairing G1 G2 T]

namespace Ciphertext

variable {ciphertext : Ciphertext G1 G2} {aad : Bytes} {share : KeyShare} {variant : ShareVariant}
  {d : DecryptionShare G2 T} {ρ : Scalar}

theorem createShare_eq_ok :
    (ciphertext.createShare aad share variant).result = .ok d ↔
      (ciphertext.checkValidity aad).result = .ok () ∧
        ciphertext.shareOf variant share = .ok d := by
  rw [createShare, Attempt.result_liftM_bind, Attempt.result_check_bind_eq_ok,
    Attempt.result_ofExcept]

theorem createShares_eq_ok {shares : List KeyShare} {ds : List (DecryptionShare G2 T)} :
    (ciphertext.createShares aad shares variant).result = .ok ds ↔
      (ciphertext.checkValidity aad).result = .ok () ∧
        shares.mapM (ciphertext.shareOf variant) = .ok ds := by
  rw [createShares, Attempt.result_liftM_bind, Attempt.result_check_bind_eq_ok,
    Attempt.result_ofExcept]

theorem createPrepared_eq_ok {own : PreparedShare} {made : PreparedDecryptionShare G2} :
    (ciphertext.createPrepared aad own).result = .ok made ↔
      (ciphertext.checkValidity aad).result = .ok () ∧
        ⟨own.participant, own.domainPoint, own.value • ciphertext.header.v⟩ = made := by
  rw [createPrepared, Attempt.result_liftM_bind, Attempt.result_check_bind_eq_ok,
    Attempt.result_pure, Except.ok.injEq]

theorem simpleShare_eq_ok {s : SimpleShare T} :
    ciphertext.simpleShare share = .ok s ↔
      ∃ challenge, EqualityProof.challengeFor share.participant (share.commitment G1)
          ciphertext.context (ciphertext.pairingBase ^ share.value)
          (EqualityProof.nonce share ciphertext.context • (generator : G1))
          (ciphertext.pairingBase ^ EqualityProof.nonce share ciphertext.context) =
            .ok challenge ∧
        ⟨share.participant, share.domainPoint, ciphertext.pairingBase ^ share.value, challenge,
          EqualityProof.nonce share ciphertext.context + challenge * share.value⟩ = s := by
  rw [simpleShare, Outcome.bind_eq_ok]
  constructor
  · rintro ⟨challenge, hchallenge, h⟩
    cases h
    exact ⟨challenge, hchallenge, rfl⟩
  · rintro ⟨challenge, hchallenge, rfl⟩
    exact ⟨challenge, hchallenge, rfl⟩

theorem seat_of_shareOf (h : ciphertext.shareOf variant share = .ok d) :
    d.participant = share.participant ∧ d.domainPoint = share.domainPoint := by
  cases variant with
  | fast =>
    cases h
    exact ⟨rfl, rfl⟩
  | simple =>
    obtain ⟨s, hs, h⟩ := Outcome.bind_eq_ok.mp h
    obtain ⟨challenge, -, rfl⟩ := simpleShare_eq_ok.mp hs
    cases h
    exact ⟨rfl, rfl⟩

variable [LawfulPairing G1 G2 T]

theorem pairingBase_eq (hu : ciphertext.header.u = ρ • generator) :
    ciphertext.pairingBase = pair (generator : G1) (generator : G2) ^ ρ := by
  rw [pairingBase, hu, LawfulPairing.pair_smul_left]

variable [LawfulTargetGroup T]

/-- Both variants of a share stand for the same element. -/
theorem lift_of_shareOf (hu : ciphertext.header.u = ρ • generator)
    (hv : ciphertext.header.v = ρ • generator)
    (h : ciphertext.shareOf variant share = .ok d) :
    d.lift G1 = pair (generator : G1) (generator : G2) ^ (ρ * share.value) := by
  cases variant with
  | fast =>
    cases h
    show pair generator (share.value • ciphertext.header.v) = _
    rw [hv, LawfulPairing.pair_smul_right, LawfulPairing.pair_smul_right,
      ← LawfulTargetGroup.pow_mul]
  | simple =>
    obtain ⟨s, hs, h⟩ := Outcome.bind_eq_ok.mp h
    obtain ⟨challenge, -, rfl⟩ := simpleShare_eq_ok.mp hs
    cases h
    show ciphertext.pairingBase ^ share.value = _
    rw [pairingBase_eq hu, ← LawfulTargetGroup.pow_mul]

/-- Shares can be made of either variant, of the simple one where nothing that its proof
hashes is the identity. -/
theorem shareOf_ok (hu : ciphertext.header.u = ρ • generator) (hρ : ρ ≠ 0)
    (hsimple : variant = .simple →
      share.value ≠ 0 ∧ EqualityProof.nonce share ciphertext.context ≠ 0) :
    ∃ d : DecryptionShare G2 T, ciphertext.shareOf variant share = .ok d := by
  cases variant with
  | fast => exact ⟨_, rfl⟩
  | simple =>
    obtain ⟨hvalue, hnonce⟩ := hsimple rfl
    have hbase : ciphertext.pairingBase ≠ 1 := by
      rw [pairingBase_eq hu, Ne, pow_eq_one_iff_eq_zero LawfulPairing.pair_generators_ne_one]
      exact hρ
    obtain ⟨challenge, hchallenge⟩ := EqualityProof.challengeFor_ok share.participant
      (share.commitment G1) ciphertext.context
      (EqualityProof.nonce share ciphertext.context • (generator : G1))
      (mt (pow_eq_one_iff_eq_zero hbase).mp hvalue) (mt (pow_eq_one_iff_eq_zero hbase).mp hnonce)
    have hshare := simpleShare_eq_ok.mpr ⟨challenge, hchallenge, rfl⟩
    exact ⟨_, Outcome.bind_eq_ok.mpr ⟨_, hshare, rfl⟩⟩

end Ciphertext
end ThresholdCipher
