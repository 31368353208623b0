import ThresholdCipher.Proofs.EqualityProofs
import ThresholdCipher.Proofs.OperationAnswers

/-
Decryption shares and the key shares that they are made of.

The `v` of a valid ciphertext is not zero, so its multiples by two scalars are the same only
where the scalars are: a fast share is accepted exactly where the vector accepts the key share.
A simple share carries the challenge for the nonce that it was made with, and where the key share
opens its commitment, verification is led back to that nonce and so to the same challenge.
-/

namespace ThresholdCipher

variable {G1 G2 T : Type} [CurveGroup G1] [CurveGroup G2] [TargetGroup T] [Pairing G1 G2 T]
  [LawfulCurveGroup G1] [LawfulCurveGroup G2] [LawfulTargetGroup T] [LawfulPairing G1 G2 T]
  {ciphertext : Ciphertext G1 G2} {vector : VerificationVector G1} {share : KeyShare}

/-! ## Fast shares -/

namespace FastShare

/-- The value must be the multiple of `v` that the commitment is of the generator. -/
theorem verify_eq_true {fast : FastShare G2} :
    (fast.verify ciphertext vector).value = true ↔
      ∃ commitment,
        (vector.commitmentAt fast.participant fast.domainPoint).value = some commitment ∧
        fast.value = exponent commitment • ciphertext.header.v := by
  cases hlookup : (vector.commitmentAt fast.participant fast.domainPoint).value with
  | none => simp [verify_of_unknown hlookup]
  | some commitment => simp [verify_of_known hlookup, sameMultiple_iff]

/-- What is made of a key share passes exactly if the key share does. -/
theorem verify_fastShare (hv : ciphertext.header.v ≠ 0) (vector : VerificationVector G1)
    (share : KeyShare) :
    ((ciphertext.fastShare share).verify ciphertext vector).value =
      (vector.verifyShare share).value := by
  have hopens : ∀ commitment : G1,
      share.value • ciphertext.header.v = exponent commitment • ciphertext.header.v ↔
        share.value • generator = commitment := by
    intro commitment
    rw [(smul_left_injective Scalar hv).eq_iff, eq_comm, exponent_eq_iff, eq_comm]
  rw [Bool.eq_iff_iff, verify_eq_true, VerificationVector.verifyShare_eq_true]
  constructor
  · intro h
    obtain ⟨commitment, hlookup, hvalue⟩ := h
    obtain ⟨entry, hentry, hpoint, rfl⟩ := VerificationVector.commitmentAt_eq_some.mp hlookup
    exact ⟨entry, hentry, hpoint, (hopens _).mp hvalue⟩
  · intro h
    obtain ⟨entry, hentry, hpoint, hvalue⟩ := h
    exact ⟨entry.commitment,
      VerificationVector.commitmentAt_eq_some.mpr ⟨entry, hentry, hpoint, rfl⟩,
      (hopens _).mpr hvalue⟩

end FastShare

/-! ## Simple shares -/

namespace SimpleShare

/-- A response computed from a nonce leads back to that nonce, in both groups. -/
theorem nonceCommitments_of_response {simple : SimpleShare T} {nonce : Scalar} (base : T)
    (hvalue : simple.value = base ^ share.value)
    (hresponse : simple.proof.response = nonce + simple.proof.challenge * share.value) :
    simple.nonceCommitments (share.commitment G1) base =
      (nonce • (generator : G1), base ^ nonce) := by
  have hfirst : simple.proof.response • (generator : G1) +
      -(simple.proof.challenge • share.commitment G1) = nonce • generator := by
    rw [hresponse, KeyShare.commitment, add_smul, mul_smul, add_neg_cancel_right]
  have hsecond : base ^ simple.proof.response * simple.value ^ (-simple.proof.challenge) =
      base ^ nonce := by
    rw [hresponse, hvalue, ← LawfulTargetGroup.pow_mul, ← LawfulTargetGroup.pow_add]
    congr 1
    ring
  rw [nonceCommitments, hfirst, hsecond]

omit [LawfulCurveGroup G2] [LawfulPairing G1 G2 T] in
/-- What is made of an accepted key share passes. -/
theorem verify_simpleShare {simple : SimpleShare T}
    (hsimple : ciphertext.simpleShare share = .ok simple)
    (hshare : (vector.verifyShare share).value = true) :
    (simple.verify ciphertext vector).result = .ok true := by
  obtain ⟨challenge, hchallenge, rfl⟩ := Ciphertext.simpleShare_eq_ok.mp hsimple
  obtain ⟨entry, hentry, hpoint, hcommitment⟩ :=
    VerificationVector.verifyShare_eq_true.mp hshare
  refine verify_eq_ok_true.mpr ⟨share.commitment G1,
    VerificationVector.commitmentAt_eq_some.mpr ⟨entry, hentry, hpoint, hcommitment.symm⟩, ?_⟩
  rw [nonceCommitments_of_response ciphertext.pairingBase rfl rfl]
  exact hchallenge

end SimpleShare

/-! ## Both variants -/

namespace Ciphertext

variable {aad : Bytes}

theorem v_ne_zero (hvalid : (ciphertext.checkValidity aad).result = .ok ()) :
    ciphertext.header.v ≠ 0 := by
  obtain ⟨hu, _, -, -, hconsistent⟩ := checkValidity_eq_ok.mp hvalid
  intro hv
  rw [hv, exponent_zero, eq_comm, exponent_eq_iff, zero_smul] at hconsistent
  exact hu hconsistent

/-- Either variant of a share lifts to the power of the base that the key share is. -/
theorem lift_of_createShare (hvalid : (ciphertext.checkValidity aad).result = .ok ())
    {variant : ShareVariant} {d : DecryptionShare G2 T}
    (h : (ciphertext.createShare aad share variant).result = .ok d) :
    d.lift G1 = ciphertext.pairingBase ^ share.value := by
  have hu : ciphertext.header.u = exponent ciphertext.header.u • generator :=
    (exponent_smul_generator _).symm
  rw [lift_of_shareOf hu (v_eq_of_checkValidity hvalid hu) (createShare_eq_ok.mp h).2,
    pairingBase_eq hu, LawfulTargetGroup.pow_mul]

/-- A simple share is made where neither the key share nor the nonce is zero. -/
theorem exists_createShare_simple_iff (hvalid : (ciphertext.checkValidity aad).result = .ok ()) :
    (∃ d : DecryptionShare G2 T, (ciphertext.createShare aad share .simple).result = .ok d) ↔
      share.value ≠ 0 ∧ EqualityProof.nonce share ciphertext.context ≠ 0 := by
  have hanswers : AnswersUnless _
      (ciphertext.createShare aad share .simple : Attempt (DecryptionShare G2 T)).result :=
    answersUnless_createShare ciphertext aad share .simple
  constructor
  · intro h
    obtain ⟨d, hd⟩ := h
    refine not_or.mp fun hzero => ?_
    rw [hanswers.stops ⟨hvalid, rfl, hzero⟩] at hd
    cases hd
  · intro h
    have hu : ciphertext.header.u = exponent ciphertext.header.u • generator :=
      (exponent_smul_generator _).symm
    have hρ : exponent ciphertext.header.u ≠ 0 := by
      rw [Ne, exponent_eq_iff, zero_smul]
      exact (checkValidity_eq_ok.mp hvalid).1
    obtain ⟨d, hd⟩ : ∃ d : DecryptionShare G2 T, ciphertext.shareOf .simple share = .ok d :=
      shareOf_ok hu hρ fun _ => h
    exact ⟨d, createShare_eq_ok.mpr ⟨hvalid, hd⟩⟩

/-- For a valid ciphertext and any key share: the fast share can be made and is accepted exactly if
the key share is.  The simple share can be made exactly if the key share and the nonce are not
zero, and is accepted if the key share is.  Both lift to the same power of the base. -/
theorem verify_createShare (hvalid : (ciphertext.checkValidity aad).result = .ok ())
    (vector : VerificationVector G1) (share : KeyShare) :
    (∃ d : DecryptionShare G2 T, (ciphertext.createShare aad share .fast).result = .ok d ∧
      (d.verify ciphertext vector).result = .ok (vector.verifyShare share).value ∧
      d.lift G1 = ciphertext.pairingBase ^ share.value) ∧
    ((∃ d : DecryptionShare G2 T, (ciphertext.createShare aad share .simple).result = .ok d) ↔
      share.value ≠ 0 ∧ EqualityProof.nonce share ciphertext.context ≠ 0) ∧
    ∀ d : DecryptionShare G2 T, (ciphertext.createShare aad share .simple).result = .ok d →
      ((vector.verifyShare share).value = true →
        (d.verify ciphertext vector).result = .ok true) ∧
      d.lift G1 = ciphertext.pairingBase ^ share.value := by
  refine ⟨?_, exists_createShare_simple_iff hvalid, ?_⟩
  · have hcreated : (ciphertext.createShare aad share .fast).result =
        .ok (.fast (ciphertext.fastShare share)) := createShare_eq_ok.mpr ⟨hvalid, rfl⟩
    refine ⟨_, hcreated, ?_, lift_of_createShare hvalid hcreated⟩
    rw [DecryptionShare.result_verify_fast, FastShare.verify_fastShare (v_ne_zero hvalid)]
  · intro d hd
    refine ⟨fun hshare => ?_, lift_of_createShare hvalid hd⟩
    obtain ⟨simple, hsimple, hd⟩ := Outcome.bind_eq_ok.mp (createShare_eq_ok.mp hd).2
    cases hd
    rw [DecryptionShare.result_verify_simple]
    exact SimpleShare.verify_simpleShare hsimple hshare

/-- The second participant's share in both variants, and a fast share of another value. -/
theorem verify_createShare_second_participant :
    (∃ d : DecryptionShare LogPoint LogTarget,
      (LogPoint.sevenfold.createShare [] ⟨1, 2, 11⟩ .simple).result = .ok d ∧
      (d.verify LogPoint.sevenfold LogPoint.dealing.vector).result = .ok true ∧
      d.lift LogPoint = ⟨77⟩) ∧
    ∃ d : DecryptionShare LogPoint LogTarget,
      (LogPoint.sevenfold.createShare [] ⟨1, 2, 12⟩ .fast).result = .ok d ∧
      (d.verify LogPoint.sevenfold LogPoint.dealing.vector).result = .ok false ∧
      d.lift LogPoint = ⟨84⟩ := by
  obtain ⟨-, hexists, hsimple⟩ := verify_createShare (T := LogTarget)
    LogPoint.checkValidity_sevenfold LogPoint.dealing.vector ⟨1, 2, 11⟩
  obtain ⟨⟨fast, hfast, hrejected, hlift⟩, -⟩ := verify_createShare (T := LogTarget)
    LogPoint.checkValidity_sevenfold LogPoint.dealing.vector ⟨1, 2, 12⟩
  have hvalue : (LogPoint.dealing.vector.verifyShare ⟨1, 2, 12⟩).value = false := by decide
  rw [hvalue] at hrejected
  obtain ⟨d, hd⟩ := hexists.mpr ⟨by decide, by decide +kernel⟩
  have haccepted := (hsimple d hd).1 (by decide)
  refine ⟨⟨d, hd, haccepted, ?_⟩, fast, hfast, hrejected, ?_⟩
  · rw [(hsimple d hd).2]
    decide
  · rw [hlift]
    decide

end Ciphertext
end ThresholdCipher
