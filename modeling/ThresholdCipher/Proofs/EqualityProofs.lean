import ThresholdCipher.Proofs.PreparedShares
import ThresholdCipher.Proofs.ShareChecks

/-
Soundness of the proofs that simple shares carry.

Challenge, response and value determine the commitments to the nonce that a proof leads
back to, by one equation in each group.  For the value that belongs to the vector's
commitment the second equation follows from the first.  For any other, the two leave one
challenge that has a response, whatever the commitments to the nonce are
(`existsUnique_answerable`), so a wrong value is accepted only where the hash gives just
that challenge.
-/

namespace ThresholdCipher

variable {G1 G2 T : Type} [CurveGroup G1] [CurveGroup G2] [TargetGroup T]

/-- Some response to the challenge leads back to these commitments to the nonce. -/
def EqualityProof.Answerable (commitment : G1) (base value : T) (t1 : G1) (t2 : T)
    (challenge : Scalar) : Prop :=
  ∃ share : SimpleShare T, share.value = value ∧ share.proof.challenge = challenge ∧
    share.nonceCommitments commitment base = (t1, t2)

variable [Pairing G1 G2 T] {ciphertext : Ciphertext G1 G2} {vector : VerificationVector G1}

namespace SimpleShare

variable {share : SimpleShare T}

/-- A share is accepted where its challenge is the hash of what its proof leads back to. -/
theorem verify_eq_ok_true :
    (share.verify ciphertext vector).result = .ok true ↔
      ∃ commitment,
        (vector.commitmentAt share.participant share.domainPoint).value = some commitment ∧
        EqualityProof.challengeFor share.participant commitment ciphertext.context share.value
          (share.nonceCommitments commitment ciphertext.pairingBase).1
          (share.nonceCommitments commitment ciphertext.pairingBase).2 =
            .ok share.proof.challenge := by
  cases hlookup : (vector.commitmentAt share.participant share.domainPoint).value with
  | none =>
    rw [result_verify_of_unknown hlookup]
    exact ⟨fun h => (nomatch h), fun ⟨_, h, _⟩ => (nomatch h)⟩
  | some commitment =>
    rw [result_verify_of_known hlookup, proofHolds, Outcome.bind_eq_ok]
    constructor
    · intro h
      obtain ⟨challenge, hchallenge, h⟩ := h
      have hsame : challenge = share.proof.challenge := of_decide_eq_true (Except.ok.inj h)
      exact ⟨commitment, rfl, hsame ▸ hchallenge⟩
    · intro h
      obtain ⟨_, hsame, hchallenge⟩ := h
      cases hsame
      exact ⟨_, hchallenge, congrArg Except.ok (decide_eq_true rfl)⟩

variable [LawfulCurveGroup G1] [LawfulTargetGroup T] [LawfulPairing G1 G2 T]

/-- The two equations of a proof, between exponents. -/
theorem nonceCommitments_eq_iff {s ρ γ a b : Scalar}
    (hvalue : share.value = pair (generator : G1) (generator : G2) ^ γ) :
    share.nonceCommitments (s • generator) (pair (generator : G1) (generator : G2) ^ ρ) =
        (a • (generator : G1), pair (generator : G1) (generator : G2) ^ b) ↔
      share.proof.response - share.proof.challenge * s = a ∧
        ρ * share.proof.response - γ * share.proof.challenge = b := by
  have hfirst : share.proof.response • (generator : G1) +
      -(share.proof.challenge • s • generator) =
      (share.proof.response - share.proof.challenge * s) • generator := by
    rw [sub_smul, mul_smul, sub_eq_add_neg]
  have hinjective : Function.Injective fun a : Scalar =>
      pair (generator : G1) (generator : G2) ^ a := pair_pow_injective
  rw [nonceCommitments, hfirst, targetCommitment_eq_pow hvalue, Prod.mk.injEq,
    smul_generator_injective.eq_iff, hinjective.eq_iff]

/-- A value other than the one committed to leaves one challenge that can be answered. -/
theorem existsUnique_answerable {s : Scalar} {value : T}
    (hvalue : value ≠ ciphertext.pairingBase ^ s) (t1 : G1) (t2 : T) :
    ∃! c, EqualityProof.Answerable (s • generator) ciphertext.pairingBase value t1 t2 c := by
  obtain ⟨ρ, hρ⟩ := LawfulCurveGroup.spanned ciphertext.header.u
  obtain ⟨a, rfl⟩ := LawfulCurveGroup.spanned t1
  have hspanned : ∀ t : T, ∃ a : Scalar, pair (generator : G1) (generator : G2) ^ a = t :=
    LawfulPairing.spanned
  obtain ⟨γ, rfl⟩ := hspanned value
  obtain ⟨b, rfl⟩ := hspanned t2
  rw [Ciphertext.pairingBase_eq hρ.symm] at hvalue ⊢
  have hne : γ - ρ * s ≠ 0 := by
    intro h
    rw [sub_eq_zero.mp h, LawfulTargetGroup.pow_mul] at hvalue
    exact hvalue rfl
  -- Eliminating the response from the two equations leaves one for the challenge.
  refine ⟨(ρ * a - b) / (γ - ρ * s), ?_, ?_⟩
  · refine ⟨⟨0, 0, _, ⟨_, a + (ρ * a - b) / (γ - ρ * s) * s⟩⟩, rfl, rfl,
      (nonceCommitments_eq_iff rfl).mpr ⟨?_, ?_⟩⟩
    · ring
    · field_simp
      ring
  · intro c h
    obtain ⟨share, hshare, rfl, hnonce⟩ := h
    obtain ⟨hfirst, hsecond⟩ := (nonceCommitments_eq_iff hshare).mp hnonce
    rw [eq_div_iff hne, ← hfirst, ← hsecond]
    ring

/-- Under given commitments to the nonce, a value other than the one committed to has exactly
one challenge that can be answered, and is accepted only where the hash is that challenge.  Two
answers to different challenges show the value to be the one committed to. -/
theorem special_soundness (ciphertext : Ciphertext G1 G2) {p : Participant}
    {entry : ShareCommitment G1} {s : Scalar}
    (hentry : vector.entry? p = some entry) (hs : entry.commitment = s • generator) :
    (∀ value : T, value ≠ ciphertext.pairingBase ^ s → ∀ t1 t2, ∃! c,
      EqualityProof.Answerable entry.commitment ciphertext.pairingBase value t1 t2 c) ∧
    (∀ share : SimpleShare T, share.participant = p →
      share.value ≠ ciphertext.pairingBase ^ s →
      (share.verify ciphertext vector).result = .ok true → ∀ t1 t2,
      share.nonceCommitments entry.commitment ciphertext.pairingBase = (t1, t2) → ∀ c,
      EqualityProof.Answerable entry.commitment ciphertext.pairingBase share.value t1 t2 c →
        EqualityProof.challengeFor p entry.commitment ciphertext.context share.value t1 t2 =
          .ok c) ∧
    ∀ share share' : SimpleShare T, share.value = share'.value →
      share.nonceCommitments entry.commitment ciphertext.pairingBase =
        share'.nonceCommitments entry.commitment ciphertext.pairingBase →
      share.proof.challenge ≠ share'.proof.challenge →
        share.value = ciphertext.pairingBase ^ s := by
  rw [hs]
  have hunique : ∀ value : T, value ≠ ciphertext.pairingBase ^ s → ∀ t1 t2, ∃! c,
      EqualityProof.Answerable (s • generator) ciphertext.pairingBase value t1 t2 c :=
    fun value hvalue t1 t2 => existsUnique_answerable hvalue t1 t2
  refine ⟨hunique, ?_, ?_⟩
  · intro share hp hvalue hverified t1 t2 hnonce c hanswer
    obtain ⟨commitment, hlookup, hchallenge⟩ := verify_eq_ok_true.mp hverified
    obtain ⟨found, hfound, -, rfl⟩ := VerificationVector.commitmentAt_eq_some.mp hlookup
    rw [hp, hentry, Option.some.injEq] at hfound
    rw [← hfound, hs, hnonce, hp] at hchallenge
    have hsole : c = share.proof.challenge :=
      (hunique _ hvalue t1 t2).unique hanswer ⟨share, rfl, rfl, hnonce⟩
    rw [hsole, hchallenge]
  · intro share share' hvalue hnonce hne
    by_contra hwrong
    exact hne ((hunique _ hwrong _ _).unique ⟨share, rfl, rfl, rfl⟩
      ⟨share', hvalue.symm, rfl, hnonce.symm⟩)

/-- The first participant's commitment, under two answers of which each belongs to another
challenge. -/
theorem special_soundness_first_participant :
    (∃! c, EqualityProof.Answerable (⟨8⟩ : LogPoint) (⟨7⟩ : LogTarget) ⟨1⟩ ⟨2⟩ ⟨3⟩ c) ∧
    (⟨0, 1, ⟨56⟩, ⟨1, 10⟩⟩ : SimpleShare LogTarget).value =
      LogPoint.sevenfold.pairingBase ^ (8 : Scalar) := by
  have hentry : LogPoint.dealing.vector.entry? 0 = some ⟨0, 1, ⟨8⟩⟩ := by decide
  have hs : (⟨8⟩ : LogPoint) = (8 : Scalar) • generator := by decide
  obtain ⟨hunique, -, hextract⟩ :=
    special_soundness LogPoint.sevenfold hentry hs
  refine ⟨hunique ⟨1⟩ (by decide) ⟨2⟩ ⟨3⟩, ?_⟩
  exact hextract ⟨0, 1, ⟨56⟩, ⟨1, 10⟩⟩ ⟨0, 1, ⟨56⟩, ⟨3, 26⟩⟩ rfl (by decide) (by decide)

end SimpleShare
end ThresholdCipher
