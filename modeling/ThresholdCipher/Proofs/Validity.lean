import ThresholdCipher.Proofs.HashInputs
import ThresholdCipher.Proofs.PreparedShares

/-
Which ciphertexts are valid.

The two products of pairings pin down one exponent behind the whole header: the check
passes where `u`, `v` and `w` are multiples of the two generators and of the hash by one
scalar other than zero (`HasExponent`), and refuses everything else in one way.  So `u`
alone determines the rest of a valid header.  The hashed message tells payload and
associated data apart (`authenticationMessage_inj`), so a header that is valid for two of
them is a collision of the hash.
-/

namespace ThresholdCipher

variable {G1 G2 T : Type} [CurveGroup G1] [CurveGroup G2] [TargetGroup T] [Pairing G1 G2 T]

namespace Ciphertext

/-- What `w` is to be a multiple of. -/
def hashed (ciphertext : Ciphertext G1 G2) (aad : Bytes) : G2 :=
  Pairing.hashToCurve G1 (authenticationMessage ciphertext.header.u ciphertext.header.v
    ciphertext.payload aad) authenticationTag

/-- One exponent is behind all three parts of the header. -/
structure HasExponent (ciphertext : Ciphertext G1 G2) (aad : Bytes) (ρ : Scalar) : Prop where
  u_eq : ciphertext.header.u = ρ • generator
  v_eq : ciphertext.header.v = ρ • generator
  w_eq : ciphertext.header.w = ρ • ciphertext.hashed aad

variable {ciphertext : Ciphertext G1 G2} {aad : Bytes}

/-- The check has two outcomes where the hash is a point other than the identity. -/
theorem result_checkValidity (hhash : ciphertext.hashed aad ≠ 0) :
    (ciphertext.checkValidity aad).result =
      if ciphertext.header.u ≠ 0 ∧
        isAuthentic ciphertext.header (ciphertext.hashed aad) = true ∧
        isConsistent ciphertext.header = true
      then .ok () else .error (.error .invalidCiphertext) := by
  have hpoint : authenticationPoint ciphertext.header.u ciphertext.header.v ciphertext.payload
      aad = .ok (ciphertext.hashed aad) := authenticationPoint_eq_ok.mpr ⟨hhash, rfl⟩
  rw [checkValidity, Attempt.result_liftM_bind]
  by_cases hu : ciphertext.header.u = 0
  · rw [if_pos hu, Attempt.result_liftM_bind, if_neg fun h => h.1 hu]
    rfl
  · rw [if_neg hu, Attempt.result_bind_of_ok (Attempt.result_orRefuse_eq_ok.mpr
      (Outcome.mapError_eq_ok.mpr hpoint)), Attempt.result_ite]
    by_cases hboth : isAuthentic ciphertext.header (ciphertext.hashed aad) = true ∧
        isConsistent ciphertext.header = true
    · rw [if_pos ((Bool.and_eq_true _ _).mpr hboth), if_pos ⟨hu, hboth⟩]
      rfl
    · rw [if_neg (mt (Bool.and_eq_true _ _).mp hboth), if_neg fun h => hboth h.2,
        Attempt.result_liftM_bind]
      rfl

variable [LawfulCurveGroup G1] [LawfulCurveGroup G2] [LawfulTargetGroup T] [LawfulPairing G1 G2 T]

/-- The exponent is that of `u`, and the pairings compare it with those of `v` and `w`. -/
theorem exists_hasExponent_iff :
    (∃ ρ, ρ ≠ 0 ∧ ciphertext.HasExponent aad ρ) ↔
      ciphertext.header.u ≠ 0 ∧
        isAuthentic ciphertext.header (ciphertext.hashed aad) = true ∧
        isConsistent ciphertext.header = true := by
  rw [isAuthentic_iff, isConsistent_iff]
  constructor
  · intro h
    obtain ⟨ρ, hρ, hu, hv, hw⟩ := h
    refine ⟨?_, ?_, ?_⟩
    · rw [hu]
      exact smul_ne_zero hρ LawfulCurveGroup.generator_ne_zero
    · rw [hw, hu, exponent_smul, exponent_smul, exponent_generator, mul_one]
    · rw [hv, hu, exponent_smul, exponent_smul, exponent_generator, exponent_generator]
  · intro h
    obtain ⟨hu, hw, hv⟩ := h
    refine ⟨exponent ciphertext.header.u, ?_, ?_, ?_, ?_⟩
    · intro hzero
      rw [exponent_eq_iff, zero_smul] at hzero
      exact hu hzero
    · exact (exponent_smul_generator _).symm
    · rw [← hv, exponent_smul_generator]
    · rw [← exponent_smul_generator ciphertext.header.w, hw, mul_smul, exponent_smul_generator]

theorem checkValidity_eq_ok_iff (hhash : ciphertext.hashed aad ≠ 0) :
    (ciphertext.checkValidity aad).result = .ok () ↔
      ∃ ρ, ρ ≠ 0 ∧ ciphertext.HasExponent aad ρ := by
  rw [result_checkValidity hhash, exists_hasExponent_iff]
  split
  next hvalid => exact ⟨fun _ => hvalid, fun _ => rfl⟩
  next hinvalid => exact ⟨fun h => (nomatch h), fun h => absurd h hinvalid⟩

omit [TargetGroup T] [LawfulCurveGroup G2] [LawfulTargetGroup T] [LawfulPairing G1 G2 T] in
theorem HasExponent.eq {ρ σ : Scalar} {ciphertext' : Ciphertext G1 G2} {aad' : Bytes}
    (hρ : ciphertext.HasExponent aad ρ) (hσ : ciphertext'.HasExponent aad' σ)
    (hu : ciphertext.header.u = ciphertext'.header.u) : ρ = σ :=
  smul_generator_injective (hρ.u_eq.symm.trans (hu.trans hσ.u_eq))

/-- Beside a given `u` the other parts of a valid header are determined, and they exist unless
`u` is the identity. -/
theorem existsUnique_valid_iff
    (hhash : ∀ message, (Pairing.hashToCurve G1 message authenticationTag : G2) ≠ 0) (u : G1)
    (payload aad : Bytes) :
    (∃! rest : G2 × G2,
      (checkValidity ⟨⟨u, rest.1, rest.2⟩, payload⟩ aad).result = .ok ()) ↔ u ≠ 0 := by
  have hvalid : ∀ rest : G2 × G2, (checkValidity ⟨⟨u, rest.1, rest.2⟩, payload⟩ aad).result =
      .ok () ↔ ∃ ρ, ρ ≠ 0 ∧ HasExponent ⟨⟨u, rest.1, rest.2⟩, payload⟩ aad ρ :=
    fun rest => checkValidity_eq_ok_iff (hhash _)
  constructor
  · intro h
    obtain ⟨rest, hrest, -⟩ := h
    exact (exists_hasExponent_iff.mp ((hvalid rest).mp hrest)).1
  · intro hu
    obtain ⟨ρ, rfl⟩ := LawfulCurveGroup.spanned u
    have hρ : ρ ≠ 0 := by
      rintro rfl
      exact hu (zero_smul _ _)
    refine ⟨(ρ • generator, ρ • hashed ⟨⟨ρ • generator, ρ • generator, 0⟩, payload⟩ aad),
      (hvalid _).mpr ⟨ρ, hρ, rfl, rfl, rfl⟩, ?_⟩
    intro rest hrest
    obtain ⟨v, w⟩ := rest
    obtain ⟨σ, -, hexponent⟩ := (hvalid _).mp hrest
    have hσ : σ = ρ := smul_generator_injective hexponent.u_eq.symm
    -- `v` comes first: the hash that `w` is a multiple of depends on it.
    have hv : v = ρ • generator := hσ ▸ hexponent.v_eq
    subst hv
    exact Prod.ext rfl (hσ ▸ hexponent.w_eq)

/-- Valid are exactly the ciphertexts with one exponent other than zero behind the header, and
all others are refused as invalid.  Hence what encryption returns is valid, `u` determines
`v` and `w`, and one header valid for two pairs of payload and associated data is a collision
of the hash between two different messages. -/
theorem validity_exact
    (hhash : ∀ message, (Pairing.hashToCurve G1 message authenticationTag : G2) ≠ 0) :
    (∀ (ciphertext : Ciphertext G1 G2) (aad : Bytes),
      ((ciphertext.checkValidity aad).result = .ok () ↔
        ∃ ρ, ρ ≠ 0 ∧ ciphertext.HasExponent aad ρ) ∧
      ((¬∃ ρ, ρ ≠ 0 ∧ ciphertext.HasExponent aad ρ) →
        (ciphertext.checkValidity aad).result = .error (.error .invalidCiphertext))) ∧
    (∀ (cipher : PayloadCipher) (publicKey : G1) (plaintext aad : Bytes) (e rest : Entropy)
      (ciphertext : Ciphertext G1 G2),
      (cipher.encrypt publicKey plaintext aad e).result = .ok (ciphertext, rest) →
      (ciphertext.checkValidity aad).result = .ok ()) ∧
    (∀ (u : G1) (payload aad : Bytes), (∃! rest : G2 × G2,
      (checkValidity ⟨⟨u, rest.1, rest.2⟩, payload⟩ aad).result = .ok ()) ↔ u ≠ 0) ∧
    ∀ (header : Header G1 G2) (payload payload' aad aad' : Bytes),
      payload.length < UInt64.size → payload'.length < UInt64.size →
      (payload, aad) ≠ (payload', aad') →
      (checkValidity ⟨header, payload⟩ aad).result = .ok () →
      (checkValidity ⟨header, payload'⟩ aad').result = .ok () →
      authenticationMessage header.u header.v payload aad ≠
        authenticationMessage header.u header.v payload' aad' ∧
      (Pairing.hashToCurve G1 (authenticationMessage header.u header.v payload aad)
        authenticationTag : G2) =
        Pairing.hashToCurve G1 (authenticationMessage header.u header.v payload' aad')
          authenticationTag := by
  refine ⟨?_, ?_, existsUnique_valid_iff hhash, ?_⟩
  · intro ciphertext aad
    refine ⟨checkValidity_eq_ok_iff (hhash _), ?_⟩
    intro hnone
    rw [exists_hasExponent_iff] at hnone
    rw [result_checkValidity (hhash _), if_neg hnone]
  · intro cipher publicKey plaintext aad e rest ciphertext h
    exact PayloadCipher.checkValidity_of_encrypt h
  · intro header payload payload' aad aad' hlen hlen' hne hvalid hvalid'
    obtain ⟨ρ, hρ, hexponent⟩ := (checkValidity_eq_ok_iff (hhash _)).mp hvalid
    obtain ⟨σ, -, hexponent'⟩ := (checkValidity_eq_ok_iff (hhash _)).mp hvalid'
    have hσ : ρ = σ := hexponent.eq hexponent' rfl
    refine ⟨?_, ?_⟩
    · intro hmessage
      obtain ⟨rfl, rfl⟩ := authenticationMessage_inj hlen hlen' hmessage
      exact hne rfl
    · have hw := hexponent.w_eq.symm.trans hexponent'.w_eq
      rw [← hσ] at hw
      exact smul_right_injective G2 hρ hw

/-- The header with the exponent seven is the only one for its `u`, and no other `v` goes with
that. -/
theorem validity_exact_sevenfold :
    (∃! rest : LogPoint × LogPoint,
      (checkValidity ⟨⟨(⟨7⟩ : LogPoint), rest.1, rest.2⟩, []⟩ []).result = .ok ()) ∧
    (∃ ρ, ρ ≠ 0 ∧ LogPoint.sevenfold.HasExponent [] ρ) ∧
    ∀ w : LogPoint, (checkValidity ⟨⟨(⟨7⟩ : LogPoint), (⟨8⟩ : LogPoint), w⟩, []⟩ []).result =
      .error (.error .invalidCiphertext) := by
  obtain ⟨hexact, -, hunique, -⟩ := @validity_exact LogPoint LogPoint _ _ _ _ _ _ _ _ _
    fun message => LogPoint.hashToCurve_ne_zero message authenticationTag
  refine ⟨(hunique _ _ _).mpr (by decide),
    (hexact _ _).1.mp LogPoint.checkValidity_sevenfold, ?_⟩
  intro w
  refine (hexact _ _).2 ?_
  rintro ⟨ρ, -, hu, hv, -⟩
  have hseven : (7 : Scalar) = ρ * 1 := congrArg LogPoint.log hu
  have height : (8 : Scalar) = ρ * 1 := congrArg LogPoint.log hv
  exact absurd (hseven.trans height.symm) (by decide)

end Ciphertext
end ThresholdCipher
