import ThresholdCipher.Proofs.Payload
import ThresholdCipher.Proofs.PairingLaws

/-
Validity of ciphertexts, and what encryption makes.

A ciphertext is valid exactly where one exponent other than zero is behind `u`, `v`
and, over the hash of the rest, `w` (`checkValidity_eq_ok`).  Encryption draws that
exponent, so what it makes is valid, and whoever has the pairing of the public key
with the second generator to that power gets the plaintext back.
-/

namespace ThresholdCipher

namespace Entropy

theorem nonzeroWithin_ne_zero {attempts : Nat} {e rest : Entropy} {s : Scalar}
    (h : nonzeroWithin attempts e = some (s, rest)) : s ≠ 0 := by
  induction attempts generalizing e with
  | zero => cases h
  | succ attempts ih =>
    rw [nonzeroWithin] at h
    obtain ⟨⟨candidate, e₁⟩, -, h⟩ := Option.bind_eq_some_iff.mp h
    by_cases hzero : candidate = 0
    · exact ih (by simpa [hzero] using h)
    · simp only [if_neg hzero, Option.some.injEq, Prod.mk.injEq] at h
      rwa [← h.1]

theorem ne_zero_of_nonzeroScalar? {e rest : Entropy} {s : Scalar}
    (h : e.nonzeroScalar? = some (s, rest)) : s ≠ 0 := nonzeroWithin_ne_zero h

end Entropy

variable {G1 G2 T : Type} [CurveGroup G1] [CurveGroup G2] [TargetGroup T] [Pairing G1 G2 T]

/-! ## The steps of encryption and decryption -/

omit [TargetGroup T] in
theorem authenticationPoint_eq_ok {u : G1} {v hashed : G2} {payload aad : Bytes} :
    authenticationPoint u v payload aad = .ok hashed ↔
      hashed ≠ 0 ∧
        Pairing.hashToCurve G1 (authenticationMessage u v payload aad) authenticationTag =
          hashed := by
  unfold authenticationPoint hashPoint
  by_cases hzero : (Pairing.hashToCurve G1 (authenticationMessage u v payload aad)
      authenticationTag : G2) = 0
  · rw [if_pos hzero, hzero]
    exact ⟨fun h => (nomatch h), fun h => absurd h.2.symm h.1⟩
  · rw [if_neg hzero, Except.ok.injEq]
    exact ⟨fun h => ⟨h ▸ hzero, h⟩, fun h => h.2⟩

namespace PayloadCipher

variable {cipher : PayloadCipher} {publicKey : G1} {plaintext aad : Bytes} {e rest : Entropy}
  {ciphertext : Ciphertext G1 G2}

/-- What encryption draws, computes and puts together. -/
theorem encrypt_eq_ok :
    (cipher.encrypt publicKey plaintext aad e).result = .ok (ciphertext, rest) ↔
      ∃ r material payload hashed, e.nonzeroScalar? = some (r, rest) ∧
        encodeTarget (pair (r • publicKey) (generator : G2)) = .ok material ∧
        cipher.wrap material (contextBytes (r • (generator : G1)) (r • (generator : G2)))
          plaintext aad = .ok payload ∧
        authenticationPoint (r • (generator : G1)) (r • (generator : G2)) payload aad =
          .ok hashed ∧
        ⟨⟨r • generator, r • generator, r • hashed⟩, payload⟩ = ciphertext := by
  rw [encrypt, Attempt.result_liftM_bind, Attempt.result_bind_eq_ok]
  constructor
  · rintro ⟨⟨r, e₁⟩, hr, h⟩
    obtain ⟨material, hmaterial, h⟩ := Attempt.result_bind_eq_ok.mp h
    obtain ⟨payload, hpayload, h⟩ := Attempt.result_bind_eq_ok.mp h
    obtain ⟨hashed, hhashed, h⟩ := Attempt.result_bind_eq_ok.mp h
    rw [Attempt.result_drawn_eq_ok] at hr
    rw [Attempt.result_orRefuse_eq_ok] at hpayload
    rw [Attempt.result_orRefuse_eq_ok, Outcome.mapError_eq_ok] at hhashed
    cases h
    exact ⟨r, material, payload, hashed, hr, hmaterial, hpayload, hhashed, rfl⟩
  · rintro ⟨r, material, payload, hashed, hr, hmaterial, hpayload, hhashed, rfl⟩
    refine ⟨(r, rest), Attempt.result_drawn_eq_ok.mpr hr, ?_⟩
    refine Attempt.result_bind_eq_ok.mpr ⟨material, hmaterial, ?_⟩
    refine Attempt.result_bind_eq_ok.mpr
      ⟨payload, Attempt.result_orRefuse_eq_ok.mpr hpayload, ?_⟩
    exact Attempt.result_bind_eq_ok.mpr ⟨hashed,
      Attempt.result_orRefuse_eq_ok.mpr (Outcome.mapError_eq_ok.mpr hhashed), rfl⟩

theorem header_of_encrypt
    (h : (cipher.encrypt publicKey plaintext aad e).result = .ok (ciphertext, rest)) {r : Scalar}
    (hr : e.nonzeroScalar? = some (r, rest)) :
    ciphertext.header.u = r • generator ∧ ciphertext.header.v = r • generator := by
  obtain ⟨r', _, _, _, hr', -, -, -, rfl⟩ := encrypt_eq_ok.mp h
  have hsame : r' = r := congrArg Prod.fst (Option.some.inj (hr'.symm.trans hr))
  rw [hsame]
  exact ⟨rfl, rfl⟩

/-- The secret that encryption was done with opens the payload. -/
theorem decrypt_of_encrypt
    (h : (cipher.encrypt publicKey plaintext aad e).result = .ok (ciphertext, rest)) {r : Scalar}
    (hr : e.nonzeroScalar? = some (r, rest)) :
    (cipher.decrypt ciphertext aad ⟨pair (r • publicKey) (generator : G2)⟩).result =
      .ok plaintext := by
  obtain ⟨r', material, payload, hashed, hr', hmaterial, hpayload, -, rfl⟩ := encrypt_eq_ok.mp h
  have hsame : r' = r := congrArg Prod.fst (Option.some.inj (hr'.symm.trans hr))
  subst hsame
  rw [decrypt, Attempt.result_liftM_bind, Attempt.result_bind_eq_ok]
  exact ⟨material, hmaterial,
    Attempt.result_orRefuse_eq_ok.mpr (unwrap_of_wrap hpayload)⟩

end PayloadCipher

/-! ## Validity -/

variable [LawfulCurveGroup G1] [LawfulCurveGroup G2] [LawfulTargetGroup T] [LawfulPairing G1 G2 T]

namespace Ciphertext

variable {ciphertext : Ciphertext G1 G2} {aad : Bytes}

theorem isAuthentic_iff {header : Header G1 G2} {hashed : G2} :
    isAuthentic header hashed = true ↔
      exponent header.w = exponent header.u * exponent hashed := by
  rw [isAuthentic, pairsCancel_iff, eq_comm]

theorem isConsistent_iff {header : Header G1 G2} :
    isConsistent header = true ↔ exponent header.v = exponent header.u := by
  rw [isConsistent, pairsCancel_iff, exponent_generator, mul_one, eq_comm]

theorem checkValidity_eq_ok :
    (ciphertext.checkValidity aad).result = .ok () ↔
      ciphertext.header.u ≠ 0 ∧ ∃ hashed,
        authenticationPoint ciphertext.header.u ciphertext.header.v ciphertext.payload aad =
          .ok hashed ∧
        exponent ciphertext.header.w = exponent ciphertext.header.u * exponent hashed ∧
        exponent ciphertext.header.v = exponent ciphertext.header.u := by
  rw [checkValidity, Attempt.result_liftM_bind]
  by_cases hu : ciphertext.header.u = 0
  · rw [if_pos hu, Attempt.result_liftM_bind]
    exact ⟨fun h => (nomatch h), fun h => absurd hu h.1⟩
  · rw [if_neg hu, Attempt.result_bind_eq_ok]
    simp only [Attempt.result_orRefuse_eq_ok, Outcome.mapError_eq_ok, ← isAuthentic_iff,
      ← isConsistent_iff]
    constructor
    · rintro ⟨hashed, hhashed, h⟩
      refine ⟨hu, hashed, hhashed, ?_⟩
      rw [Attempt.result_ite] at h
      split at h
      next hboth => exact (Bool.and_eq_true _ _).mp hboth
      next => rw [Attempt.result_liftM_bind] at h; cases h
    · rintro ⟨-, hashed, hhashed, hauthentic, hconsistent⟩
      refine ⟨hashed, hhashed, ?_⟩
      rw [hauthentic, hconsistent]
      rfl

theorem v_eq_of_checkValidity (h : (ciphertext.checkValidity aad).result = .ok ()) {ρ : Scalar}
    (hu : ciphertext.header.u = ρ • generator) : ciphertext.header.v = ρ • generator := by
  obtain ⟨-, -, -, -, hv⟩ := checkValidity_eq_ok.mp h
  rw [← exponent_eq_iff, hv, exponent_eq_iff, hu]

end Ciphertext

namespace PayloadCipher

variable {cipher : PayloadCipher} {publicKey : G1} {plaintext aad : Bytes} {e rest : Entropy}
  {ciphertext : Ciphertext G1 G2}

theorem material_ne_one {r : Scalar} (hr : r ≠ 0) (hkey : publicKey ≠ 0) :
    pair (r • publicKey) (generator : G2) ≠ 1 := by
  rw [Ne, pair_eq_one_iff, not_or]
  exact ⟨smul_ne_zero hr hkey, LawfulCurveGroup.generator_ne_zero⟩

/-- A payload that fits, encrypted to a public key other than the identity, gives a ciphertext
unless what is to be authenticated hashes to the identity. -/
theorem encrypt_ok (hkey : publicKey ≠ 0) (hfits : Sealed.fits plaintext.length) {r : Scalar}
    (hr : e.nonzeroScalar? = some (r, rest)) :
    (∃ ciphertext : Ciphertext G1 G2,
      (cipher.encrypt publicKey plaintext aad e).result = .ok (ciphertext, rest)) ∨
    (∃ message : Bytes, (Pairing.hashToCurve G1 message authenticationTag : G2) = 0) ∧
      (cipher.encrypt publicKey plaintext aad e : Attempt (Ciphertext G1 G2 × Entropy)).result =
        .error (.error (.primitive .hashedToIdentity)) := by
  have hsecret : pair (r • publicKey) (generator : G2) ≠ 1 :=
    material_ne_one (Entropy.ne_zero_of_nonzeroScalar? hr) hkey
  obtain ⟨material, hmaterial⟩ := encodeTarget_ok hsecret
  have hwrap : ∃ payload, cipher.wrap material
      (contextBytes (r • (generator : G1)) (r • (generator : G2))) plaintext aad = .ok payload :=
    wrap_ok hfits
  obtain ⟨payload, hpayload⟩ := hwrap
  by_cases hzero : (Pairing.hashToCurve G1 (authenticationMessage (r • (generator : G1))
      (r • (generator : G2)) payload aad) authenticationTag : G2) = 0
  · refine .inr ⟨⟨_, hzero⟩, ?_⟩
    rw [encrypt, Attempt.result_liftM_bind,
      Attempt.result_bind_of_ok (Attempt.result_drawn_eq_ok.mpr hr),
      Attempt.result_bind_of_ok ((Attempt.result_ofExcept _).trans hmaterial),
      Attempt.result_bind_of_ok (Attempt.result_orRefuse_eq_ok.mpr hpayload),
      Attempt.result_bind, Attempt.result_orRefuse, authenticationPoint, hashPoint, if_pos hzero]
    rfl
  · exact .inl ⟨_, encrypt_eq_ok.mpr ⟨r, material, payload, _, hr, hmaterial, hpayload,
      authenticationPoint_eq_ok.mpr ⟨hzero, rfl⟩, rfl⟩⟩

theorem checkValidity_of_encrypt
    (h : (cipher.encrypt publicKey plaintext aad e).result = .ok (ciphertext, rest)) :
    (ciphertext.checkValidity aad).result = .ok () := by
  obtain ⟨r, material, payload, hashed, hr, -, -, hhashed, rfl⟩ := encrypt_eq_ok.mp h
  refine Ciphertext.checkValidity_eq_ok.mpr ⟨?_, hashed, hhashed, ?_, ?_⟩
  · exact smul_ne_zero (Entropy.ne_zero_of_nonzeroScalar? hr) LawfulCurveGroup.generator_ne_zero
  · rw [exponent_smul, exponent_smul, exponent_generator, mul_one]
  · rw [exponent_smul, exponent_smul, exponent_generator, exponent_generator]

end PayloadCipher
end ThresholdCipher
