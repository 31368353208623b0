import ThresholdCipher.Proofs.Dealing
import ThresholdCipher.Proofs.DecryptionShares

/-
Combining decryption shares, and decryption from end to end.

Pairing with the generator turns the sum of weighted fast shares into the product of
their weighted lifts, so combination is interpolation of lifts in the target group,
whatever the variants are (`combine_eq_ok`).  The lifts of shares at one ciphertext
are powers of one element whose exponents are values of the dealt polynomial, and so
any quorum arrives at the power with its constant term.
-/

namespace ThresholdCipher

theorem requireDistinct_eq_ok {participants : List Participant} :
    requireDistinct participants = .ok () ↔ participants.Nodup := by
  unfold requireDistinct
  split
  next h => exact ⟨fun _ => h, fun _ => rfl⟩
  next h => exact ⟨fun heq => (nomatch heq), fun hnodup => absurd hnodup h⟩

theorem DecryptionShare.mapM_fast?_eq_some {G2 T : Type} {shares : List (DecryptionShare G2 T)}
    {fasts : List (FastShare G2)} :
    shares.mapM (·.fast?) = some fasts ↔ fasts.map DecryptionShare.fast = shares := by
  induction shares generalizing fasts with
  | nil =>
    rw [List.mapM_nil, List.map_eq_nil_iff]
    exact ⟨fun h => by cases h; rfl, fun h => by rw [h]; rfl⟩
  | cons d shares ih =>
    rw [List.mapM_cons]
    cases d with
    | simple s => exact ⟨fun h => (nomatch h), fun h => by cases fasts <;> cases h⟩
    | fast s =>
      constructor
      · intro h
        obtain ⟨_, hs, h⟩ := Option.bind_eq_some_iff.mp h
        obtain ⟨tail, htail, h⟩ := Option.bind_eq_some_iff.mp h
        cases hs
        cases h
        rw [List.map_cons, ih.mp htail]
      · intro h
        obtain ⟨s', tail, rfl, hs, htail⟩ := List.map_eq_cons_iff.mp h
        cases hs
        rw [ih.mpr htail]
        rfl

variable {G1 G2 T : Type} [CurveGroup G1] [CurveGroup G2] [TargetGroup T] [Pairing G1 G2 T]
  [LawfulCurveGroup G1] [LawfulCurveGroup G2] [LawfulTargetGroup T] [LawfulPairing G1 G2 T]

theorem pair_sum (values : List G2) :
    pair (generator : G1) values.sum = (values.map fun q => pair (generator : G1) q).prod := by
  induction values with
  | nil =>
    rw [List.sum_nil, pair_eq_pow, exponent_zero, mul_zero, LawfulTargetGroup.pow_zero]
    rfl
  | cons q values ih =>
    rw [List.sum_cons, List.map_cons, List.prod_cons, ← ih, pair_eq_pow, pair_eq_pow _ q,
      pair_eq_pow _ values.sum, exponent_add, mul_add, LawfulTargetGroup.pow_add]

namespace SharedSecret

open Interpolation (weight)

variable {shares : List (DecryptionShare G2 T)} {threshold : Nat} {secret : SharedSecret T}

/-- Pairing the weighted sum of fast shares is the same as interpolating their lifts. -/
theorem combineFast_eq_ok {fasts : List (FastShare G2)} :
    (do
      let weights ← Interpolation.weights (fasts.map (·.domainPoint)) 0
      let combined ← Attempt.ofExcept (weightedSum (fasts.map (·.value)) weights)
      return ⟨pair (generator : G1) combined⟩ : Attempt (SharedSecret T)).result = .ok secret ↔
      fasts ≠ [] ∧ (fasts.map (·.domainPoint)).Nodup ∧
        (fasts.map fun s => pair (generator : G1) s.value ^
          weight (fasts.map (·.domainPoint)) 0 s.domainPoint).prod = secret.value := by
  have hpair : pair (generator : G1)
      (fasts.map fun s => weight (fasts.map (·.domainPoint)) 0 s.domainPoint • s.value).sum =
      (fasts.map fun s => pair (generator : G1) s.value ^
        weight (fasts.map (·.domainPoint)) 0 s.domainPoint).prod := by
    rw [pair_sum, List.map_map]
    congr 1
    exact List.map_congr_left fun s _ => LawfulPairing.pair_smul_right _ _ _
  rw [Attempt.result_bind_eq_ok]
  constructor
  · rintro ⟨ws, hws, h⟩
    obtain ⟨combined, hcombined, h⟩ := Attempt.result_bind_eq_ok.mp h
    obtain ⟨hne, hnodup, rfl⟩ := Interpolation.weights_eq_ok.mp hws
    obtain ⟨-, -, rfl⟩ := weightedSum_eq_ok.mp hcombined
    cases h
    refine ⟨fun h => hne (List.map_eq_nil_iff.mpr h), hnodup, ?_⟩
    rw [← hpair, List.map_map, List.zipWith_map, List.zipWith_self]
    rfl
  · rintro ⟨hne, hnodup, hprod⟩
    have hpoints : fasts.map (·.domainPoint) ≠ [] := fun h => hne (List.map_eq_nil_iff.mp h)
    have hvalues : fasts.map (·.value) ≠ [] := fun h => hne (List.map_eq_nil_iff.mp h)
    refine ⟨_, Interpolation.weights_eq_ok.mpr ⟨hpoints, hnodup, rfl⟩, ?_⟩
    refine Attempt.result_bind_eq_ok.mpr ⟨_, weightedSum_eq_ok.mpr ⟨?_, hvalues, rfl⟩, ?_⟩
    · rw [List.length_map, List.length_map, List.length_map]
    · rw [Attempt.result_pure, List.map_map, List.zipWith_map, List.zipWith_self]
      show Except.ok (SharedSecret.mk (pair (generator : G1) (fasts.map fun s =>
        weight (fasts.map (·.domainPoint)) 0 s.domainPoint • s.value).sum)) = _
      rw [hpair, hprod]

/-- Combination is interpolation of the lifted shares in the target group. -/
theorem combine_eq_ok :
    (combine G1 shares threshold).result = .ok secret ↔
      0 < threshold ∧ threshold ≤ shares.length ∧ (shares.map (·.participant)).Nodup ∧
        (shares.map (·.domainPoint)).Nodup ∧
        (shares.map fun d => d.lift G1 ^ weight (shares.map (·.domainPoint)) 0 d.domainPoint).prod =
          secret.value := by
  have hne : threshold ≤ shares.length → 0 < threshold → shares ≠ [] := by
    rintro henough hpos rfl
    exact absurd henough (Nat.not_le.mpr hpos)
  rw [combine, Attempt.result_liftM_bind, Attempt.result_check_bind_eq_ok,
    Attempt.result_check_bind_eq_ok, Attempt.result_orRefuse_eq_ok, Attempt.result_orRefuse_eq_ok,
    requireEnough_eq_ok, requireDistinct_eq_ok]
  -- Fast shares are added up before they are paired; any other list is lifted share by share.
  cases hfast : shares.mapM (·.fast?) with
  | some fasts =>
    have hfasts := DecryptionShare.mapM_fast?_eq_some.mp hfast
    have hpoints : shares.map (·.domainPoint) = fasts.map (·.domainPoint) := by
      rw [← hfasts, List.map_map]
      rfl
    have hlifts : (shares.map fun d =>
        d.lift G1 ^ weight (shares.map (·.domainPoint)) 0 d.domainPoint) =
        fasts.map fun s => pair (generator : G1) s.value ^
          weight (fasts.map (·.domainPoint)) 0 s.domainPoint := by
      rw [hpoints, ← hfasts, List.map_map]
      rfl
    have hnil : fasts ≠ [] ↔ shares ≠ [] := by rw [← hfasts, Ne, Ne, List.map_eq_nil_iff]
    rw [hlifts, hpoints]
    show (_ ∧ _ ∧ _ = _) ↔ _
    rw [combineFast_eq_ok, hnil]
    exact ⟨fun ⟨⟨hpos, henough⟩, hdistinct, _, h⟩ => ⟨hpos, henough, hdistinct, h⟩,
      fun ⟨hpos, henough, hdistinct, h⟩ => ⟨⟨hpos, henough⟩, hdistinct, hne henough hpos, h⟩⟩
  | none =>
    simp only [Attempt.result_liftM_bind]
    constructor
    · rintro ⟨⟨hpos, henough⟩, hdistinct, h⟩
      obtain ⟨value, hvalue, h⟩ := Attempt.result_bind_eq_ok.mp h
      obtain ⟨-, hnodup, hprod⟩ := Interpolation.target_eq_ok.mp hvalue
      cases h
      exact ⟨hpos, henough, hdistinct, hnodup, hprod⟩
    · rintro ⟨hpos, henough, hdistinct, hnodup, hprod⟩
      refine ⟨⟨hpos, henough⟩, hdistinct, Attempt.result_bind_eq_ok.mpr ⟨secret.value, ?_, rfl⟩⟩
      exact Interpolation.target_eq_ok.mpr ⟨hne henough hpos, hnodup, hprod⟩

/-- Shares whose lifts are the values of a polynomial in the exponent combine to the power
with its constant term. -/
theorem combine_values {f : SharingPolynomial} {ρ : Scalar} (hpos : 0 < threshold)
    (henough : threshold ≤ shares.length) (hf : f.threshold ≤ shares.length)
    (hparticipants : (shares.map (·.participant)).Nodup)
    (hpoints : (shares.map (·.domainPoint)).Nodup)
    (hlift : ∀ d ∈ shares, d.lift G1 =
      pair (generator : G1) (generator : G2) ^ (ρ * f.evaluate d.domainPoint)) :
    (combine G1 shares threshold).result =
      .ok ⟨pair (generator : G1) (generator : G2) ^ (ρ * f.constant)⟩ := by
  refine combine_eq_ok.mpr ⟨hpos, henough, hparticipants, hpoints, ?_⟩
  have hpowers : (shares.map fun d =>
      d.lift G1 ^ weight (shares.map (·.domainPoint)) 0 d.domainPoint) =
      (shares.map fun d => ρ * (weight (shares.map (·.domainPoint)) 0 d.domainPoint *
        f.evaluate d.domainPoint)).map fun a => pair (generator : G1) (generator : G2) ^ a := by
    rw [List.map_map]
    refine List.map_congr_left fun d hd => ?_
    rw [hlift d hd, ← LawfulTargetGroup.pow_mul, Function.comp_apply]
    congr 1
    ring
  rw [hpowers, pow_sum, List.sum_map_mul_left, Interpolation.sum_weight_mul hpoints hf 0,
    SharingPolynomial.evaluate_zero]

end SharedSecret

/-! ## From end to end -/

section

variable {parameters : Parameters} {dealing : Dealing G1} {cipher : PayloadCipher}
  {ciphertext : Ciphertext G1 G2} {plaintext aad : Bytes} {e rest : Entropy} {ρ : Scalar}

/-- Any quorum of a dealing, with a variant for each member, makes shares that combine to the
power with the dealt secret. -/
theorem Dealt.combine_createShare (hdealt : Dealt parameters dealing)
    (hvalid : (ciphertext.checkValidity aad).result = .ok ())
    (hu : ciphertext.header.u = ρ • generator) (hρ : ρ ≠ 0)
    {holders : List (KeyShare × ShareVariant)} (hmem : ∀ h ∈ holders, h.1 ∈ dealing.shares)
    (hnodup : (holders.map (·.1.participant)).Nodup)
    (henough : parameters.threshold ≤ holders.length)
    (hsimple : ∀ h ∈ holders, h.2 = .simple →
      h.1.value ≠ 0 ∧ EqualityProof.nonce h.1 ciphertext.context ≠ 0) :
    ∃ shares : List (DecryptionShare G2 T),
      (holders.mapM fun h => ciphertext.createShare aad h.1 h.2).result = .ok shares ∧
        (SharedSecret.combine G1 shares parameters.threshold).result =
          .ok ⟨pair (generator : G1) (generator : G2) ^ (ρ * dealing.polynomial.constant)⟩ := by
  have hcreate : ∀ h ∈ holders, ∃ d : DecryptionShare G2 T,
      (ciphertext.createShare aad h.1 h.2).result = .ok d := by
    intro h hh
    obtain ⟨d, hd⟩ := Ciphertext.shareOf_ok hu hρ (hsimple h hh)
    exact ⟨d, Ciphertext.createShare_eq_ok.mpr ⟨hvalid, hd⟩⟩
  obtain ⟨shares, hshares⟩ := Outcome.exists_mapM_eq_ok hcreate
  have hseat : ∀ h ∈ holders, ∀ d : DecryptionShare G2 T,
      (ciphertext.createShare aad h.1 h.2).result = .ok d →
        d.participant = h.1.participant ∧ d.domainPoint = h.1.domainPoint :=
    fun h _ d hd => Ciphertext.seat_of_shareOf (Ciphertext.createShare_eq_ok.mp hd).2
  have hparticipants : shares.map (·.participant) = holders.map (·.1.participant) :=
    Outcome.map_eq_of_mapM hshares fun h hh d _ hd => (hseat h hh d hd).1
  have hpoints : shares.map (·.domainPoint) = (holders.map (·.1)).map (·.domainPoint) := by
    rw [List.map_map]
    exact Outcome.map_eq_of_mapM hshares fun h hh d _ hd => (hseat h hh d hd).2
  have hkeyShares : ∀ share ∈ holders.map (·.1), share ∈ dealing.shares := by
    intro share hshare
    obtain ⟨h, hh, rfl⟩ := List.mem_map.mp hshare
    exact hmem h hh
  have hlen : shares.length = holders.length := Outcome.length_of_mapM hshares
  have hpos := (Parameters.validate_eq_ok.mp hdealt.validate).2.1
  refine ⟨shares, (Attempt.result_mapM _ _).trans hshares,
    SharedSecret.combine_values hpos (by omega) ?_ ?_ ?_ ?_⟩
  · rw [hdealt.threshold_polynomial]
    omega
  · rwa [hparticipants]
  · rw [hpoints]
    exact hdealt.nodup_domainPoints hkeyShares (by rwa [List.map_map])
  · intro d hd
    obtain ⟨h, hh, hcreated⟩ := Outcome.mem_of_mapM hshares hd
    rw [(hseat h hh d hcreated).2, ← (hdealt.share_eq (hmem h hh)).2]
    exact Ciphertext.lift_of_shareOf hu (Ciphertext.v_eq_of_checkValidity hvalid hu)
      (Ciphertext.createShare_eq_ok.mp hcreated).2

/-- Encryption to a dealt public key succeeds unless the payload is too long or its hash is the
identity.  The ciphertext is valid, every quorum arrives at the one secret, whoever is in it and
whichever variants its members choose, and that secret opens the payload. -/
theorem PayloadCipher.decrypt_of_quorum (hdealt : Dealt parameters dealing)
    (hsecret : dealing.polynomial.constant ≠ 0) (hρ : e.nonzeroScalar? = some (ρ, rest)) :
    (Sealed.fits plaintext.length →
      (∃ ciphertext : Ciphertext G1 G2,
        (cipher.encrypt dealing.vector.publicKey plaintext aad e).result =
          .ok (ciphertext, rest)) ∨
      (∃ message : Bytes, (Pairing.hashToCurve G1 message authenticationTag : G2) = 0) ∧
        (cipher.encrypt dealing.vector.publicKey plaintext aad e :
          Attempt (Ciphertext G1 G2 × Entropy)).result =
            .error (.error (.primitive .hashedToIdentity))) ∧
    ∀ ciphertext : Ciphertext G1 G2,
      (cipher.encrypt dealing.vector.publicKey plaintext aad e).result = .ok (ciphertext, rest) →
      (ciphertext.checkValidity aad).result = .ok () ∧
      ∀ holders : List (KeyShare × ShareVariant), (∀ h ∈ holders, h.1 ∈ dealing.shares) →
        (holders.map (·.1.participant)).Nodup → parameters.threshold ≤ holders.length →
        (∀ h ∈ holders, h.2 = .simple →
          h.1.value ≠ 0 ∧ EqualityProof.nonce h.1 ciphertext.context ≠ 0) →
        ∃ shares : List (DecryptionShare G2 T),
          (holders.mapM fun h => ciphertext.createShare aad h.1 h.2).result = .ok shares ∧
          (SharedSecret.combine G1 shares parameters.threshold).result =
            .ok ⟨pair (generator : G1) (generator : G2) ^ (ρ * dealing.polynomial.constant)⟩ ∧
          (cipher.decrypt ciphertext aad
            ⟨pair (generator : G1) (generator : G2) ^ (ρ * dealing.polynomial.constant)⟩).result =
              .ok plaintext := by
  have hkey : dealing.vector.publicKey = dealing.polynomial.constant • (generator : G1) :=
    hdealt.commitsTo.publicKey
  have hkeyNe : dealing.vector.publicKey ≠ 0 := by
    rw [hkey]
    exact smul_ne_zero hsecret LawfulCurveGroup.generator_ne_zero
  refine ⟨fun hfits => encrypt_ok hkeyNe hfits hρ, ?_⟩
  intro ciphertext hencrypt
  have hvalid := checkValidity_of_encrypt hencrypt
  have hu := (header_of_encrypt hencrypt hρ).1
  have hopen := decrypt_of_encrypt hencrypt hρ
  rw [hkey, ← mul_smul, LawfulPairing.pair_smul_left] at hopen
  refine ⟨hvalid, fun holders hmem hnodup henough hsimple => ?_⟩
  obtain ⟨shares, hshares, hcombine⟩ := hdealt.combine_createShare hvalid hu
    (Entropy.ne_zero_of_nonzeroScalar? hρ) hmem hnodup henough hsimple
  exact ⟨shares, hshares, hcombine, hopen⟩

/-- Two of three participants, each with another variant, where the secret is five and the
exponent seven. -/
theorem PayloadCipher.decrypt_of_two_of_three :
    ∃ (ciphertext : Ciphertext LogPoint LogPoint) (rest : Entropy)
      (shares : List (DecryptionShare LogPoint LogTarget)),
      (standard.encrypt LogPoint.dealing.vector.publicKey [1, 2, 3] [9]
        (.ofList [7, 0, 0, 0])).result = .ok (ciphertext, rest) ∧
      ([(⟨1, 2, 11⟩, .simple), (⟨0, 1, 8⟩, .fast)].mapM fun h : KeyShare × ShareVariant =>
        ciphertext.createShare [9] h.1 h.2).result = .ok shares ∧
      (SharedSecret.combine LogPoint shares 2).result = .ok ⟨⟨35⟩⟩ ∧
      (standard.decrypt ciphertext [9] (⟨⟨35⟩⟩ : SharedSecret LogTarget)).result =
        .ok [1, 2, 3] := by
  have hseven : ∃ rest, (Entropy.ofList [7, 0, 0, 0]).nonzeroScalar? = some (7, rest) := ⟨_, rfl⟩
  obtain ⟨rest, hseven⟩ := hseven
  have hencrypt : ∃ made : Ciphertext LogPoint LogPoint,
      (standard.encrypt LogPoint.dealing.vector.publicKey [1, 2, 3] [9]
        (.ofList [7, 0, 0, 0])).result = .ok (made, rest) := by
    refine ((decrypt_of_quorum LogPoint.dealt_dealing (by decide) hseven).1 ?_).resolve_right ?_
    · decide
    · intro hfails
      obtain ⟨⟨message, hzero⟩, -⟩ := hfails
      exact LogPoint.hashToCurve_ne_zero message _ hzero
  obtain ⟨ciphertext, hencrypt⟩ := hencrypt
  -- The nonce hashes the context only, which the drawn exponent determines.
  have hcontext : ciphertext.context = contextBytes (⟨7⟩ : LogPoint) (⟨7⟩ : LogPoint) := by
    obtain ⟨hu, hv⟩ := header_of_encrypt hencrypt hseven
    rw [Ciphertext.context, hu, hv]
    rfl
  obtain ⟨-, hquorum⟩ :=
    (decrypt_of_quorum LogPoint.dealt_dealing (by decide) hseven).2 ciphertext hencrypt
  obtain ⟨shares, hshares, hcombine, hdecrypt⟩ := hquorum
    [(⟨1, 2, 11⟩, .simple), (⟨0, 1, 8⟩, .fast)] (by decide) (by decide) (by decide)
    (by rw [hcontext]; decide +kernel)
  have hsecret : pair (generator : LogPoint) (generator : LogPoint) ^ (7 * 5 : Scalar) =
    (⟨35⟩ : LogTarget) := by decide
  exact ⟨ciphertext, rest, shares, hencrypt, hshares, hsecret ▸ hcombine, hsecret ▸ hdecrypt⟩

end
end ThresholdCipher
