import ThresholdCipher.Proofs.LifeCycle

/-
The outcome of dealing.

Both dealers check the parameters, draw the polynomial and hand out its values, so they succeed
where the parameters pass and the random words last for as many scalars as the threshold.
`Correct` says position by position what they hand out then, for either strategy: participant
`i` is at `i + 1`, with the value there as its share and the commitment to it in the vector.
-/

namespace ThresholdCipher

theorem Scalar.domainPoint_ofNat {i : Nat} (hi : i < 2 ^ 64) :
    domainPoint (UInt64.ofNat i) = ofNat (i + 1) := by
  rw [domainPoint, UInt64.toNat_ofNat', Nat.mod_eq_of_lt hi]

/-- A polynomial is sampled where its coefficients can be drawn. -/
theorem SharingPolynomial.exists_sample_iff {t : Nat} (ht : 0 < t) {e : Entropy} :
    (∃ f rest, sample? t e = some (f, rest)) ↔ ∃ cs rest, e.scalars? t = some (cs, rest) := by
  rw [sample?, Nat.max_eq_left ht]
  constructor
  · intro h
    obtain ⟨f, rest, h⟩ := h
    obtain ⟨⟨cs, rest'⟩, hdrawn, -⟩ := Option.map_eq_some_iff.mp h
    exact ⟨cs, rest', hdrawn⟩
  · intro h
    obtain ⟨cs, rest, h⟩ := h
    exact ⟨ofCoefficients cs, rest, by rw [h, Option.map_some]⟩

variable {G : Type} [CurveGroup G]

/-- Participant `i` has the value at `i + 1`, and the vector its commitment there; shares are
accepted, and as many as the threshold determine the constant term. -/
structure Dealing.Correct (parameters : Parameters) (dealing : Dealing G) : Prop where
  threshold : dealing.polynomial.threshold = parameters.threshold
  shareCount : dealing.shares.length = parameters.parties
  share : ∀ i < parameters.parties, dealing.shares[i]? = some ⟨UInt64.ofNat i,
    Scalar.ofNat (i + 1), dealing.polynomial.evaluate (Scalar.ofNat (i + 1))⟩
  entryCount : dealing.vector.entries.length = parameters.parties
  entry : ∀ i < parameters.parties, dealing.vector.entries[i]? = some ⟨UInt64.ofNat i,
    Scalar.ofNat (i + 1), dealing.polynomial.evaluate (Scalar.ofNat (i + 1)) • generator⟩
  publicKey : dealing.vector.publicKey = dealing.polynomial.evaluate 0 • generator
  pointsNodup : (dealing.shares.map (·.domainPoint)).Nodup
  points_ne_zero : ∀ share ∈ dealing.shares, share.domainPoint ≠ 0
  accepted : ∀ share ∈ dealing.shares, (dealing.vector.verifyShare share).value = true
  determined : ∀ quorum : List KeyShare, (∀ share ∈ quorum, share ∈ dealing.shares) →
    (quorum.map (·.participant)).Nodup → parameters.threshold ≤ quorum.length →
    (reconstructSecret quorum parameters.threshold).result = .ok (dealing.polynomial.evaluate 0)

namespace Dealt

variable {parameters : Parameters} {dealing : Dealing G}

theorem getElem?_shares (hdealt : Dealt parameters dealing) {i : Nat}
    (hi : i < parameters.parties) :
    dealing.shares[i]? = some ⟨UInt64.ofNat i, Scalar.ofNat (i + 1),
      dealing.polynomial.evaluate (Scalar.ofNat (i + 1))⟩ := by
  have hword : i < 2 ^ 64 := by
    have hmany := (Parameters.validate_eq_ok.mp hdealt.validate).2.2.2
    have hmax : maxWord32 < 2 ^ 64 := by decide
    omega
  rw [hdealt.shares_eq, Parameters.participants, List.map_map, List.getElem?_map,
    List.getElem?_range hi, Option.map_some, Function.comp_apply, Scalar.domainPoint_ofNat hword]

variable [LawfulCurveGroup G]

theorem correct (hdealt : Dealt parameters dealing) : dealing.Correct parameters where
  threshold := hdealt.threshold_polynomial
  shareCount := hdealt.length_shares
  share i hi := hdealt.getElem?_shares hi
  entryCount := hdealt.length_entries
  entry i hi := by
    rw [hdealt.entries_eq, List.getElem?_map, hdealt.getElem?_shares hi, Option.map_some]
  publicKey := by
    rw [SharingPolynomial.evaluate_zero]
    exact hdealt.commitsTo.publicKey
  pointsNodup := hdealt.nodup_domainPoints (fun _ h => h) hdealt.nodup_participants
  points_ne_zero share hshare := by
    rw [(hdealt.share_eq hshare).1]
    exact Scalar.domainPoint_ne_zero share.participant
  accepted share hshare := hdealt.verifyShare_eq_true hshare
  determined quorum hquorum hnodup henough := by
    rw [← hdealt.threshold_polynomial] at henough ⊢
    rw [SharingPolynomial.evaluate_zero]
    exact (KeyState.Sound.ofDealt hdealt).reconstructSecret hquorum hnodup henough

end Dealt

namespace Dealing

variable {parameters : Parameters} {strategy : DealerStrategy G} {e : Entropy}

/-- Parameters that fail leave nothing else to happen. -/
theorem result_deal_of_invalid {cause : Error} (h : parameters.validate = .error cause) :
    (deal parameters strategy e).result = .error (.error cause) := by
  rw [deal, Attempt.result_liftM_bind, Attempt.result_bind, Attempt.result_orRefuse, h]
  rfl

theorem result_dealSecret_of_invalid {cause : Error} (h : parameters.validate = .error cause)
    (secret : Scalar) :
    (dealSecret parameters secret strategy e).result = .error (.error cause) := by
  rw [dealSecret, Attempt.result_liftM_bind, Attempt.result_bind, Attempt.result_orRefuse, h]
  rfl

/-- What is drawn does not depend on what the dealer makes of it. -/
theorem exists_drawn_iff (made : SharingPolynomial → SharingPolynomial) :
    (∃ (dealing : Dealing G) (rest : Entropy), parameters.validate = .ok () ∧
      ∃ f, SharingPolynomial.sample? parameters.threshold e = some (f, rest) ∧
        ofPolynomial parameters (made f) strategy = dealing) ↔
      parameters.validate = .ok () ∧
        ∃ cs rest, e.scalars? parameters.threshold = some (cs, rest) := by
  constructor
  · intro h
    obtain ⟨-, rest, hvalid, f, hf, -⟩ := h
    have hpos := (Parameters.validate_eq_ok.mp hvalid).2.1
    exact ⟨hvalid, (SharingPolynomial.exists_sample_iff hpos).mp ⟨f, rest, hf⟩⟩
  · intro h
    obtain ⟨hvalid, hdrawn⟩ := h
    have hpos := (Parameters.validate_eq_ok.mp hvalid).2.1
    obtain ⟨f, rest, hf⟩ := (SharingPolynomial.exists_sample_iff hpos).mpr hdrawn
    exact ⟨_, rest, hvalid, f, hf, rfl⟩

/-- Both dealers refuse parameters that do not pass, as the check does.  For all others they
succeed as long as the random words last, and what they hand out is correct, with the given
secret as the constant term where there is one. -/
theorem deal_outcome [LawfulCurveGroup G] (hs : strategy.Standard) (parameters : Parameters)
    (e : Entropy) :
    (parameters.validate = .ok () ↔ parameters.backend.isBuilt ∧ 0 < parameters.threshold ∧
      parameters.threshold ≤ parameters.parties ∧ parameters.parties ≤ maxWord32) ∧
    (∀ cause, parameters.validate = .error cause →
      (deal parameters strategy e).result = .error (.error cause) ∧
      ∀ secret, (dealSecret parameters secret strategy e).result = .error (.error cause)) ∧
    ((∃ dealing rest, (deal parameters strategy e).result = .ok (dealing, rest)) ↔
      parameters.validate = .ok () ∧
        ∃ cs rest, e.scalars? parameters.threshold = some (cs, rest)) ∧
    (∀ secret,
      (∃ dealing rest, (dealSecret parameters secret strategy e).result = .ok (dealing, rest)) ↔
        parameters.validate = .ok () ∧
          ∃ cs rest, e.scalars? parameters.threshold = some (cs, rest)) ∧
    (∀ dealing rest, (deal parameters strategy e).result = .ok (dealing, rest) →
      dealing.Correct parameters) ∧
    ∀ secret dealing rest,
      (dealSecret parameters secret strategy e).result = .ok (dealing, rest) →
        dealing.Correct parameters ∧ dealing.polynomial.constant = secret := by
  refine ⟨Parameters.validate_eq_ok, ?_, ?_, ?_, ?_, ?_⟩
  · intro cause h
    exact ⟨result_deal_of_invalid h, result_dealSecret_of_invalid h⟩
  · simp only [deal_eq_ok]
    exact exists_drawn_iff id
  · intro secret
    simp only [dealSecret_eq_ok]
    exact exists_drawn_iff (·.withConstant secret)
  · intro dealing rest h
    exact (Dealt.random hs h).correct
  · intro secret dealing rest h
    refine ⟨(Dealt.chosen hs h).correct, ?_⟩
    obtain ⟨-, f, -, rfl⟩ := dealSecret_eq_ok.mp h
    rfl

/-- Three participants, two of whom determine the secret, which is drawn or given. -/
theorem deal_outcome_two_of_three :
    (∃ (dealing : Dealing LogPoint) (rest : Entropy),
      (deal ⟨3, 2, .blst⟩ .tabled (.ofList [5, 0, 0, 0, 3, 0, 0, 0])).result =
        .ok (dealing, rest) ∧ dealing.Correct ⟨3, 2, .blst⟩) ∧
    (∃ (dealing : Dealing LogPoint) (rest : Entropy),
      (dealSecret ⟨3, 2, .blst⟩ 9 .simple (.ofList [5, 0, 0, 0, 3, 0, 0, 0])).result =
        .ok (dealing, rest) ∧ dealing.Correct ⟨3, 2, .blst⟩ ∧
        dealing.polynomial.constant = 9) ∧
    (deal ⟨3, 4, .blst⟩ (.simple : DealerStrategy LogPoint) (.ofList [])).result =
      .error (.error (.invalidParameters (.thresholdOutOfRange 4 3))) := by
  have hdrawn : ∃ cs rest, (Entropy.ofList [5, 0, 0, 0, 3, 0, 0, 0]).scalars? 2 =
    some (cs, rest) := ⟨[5, 3], _, rfl⟩
  obtain ⟨-, -, hdeal, -, hdealt, -⟩ := deal_outcome (G := LogPoint) (.inr rfl) ⟨3, 2, .blst⟩
    (.ofList [5, 0, 0, 0, 3, 0, 0, 0])
  obtain ⟨-, -, -, hgiven, -, hchosen⟩ := deal_outcome (G := LogPoint) (.inl rfl) ⟨3, 2, .blst⟩
    (.ofList [5, 0, 0, 0, 3, 0, 0, 0])
  obtain ⟨dealing, rest, h⟩ := hdeal.mpr ⟨by decide, hdrawn⟩
  obtain ⟨dealing', rest', h'⟩ := (hgiven 9).mpr ⟨by decide, hdrawn⟩
  refine ⟨⟨dealing, rest, h, hdealt dealing rest h⟩,
    ⟨dealing', rest', h', hchosen 9 dealing' rest' h'⟩, ?_⟩
  obtain ⟨-, hinvalid, -⟩ := deal_outcome (G := LogPoint) (.inl rfl) ⟨3, 4, .blst⟩ (.ofList [])
  exact (hinvalid _ (by decide)).1

end Dealing
end ThresholdCipher
