import ThresholdCipher.Proofs.Commitments

/-
What a dealing hands out.

`Dealt` collects the dealers.  Whichever of them made a dealing, its shares are the
values of its polynomial at the points of distinct participants, the polynomial has
as many coefficients as the threshold, and the vector commits to it and accepts
every share.
-/

namespace ThresholdCipher

namespace Parameters

theorem validate_eq_ok {p : Parameters} :
    p.validate = .ok () ↔
      p.backend.isBuilt ∧ 0 < p.threshold ∧ p.threshold ≤ p.parties ∧ p.parties ≤ maxWord32 := by
  unfold validate
  by_cases hbuilt : p.backend.isBuilt
  · rw [if_neg (not_not.mpr hbuilt)]
    by_cases hnone : p.parties = 0
    · rw [if_pos hnone]
      exact ⟨fun h => (nomatch h), fun h => by omega⟩
    · rw [if_neg hnone]
      by_cases hrange : p.threshold = 0 ∨ p.parties < p.threshold
      · rw [if_pos hrange]
        exact ⟨fun h => (nomatch h), fun h => by omega⟩
      · rw [if_neg hrange]
        by_cases hmany : maxWord32 < p.parties
        · rw [if_pos hmany]
          exact ⟨fun h => (nomatch h), fun h => by omega⟩
        · rw [if_neg hmany]
          exact ⟨fun _ => ⟨hbuilt, by omega, by omega, by omega⟩, fun _ => rfl⟩
  · rw [if_pos hbuilt]
    exact ⟨fun h => (nomatch h), fun h => absurd h.1 hbuilt⟩

theorem nodup_participants {p : Parameters} (h : p.parties ≤ maxWord32) : p.participants.Nodup := by
  refine List.Nodup.map_on ?_ List.nodup_range
  intro i hi j hj heq
  have hmax : maxWord32 < 2 ^ 64 := by decide
  have hval := congrArg UInt64.toNat heq
  rw [UInt64.toNat_ofNat', UInt64.toNat_ofNat', Nat.mod_eq_of_lt, Nat.mod_eq_of_lt] at hval
  · exact hval
  · have := List.mem_range.mp hj
    omega
  · have := List.mem_range.mp hi
    omega

end Parameters

theorem requireEnough_eq_ok {threshold provided : Nat} :
    requireEnough threshold provided = .ok () ↔ 0 < threshold ∧ threshold ≤ provided := by
  unfold requireEnough
  split
  next hzero => simp [hzero]
  next hzero =>
    split
    next hfew =>
      constructor
      · intro h
        cases h
      · intro h
        omega
    next => exact ⟨fun _ => by omega, fun _ => rfl⟩

variable {G : Type} [CurveGroup G]

namespace Dealing

variable {parameters : Parameters} {strategy : DealerStrategy G} {e rest : Entropy}
  {dealing : Dealing G}

/-- The public key and each entry are the commitments to the secret and to the share's value. -/
theorem vector_ofPolynomial (parameters : Parameters) (f : SharingPolynomial)
    (strategy : DealerStrategy G) :
    (ofPolynomial parameters f strategy).vector =
      { publicKey := strategy.commit f.constant
        entries := (ofPolynomial parameters f strategy).shares.map fun s =>
          ⟨s.participant, s.domainPoint, strategy.commit s.value⟩ } := by
  simp only [ofPolynomial, DealerStrategy.commitMany_eq_map, List.map_cons, List.head_cons,
    List.tail_cons, List.map_map, List.zipWith_map, List.zipWith_self, Function.comp_def]

/-- What the dealers have in common: once the parameters pass, they draw a polynomial and
hand out one that they make of it. -/
theorem drawn_eq_ok (made : SharingPolynomial → SharingPolynomial) :
    (do
      Attempt.orRefuse parameters.validate
      let (f, e) ← Attempt.drawn (SharingPolynomial.sample? parameters.threshold e)
      let dealing ← recorded parameters (ofPolynomial parameters (made f) strategy)
      return (dealing, e) : Attempt (Dealing G × Entropy)).result = .ok (dealing, rest) ↔
      parameters.validate = .ok () ∧
        ∃ f, SharingPolynomial.sample? parameters.threshold e = some (f, rest) ∧
          ofPolynomial parameters (made f) strategy = dealing := by
  rw [Attempt.result_check_bind_eq_ok, Attempt.result_orRefuse_eq_ok, Attempt.result_bind_eq_ok]
  refine and_congr_right fun _ => ?_
  constructor
  · intro h
    obtain ⟨⟨f, e₁⟩, hf, h⟩ := h
    rw [Attempt.result_drawn_eq_ok] at hf
    cases h
    exact ⟨f, hf, rfl⟩
  · intro h
    obtain ⟨f, hf, rfl⟩ := h
    exact ⟨(f, rest), Attempt.result_drawn_eq_ok.mpr hf, rfl⟩

theorem deal_eq_ok :
    (deal parameters strategy e).result = .ok (dealing, rest) ↔
      parameters.validate = .ok () ∧
        ∃ f, SharingPolynomial.sample? parameters.threshold e = some (f, rest) ∧
          ofPolynomial parameters f strategy = dealing := by
  rw [deal, Attempt.result_liftM_bind]
  exact drawn_eq_ok id

theorem dealForScheme_eq_ok :
    (dealForScheme parameters strategy e).result = .ok (dealing, rest) ↔
      (deal parameters strategy e).result = .ok (dealing, rest) := by
  rw [dealForScheme, Attempt.result_liftM_bind]

theorem dealSecret_eq_ok {secret : Scalar} :
    (dealSecret parameters secret strategy e).result = .ok (dealing, rest) ↔
      parameters.validate = .ok () ∧
        ∃ f, SharingPolynomial.sample? parameters.threshold e = some (f, rest) ∧
          ofPolynomial parameters (f.withConstant secret) strategy = dealing := by
  rw [dealSecret, Attempt.result_liftM_bind]
  exact drawn_eq_ok (·.withConstant secret)

end Dealing

/-- A dealing made by one of the dealers. -/
inductive Dealt (parameters : Parameters) : Dealing G → Prop
  | random {strategy : DealerStrategy G} {e rest : Entropy} {dealing : Dealing G}
      (hs : strategy.Standard)
      (h : (Dealing.deal parameters strategy e).result = .ok (dealing, rest)) :
      Dealt parameters dealing
  | scheme {strategy : DealerStrategy G} {e rest : Entropy} {dealing : Dealing G}
      (hs : strategy.Standard)
      (h : (Dealing.dealForScheme parameters strategy e).result = .ok (dealing, rest)) :
      Dealt parameters dealing
  | chosen {secret : Scalar} {strategy : DealerStrategy G} {e rest : Entropy} {dealing : Dealing G}
      (hs : strategy.Standard)
      (h : (Dealing.dealSecret parameters secret strategy e).result = .ok (dealing, rest)) :
      Dealt parameters dealing

namespace Dealt

variable {parameters : Parameters} {dealing : Dealing G}

/-- Every dealer hands out a polynomial with as many coefficients as the threshold. -/
theorem eq_ofPolynomial (hdealt : Dealt parameters dealing) :
    ∃ (f : SharingPolynomial) (strategy : DealerStrategy G), strategy.Standard ∧
      parameters.validate = .ok () ∧ f.threshold = parameters.threshold ∧
      dealing = Dealing.ofPolynomial parameters f strategy := by
  have hpos : parameters.validate = .ok () → 0 < parameters.threshold :=
    fun h => (Parameters.validate_eq_ok.mp h).2.1
  cases hdealt with
  | random hs h =>
    obtain ⟨hvalid, f, hf, rfl⟩ := Dealing.deal_eq_ok.mp h
    exact ⟨f, _, hs, hvalid, SharingPolynomial.threshold_of_sample (hpos hvalid) hf, rfl⟩
  | scheme hs h =>
    obtain ⟨hvalid, f, hf, rfl⟩ := Dealing.deal_eq_ok.mp (Dealing.dealForScheme_eq_ok.mp h)
    exact ⟨f, _, hs, hvalid, SharingPolynomial.threshold_of_sample (hpos hvalid) hf, rfl⟩
  | @chosen secret _ _ _ _ hs h =>
    obtain ⟨hvalid, f, hf, rfl⟩ := Dealing.dealSecret_eq_ok.mp h
    refine ⟨f.withConstant secret, _, hs, hvalid, ?_, rfl⟩
    rw [SharingPolynomial.threshold_withConstant]
    exact SharingPolynomial.threshold_of_sample (hpos hvalid) hf

theorem validate (hdealt : Dealt parameters dealing) : parameters.validate = .ok () := by
  obtain ⟨_, _, -, hvalid, -, -⟩ := hdealt.eq_ofPolynomial
  exact hvalid

theorem threshold_polynomial (hdealt : Dealt parameters dealing) :
    dealing.polynomial.threshold = parameters.threshold := by
  obtain ⟨f, strategy, -, -, hf, rfl⟩ := hdealt.eq_ofPolynomial
  exact hf

theorem shares_eq (hdealt : Dealt parameters dealing) :
    dealing.shares = parameters.participants.map fun p =>
      ⟨p, Scalar.domainPoint p, dealing.polynomial.evaluate (Scalar.domainPoint p)⟩ := by
  obtain ⟨f, strategy, -, -, -, rfl⟩ := hdealt.eq_ofPolynomial
  rfl

theorem length_shares (hdealt : Dealt parameters dealing) :
    dealing.shares.length = parameters.parties := by
  rw [hdealt.shares_eq, Parameters.participants, List.length_map, List.length_map,
    List.length_range]

theorem participants_shares (hdealt : Dealt parameters dealing) :
    dealing.shares.map (·.participant) = parameters.participants := by
  rw [hdealt.shares_eq, List.map_map]
  exact List.map_id _

theorem nodup_participants (hdealt : Dealt parameters dealing) :
    (dealing.shares.map (·.participant)).Nodup := by
  rw [hdealt.participants_shares]
  exact Parameters.nodup_participants (Parameters.validate_eq_ok.mp hdealt.validate).2.2.2

/-- Each share has its entry, at the same place. -/
theorem participants_entries (hdealt : Dealt parameters dealing) :
    dealing.vector.entries.map (·.participant) = parameters.participants := by
  rw [← hdealt.participants_shares]
  obtain ⟨f, strategy, -, -, -, rfl⟩ := hdealt.eq_ofPolynomial
  rw [Dealing.vector_ofPolynomial]
  exact List.map_map

theorem nodup_entries (hdealt : Dealt parameters dealing) :
    (dealing.vector.entries.map (·.participant)).Nodup := by
  rw [hdealt.participants_entries, ← hdealt.participants_shares]
  exact hdealt.nodup_participants

theorem share_eq (hdealt : Dealt parameters dealing) {share : KeyShare}
    (hshare : share ∈ dealing.shares) :
    share.domainPoint = Scalar.domainPoint share.participant ∧
      share.value = dealing.polynomial.evaluate share.domainPoint := by
  rw [hdealt.shares_eq] at hshare
  obtain ⟨p, -, rfl⟩ := List.mem_map.mp hshare
  exact ⟨rfl, rfl⟩

theorem nodup_domainPoints (hdealt : Dealt parameters dealing) {shares : List KeyShare}
    (hmem : ∀ share ∈ shares, share ∈ dealing.shares)
    (hnodup : (shares.map (·.participant)).Nodup) : (shares.map (·.domainPoint)).Nodup := by
  have hpoints : shares.map (·.domainPoint) =
      (shares.map (·.participant)).map Scalar.domainPoint := by
    rw [List.map_map]
    exact List.map_congr_left fun share hshare => (hdealt.share_eq (hmem share hshare)).1
  rw [hpoints]
  exact hnodup.map Scalar.domainPoint_injective

variable [LawfulCurveGroup G]

theorem entries_eq (hdealt : Dealt parameters dealing) :
    dealing.vector.entries = dealing.shares.map fun share =>
      ⟨share.participant, share.domainPoint, share.value • generator⟩ := by
  obtain ⟨f, strategy, hs, -, -, rfl⟩ := hdealt.eq_ofPolynomial
  rw [Dealing.vector_ofPolynomial]
  exact List.map_congr_left fun share _ => by rw [DealerStrategy.commit_eq hs]

/-- The vector commits to the polynomial, whatever the strategy. -/
theorem commitsTo (hdealt : Dealt parameters dealing) :
    dealing.vector.CommitsTo dealing.polynomial := by
  constructor
  · obtain ⟨f, strategy, hs, -, -, rfl⟩ := hdealt.eq_ofPolynomial
    rw [Dealing.vector_ofPolynomial]
    exact DealerStrategy.commit_eq hs f.constant
  · intro entry hentry
    rw [hdealt.entries_eq] at hentry
    obtain ⟨share, hshare, rfl⟩ := List.mem_map.mp hentry
    rw [(hdealt.share_eq hshare).2]

theorem length_entries (hdealt : Dealt parameters dealing) :
    dealing.vector.entries.length = parameters.parties := by
  rw [hdealt.entries_eq, List.length_map, hdealt.length_shares]

theorem verifyShare_eq_true (hdealt : Dealt parameters dealing) {share : KeyShare}
    (hshare : share ∈ dealing.shares) : (dealing.vector.verifyShare share).value = true := by
  have hentry : (⟨share.participant, share.domainPoint, share.value • generator⟩ :
      ShareCommitment G) ∈ dealing.vector.entries := by
    rw [hdealt.entries_eq]
    exact List.mem_map_of_mem hshare
  exact VerificationVector.verifyShare_eq_true.mpr
    ⟨_, VerificationVector.entry?_of_mem hdealt.nodup_entries hentry, rfl, rfl⟩

end Dealt

/-! ## A small dealing -/

/-- Shares of five among three participants, any two of whom determine it. -/
def LogPoint.dealing : Dealing LogPoint := .ofPolynomial ⟨3, 2, .blst⟩ ⟨5, [3]⟩ .simple

theorem LogPoint.dealt_dealing : Dealt ⟨3, 2, .blst⟩ LogPoint.dealing := by
  have hdraw : ∃ rest, SharingPolynomial.sample? 2 (.ofList [5, 0, 0, 0, 3, 0, 0, 0]) =
    some (⟨5, [3]⟩, rest) := ⟨_, rfl⟩
  obtain ⟨rest, hdraw⟩ := hdraw
  exact .random (.inl rfl) (Dealing.deal_eq_ok.mpr ⟨by decide, _, hdraw, rfl⟩)

end ThresholdCipher
