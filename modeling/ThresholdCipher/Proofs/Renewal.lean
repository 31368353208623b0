import ThresholdCipher.Proofs.Dealing
import ThresholdCipher.Proofs.Transcripts

/-
What reconstruction, recovery and refreshing do to values of one polynomial.

Enough values interpolate to the constant term at zero and to a lost share at its
point; blinding by recovery transcripts with their root there changes nothing.  A
refresh draws its transcript over the vector's own seats, so the transcript
addresses the vector, and shares and commitments move together.
-/

namespace ThresholdCipher

def KeyShare.seat (share : KeyShare) : Seat := ⟨share.participant, share.domainPoint⟩

section

variable {shares : List KeyShare} {threshold : Nat} {p : Participant} {x : Scalar}
  {share : KeyShare} {f : SharingPolynomial}

theorem reconstructSecret_eq_ok {secret : Scalar} :
    (reconstructSecret shares threshold).result = .ok secret ↔
      (0 < threshold ∧ threshold ≤ shares.length) ∧ shares ≠ [] ∧
        (shares.map (·.domainPoint)).Nodup ∧
        (shares.map fun s => Interpolation.weight (shares.map (·.domainPoint)) 0 s.domainPoint *
          s.value).sum = secret := by
  rw [reconstructSecret, Attempt.result_check_bind_eq_ok, Attempt.result_orRefuse_eq_ok,
    requireEnough_eq_ok, Interpolation.scalar_eq_ok]

theorem KeyShare.sum_weight_mul (hpoints : (shares.map (·.domainPoint)).Nodup)
    (hvalues : ∀ share ∈ shares, share.value = f.evaluate share.domainPoint)
    (hf : f.threshold ≤ shares.length) :
    (shares.map fun s => Interpolation.weight (shares.map (·.domainPoint)) x s.domainPoint *
      s.value).sum = f.evaluate x := by
  rw [← Interpolation.sum_weight_mul hpoints hf x]
  congr 1
  refine List.map_congr_left fun s hs => ?_
  rw [hvalues s hs]

/-- Enough values determine the secret. -/
theorem reconstructSecret_values (henough : f.threshold ≤ shares.length)
    (hpoints : (shares.map (·.domainPoint)).Nodup)
    (hvalues : ∀ share ∈ shares, share.value = f.evaluate share.domainPoint) :
    (reconstructSecret shares f.threshold).result = .ok f.constant := by
  have hpos := f.threshold_pos
  have hne : shares ≠ [] := by
    intro h
    rw [h, List.length_nil] at henough
    omega
  refine reconstructSecret_eq_ok.mpr ⟨⟨hpos, henough⟩, hne, hpoints, ?_⟩
  rw [KeyShare.sum_weight_mul hpoints hvalues henough, SharingPolynomial.evaluate_zero]

namespace KeyShare

theorem recover_eq_ok :
    (recover shares threshold p x).result = .ok share ↔
      (0 < threshold ∧ threshold ≤ shares.length) ∧ checkParticipant p = .ok () ∧
        (∀ s ∈ shares, s.domainPoint ≠ x) ∧ (shares.map (·.domainPoint)).Nodup ∧
        ⟨p, x, (shares.map fun s =>
          Interpolation.weight (shares.map (·.domainPoint)) x s.domainPoint * s.value).sum⟩ =
            share := by
  rw [recover, Attempt.result_liftM_bind, Attempt.result_check_bind_eq_ok,
    Attempt.result_check_bind_eq_ok, Attempt.result_orRefuse_eq_ok, Attempt.result_orRefuse_eq_ok,
    requireEnough_eq_ok]
  by_cases htaken : shares.any (·.domainPoint = x)
  · rw [if_pos htaken]
    obtain ⟨s, hs, hx⟩ := List.any_eq_true.mp htaken
    have hx := of_decide_eq_true hx
    constructor
    · intro h
      cases h.2.2
    · intro h
      exact absurd hx (h.2.2.1 s hs)
  · have hfree : ∀ s ∈ shares, s.domainPoint ≠ x := by
      intro s hs hx
      exact htaken (List.any_eq_true.mpr ⟨s, hs, decide_eq_true hx⟩)
    rw [if_neg htaken, Attempt.result_bind_eq_ok]
    simp only [Interpolation.scalar_eq_ok, Attempt.result_pure, Except.ok.injEq]
    constructor
    · intro h
      obtain ⟨henough, hp, _, ⟨-, hnodup, rfl⟩, h⟩ := h
      exact ⟨henough, hp, hfree, hnodup, h⟩
    · intro h
      obtain ⟨henough, hp, -, hnodup, h⟩ := h
      have hne : shares ≠ [] := by
        intro hnil
        rw [hnil, List.length_nil] at henough
        omega
      exact ⟨henough, hp, _, ⟨hne, hnodup, rfl⟩, h⟩

/-- A share recovered from values is the value at its point, which was nobody's. -/
theorem eq_of_recover (hvalues : ∀ s ∈ shares, s.value = f.evaluate s.domainPoint)
    (h : (recover shares f.threshold p x).result = .ok share) :
    share = ⟨p, x, f.evaluate x⟩ ∧ ∀ s ∈ shares, s.domainPoint ≠ x := by
  obtain ⟨henough, -, hfree, hnodup, rfl⟩ := recover_eq_ok.mp h
  rw [sum_weight_mul hnodup hvalues henough.2]
  exact ⟨rfl, hfree⟩

variable {G : Type} [CurveGroup G] {transcripts : List (Transcript G)}

theorem recoverBlinded_eq_ok :
    (recoverBlinded shares transcripts threshold p x).result = .ok share ↔
      (∀ transcript ∈ transcripts, (transcript.verifyRoot x threshold).result = .ok ()) ∧
        ∃ blinded, shares.mapM (·.applyTranscripts transcripts) = .ok blinded ∧
          (recover blinded threshold p x).result = .ok share := by
  rw [recoverBlinded, Attempt.result_liftM_bind, Attempt.result_check_bind_eq_ok,
    Attempt.result_forM, Outcome.forM_eq_ok, Attempt.result_bind_eq_ok]
  simp only [Attempt.result_orRefuse_eq_ok]
  rfl

variable [LawfulCurveGroup G]

/-- Adding the updates of verified transcripts moves a value to the sum of the polynomials. -/
theorem value_of_applyTranscripts {root : Scalar} {moved : KeyShare}
    (hverified : ∀ transcript ∈ transcripts,
      (transcript.verifyRoot root f.threshold).result = .ok ())
    (hvalue : share.value = f.evaluate share.domainPoint)
    (h : share.applyTranscripts transcripts = .ok moved) :
    moved.seat = share.seat ∧ moved.value = (f.movedBy transcripts).evaluate moved.domainPoint := by
  obtain ⟨updates, hupdates, happlied⟩ := applyTranscripts_eq_ok.mp h
  obtain ⟨hseats, rfl⟩ := applyUpdates_eq_ok.mp happlied
  refine ⟨rfl, ?_⟩
  rw [SharingPolynomial.evaluate_movedBy hverified, hvalue,
    (Transcript.sum_updates hverified hupdates fun update hu => (hseats update hu).2).1]

/-- Blinding with the root at the point that is recovered does not show in the result. -/
theorem eq_of_recoverBlinded (hvalues : ∀ s ∈ shares, s.value = f.evaluate s.domainPoint)
    (h : (recoverBlinded shares transcripts f.threshold p x).result = .ok share) :
    share = ⟨p, x, f.evaluate x⟩ ∧ ∀ s ∈ shares, s.domainPoint ≠ x := by
  obtain ⟨hverified, blinded, hblinded, hrecover⟩ := recoverBlinded_eq_ok.mp h
  have hblindedValues : ∀ s ∈ blinded,
      s.value = (f.movedBy transcripts).evaluate s.domainPoint := by
    intro s hs
    obtain ⟨s₀, hs₀, happlied⟩ := Outcome.mem_of_mapM hblinded hs
    exact (value_of_applyTranscripts hverified (hvalues s₀ hs₀) happlied).2
  rw [← SharingPolynomial.threshold_movedBy hverified] at hrecover
  obtain ⟨hshare, hfree⟩ := eq_of_recover hblindedValues hrecover
  rw [SharingPolynomial.evaluate_movedBy_root hverified] at hshare
  refine ⟨hshare, ?_⟩
  intro s hs
  obtain ⟨s', hs', happlied⟩ := Outcome.exists_of_mapM hblinded hs
  have hseat := (value_of_applyTranscripts hverified (hvalues s hs) happlied).1
  have hx : s'.domainPoint = s.domainPoint := congrArg Seat.domainPoint hseat
  exact hx ▸ hfree s' hs'

end KeyShare

/-! ## Refreshing -/

/-- Refreshing without commitments adds the values of the drawn polynomial after it is given the
root zero. -/
theorem KeyShare.refreshAll_eq_ok {e rest : Entropy} {refreshed : List KeyShare} :
    (refreshAll shares threshold e).result = .ok (refreshed, rest) ↔
      0 < threshold ∧ ∃ d, SharingPolynomial.sample? threshold e = some (d, rest) ∧
        shares.map (blind (d.withRoot 0)) = refreshed := by
  rw [refreshAll, Attempt.result_liftM_bind]
  exact Transcript.sampled_eq_ok fun d => shares.map (blind (d.withRoot 0))

namespace VerificationVector

variable {G : Type} [CurveGroup G] {vector moved : VerificationVector G}
  {strategy : DealerStrategy G} {e rest : Entropy} {refreshed : List KeyShare}

/-- A refresh applies one verified transcript, drawn over the vector's seats, to both sides. -/
theorem refresh_eq_ok :
    (vector.refresh shares threshold strategy e).result = .ok ((refreshed, moved), rest) ↔
      ∃ transcript, (Transcript.refresh vector.seats threshold strategy e).result =
          .ok (transcript, rest) ∧
        (transcript.verifyRoot 0 threshold).result = .ok () ∧
        shares.mapM (·.applyTranscripts [transcript]) = .ok refreshed ∧
        (vector.applyRefresh [transcript] threshold).result = .ok moved := by
  rw [refresh, Attempt.result_liftM_bind, Attempt.result_bind_eq_ok]
  constructor
  · intro h
    obtain ⟨⟨transcript, rest'⟩, hdrawn, h⟩ := h
    obtain ⟨hverified, h⟩ := Attempt.result_check_bind_eq_ok.mp h
    obtain ⟨shares', hshares, h⟩ := Attempt.result_bind_eq_ok.mp h
    obtain ⟨vector', hvector, h⟩ := Attempt.result_bind_eq_ok.mp h
    rw [Attempt.result_orRefuse_eq_ok] at hshares
    rw [Attempt.result_liftM_bind] at h
    cases h
    exact ⟨transcript, hdrawn, hverified, hshares, hvector⟩
  · intro h
    obtain ⟨transcript, hdrawn, hverified, hshares, hvector⟩ := h
    refine ⟨(transcript, rest), hdrawn, ?_⟩
    refine Attempt.result_check_bind_eq_ok.mpr ⟨hverified, ?_⟩
    refine Attempt.result_bind_eq_ok.mpr
      ⟨refreshed, Attempt.result_orRefuse_eq_ok.mpr hshares, ?_⟩
    exact Attempt.result_bind_eq_ok.mpr ⟨moved, hvector, rfl⟩

theorem addresses_of_refresh {transcript : Transcript G}
    (hnodup : (vector.entries.map (·.participant)).Nodup)
    (h : (Transcript.refresh vector.seats threshold strategy e).result = .ok (transcript, rest)) :
    transcript.Addresses vector := by
  obtain ⟨-, polynomial, -, rfl⟩ := Transcript.sample_eq_ok.mp (Transcript.refresh_eq_ok.mp h)
  exact Transcript.addresses_ofPolynomial hnodup

end VerificationVector

end
end ThresholdCipher
