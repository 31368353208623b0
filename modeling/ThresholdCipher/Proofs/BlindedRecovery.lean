import ThresholdCipher.Proofs.Renewal
import ThresholdCipher.Proofs.TranscriptVerification

/-
Recovery from blinded shares, against any transcripts.

Adding the updates of transcripts works on a share exactly where each transcript has an
update for its participant at its point (`Updates`).  Where all of them also pass with
their root at the point that is recovered, and no share is at that point, the sum of all
the polynomials behind has no more coefficients than there are shares and the old value at
the root.  So recovery succeeds exactly then, and with the share that the plain shares give.
-/

namespace ThresholdCipher

theorem checkParticipant_eq_ok {p : Participant} :
    checkParticipant p = .ok () ↔ p.toNat ≤ maxWord32 := by
  unfold checkParticipant
  split
  next hlarge => exact ⟨fun h => (nomatch h), fun h => absurd hlarge (Nat.not_lt.mpr h)⟩
  next hfits => exact ⟨fun _ => Nat.not_lt.mp hfits, fun _ => rfl⟩

variable {G : Type} {shares : List KeyShare} {share : KeyShare} {transcripts : List (Transcript G)}

/-- The transcript's update for the share's participant is at the share's point. -/
def Transcript.Updates (transcript : Transcript G) (share : KeyShare) : Prop :=
  ∃ update, transcript.update? share.participant = some update ∧
    update.domainPoint = share.domainPoint

namespace KeyShare

theorem exists_applyTranscripts_iff :
    (∃ moved, share.applyTranscripts transcripts = .ok moved) ↔
      ∀ transcript ∈ transcripts, transcript.Updates share := by
  constructor
  · intro h transcript htranscript
    obtain ⟨moved, h⟩ := h
    obtain ⟨updates, hupdates, happlied⟩ := applyTranscripts_eq_ok.mp h
    obtain ⟨update, hmem, hfound⟩ := Outcome.exists_of_mapM hupdates htranscript
    exact ⟨update, Transcript.requireUpdate_eq_ok.mp hfound,
      ((applyUpdates_eq_ok.mp happlied).1 update hmem).2⟩
  · intro h
    have hfound : ∀ transcript ∈ transcripts,
        ∃ update, transcript.requireUpdate share.participant = .ok update := by
      intro transcript htranscript
      obtain ⟨update, hupdate, -⟩ := h transcript htranscript
      exact ⟨update, Transcript.requireUpdate_eq_ok.mpr hupdate⟩
    obtain ⟨updates, hupdates⟩ := Outcome.exists_mapM_eq_ok hfound
    refine ⟨_, applyTranscripts_eq_ok.mpr ⟨updates, hupdates,
      applyUpdates_eq_ok.mpr ⟨?_, rfl⟩⟩⟩
    intro update hmem
    obtain ⟨transcript, htranscript, hrequired⟩ := Outcome.mem_of_mapM hupdates hmem
    have hupdate := Transcript.requireUpdate_eq_ok.mp hrequired
    obtain ⟨found, hsame, hx⟩ := h transcript htranscript
    rw [hupdate, Option.some.injEq] at hsame
    exact ⟨(Transcript.mem_of_update? hupdate).2, hsame ▸ hx⟩

theorem domainPoints_of_applyTranscripts {blinded : List KeyShare}
    (h : shares.mapM (·.applyTranscripts transcripts) = .ok blinded) :
    blinded.map (·.domainPoint) = shares.map (·.domainPoint) := by
  refine Outcome.map_eq_of_mapM h ?_
  intro share _ moved _ happlied
  obtain ⟨updates, -, happlied⟩ := applyTranscripts_eq_ok.mp happlied
  obtain ⟨-, rfl⟩ := applyUpdates_eq_ok.mp happlied
  rfl

variable {f : SharingPolynomial} {p : Participant} {x : Scalar}

/-- Enough values at distinct points recover the value at any other point. -/
theorem recover_values (henough : f.threshold ≤ shares.length)
    (hpoints : (shares.map (·.domainPoint)).Nodup)
    (hvalues : ∀ s ∈ shares, s.value = f.evaluate s.domainPoint) (hp : p.toNat ≤ maxWord32)
    (hfree : ∀ s ∈ shares, s.domainPoint ≠ x) :
    (recover shares f.threshold p x).result = .ok ⟨p, x, f.evaluate x⟩ := by
  refine recover_eq_ok.mpr ⟨⟨f.threshold_pos, henough⟩, checkParticipant_eq_ok.mpr hp, hfree,
    hpoints, ?_⟩
  rw [sum_weight_mul hpoints hvalues henough]

variable [CurveGroup G] [LawfulCurveGroup G]

omit [LawfulCurveGroup G] in
/-- Transcripts that pass and update every share leave a result, of whatever value. -/
theorem exists_recoverBlinded (henough : f.threshold ≤ shares.length)
    (hpoints : (shares.map (·.domainPoint)).Nodup) (hp : p.toNat ≤ maxWord32)
    (hfree : ∀ s ∈ shares, s.domainPoint ≠ x)
    (hverified : ∀ transcript ∈ transcripts,
      (transcript.verifyRoot x f.threshold).result = .ok ())
    (hupdated : ∀ s ∈ shares, ∀ transcript ∈ transcripts, transcript.Updates s) :
    ∃ share, (recoverBlinded shares transcripts f.threshold p x).result = .ok share := by
  obtain ⟨blinded, hblinded⟩ := Outcome.exists_mapM_eq_ok fun s hs =>
    exists_applyTranscripts_iff.mpr (hupdated s hs)
  -- Moved shares keep their points, so nothing else about them matters here.
  have hsame := domainPoints_of_applyTranscripts hblinded
  have hlen : blinded.length = shares.length := Outcome.length_of_mapM hblinded
  refine ⟨_, recoverBlinded_eq_ok.mpr ⟨hverified, blinded, hblinded, recover_eq_ok.mpr
    ⟨⟨f.threshold_pos, hlen ▸ henough⟩, checkParticipant_eq_ok.mpr hp, ?_, hsame ▸ hpoints,
      rfl⟩⟩⟩
  intro s hs hx
  have hmem : x ∈ shares.map (·.domainPoint) := hsame ▸ List.mem_map.mpr ⟨s, hs, hx⟩
  obtain ⟨s₀, hs₀, hx₀⟩ := List.mem_map.mp hmem
  exact hfree s₀ hs₀ hx₀

/-- Recovery through transcripts gives one share, that which the unblinded shares give, and it
succeeds exactly where the point is free, every transcript passes for it, and every transcript
updates every share at the share's own point. -/
theorem recoverBlinded_exact (henough : f.threshold ≤ shares.length)
    (hpoints : (shares.map (·.domainPoint)).Nodup)
    (hvalues : ∀ s ∈ shares, s.value = f.evaluate s.domainPoint) (hp : p.toNat ≤ maxWord32)
    (x : Scalar) (transcripts : List (Transcript G)) :
    (∀ share, (recoverBlinded shares transcripts f.threshold p x).result = .ok share →
      (∀ s ∈ shares, s.domainPoint ≠ x) ∧ share = ⟨p, x, f.evaluate x⟩ ∧
        (recover shares f.threshold p x).result = .ok share) ∧
    ((∃ share, (recoverBlinded shares transcripts f.threshold p x).result = .ok share) ↔
      (∀ s ∈ shares, s.domainPoint ≠ x) ∧
      (∀ transcript ∈ transcripts,
        (transcript.verifyRecovery x f.threshold).result = .ok ()) ∧
      ∀ s ∈ shares, ∀ transcript ∈ transcripts, transcript.Updates s) := by
  constructor
  · intro share h
    obtain ⟨rfl, hfree⟩ := eq_of_recoverBlinded hvalues h
    exact ⟨hfree, rfl, recover_values henough hpoints hvalues hp hfree⟩
  · constructor
    · intro h
      obtain ⟨share, h⟩ := h
      obtain ⟨hverified, blinded, hblinded, -⟩ := recoverBlinded_eq_ok.mp h
      refine ⟨(eq_of_recoverBlinded hvalues h).2, hverified, ?_⟩
      intro s hs
      obtain ⟨moved, -, happlied⟩ := Outcome.exists_of_mapM hblinded hs
      exact exists_applyTranscripts_iff.mp ⟨moved, happlied⟩
    · intro h
      obtain ⟨hfree, hverified, hupdated⟩ := h
      exact exists_recoverBlinded henough hpoints hp hfree hverified hupdated

/-- The third of three shares from the other two, blinded by `x - 3`. -/
theorem recoverBlinded_exact_third :
    (∀ s ∈ ([⟨0, 1, 8⟩, ⟨1, 2, 11⟩] : List KeyShare),
      s.value = SharingPolynomial.evaluate ⟨5, [3]⟩ s.domainPoint) ∧
    (recoverBlinded [⟨0, 1, 8⟩, ⟨1, 2, 11⟩] [Transcript.vanishingAtThree] 2 2 3).result =
      .ok ⟨2, 3, 14⟩ := by
  have hvalues : ∀ s ∈ ([⟨0, 1, 8⟩, ⟨1, 2, 11⟩] : List KeyShare),
      s.value = SharingPolynomial.evaluate ⟨5, [3]⟩ s.domainPoint := by decide
  have hupdated : ∀ s ∈ ([⟨0, 1, 8⟩, ⟨1, 2, 11⟩] : List KeyShare),
      ∀ transcript ∈ [Transcript.vanishingAtThree], transcript.Updates s := by
    intro s hs transcript htranscript
    rw [List.mem_singleton.mp htranscript]
    rcases List.mem_pair.mp hs with rfl | rfl
    · exact ⟨⟨0, 1, -2, ⟨-2⟩⟩, by decide, rfl⟩
    · exact ⟨⟨1, 2, -1, ⟨-1⟩⟩, by decide, rfl⟩
  obtain ⟨hvalue, hsucceeds⟩ := recoverBlinded_exact (f := ⟨5, [3]⟩) (p := 2) (by decide)
    (by decide) hvalues (by decide) 3 [Transcript.vanishingAtThree]
  obtain ⟨share, hshare⟩ := hsucceeds.mpr ⟨by decide, by decide, hupdated⟩
  obtain ⟨-, rfl, -⟩ := hvalue share hshare
  exact ⟨hvalues, hshare⟩

end KeyShare
end ThresholdCipher
