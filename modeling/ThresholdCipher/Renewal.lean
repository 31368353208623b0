import ThresholdCipher.Update

/-
Renewing shares: refreshing all of them, and rebuilding a lost one.

After a refresh old shares do not combine with new ones, though the secret is the
same.  A share is rebuilt by interpolation at its point, and if the shares that it
is rebuilt from were blinded by recovery transcripts before, none of them is shown.
-/

namespace ThresholdCipher

namespace KeyShare

/-- Add the values of a polynomial. -/
def blind (polynomial : SharingPolynomial) (share : KeyShare) : KeyShare :=
  { share with value := share.value + polynomial.evaluate share.domainPoint }

/-- Refresh shares without commitments. -/
def refreshAll (shares : List KeyShare) (threshold : Nat) (e : Entropy) :
    Attempt (List KeyShare × Entropy) := do
  entered "refresh_shares" .info [("shares", .number shares.length)]
  if threshold = 0 then Attempt.refuse (.invalidParameters .thresholdZero)
  else
    let (polynomial, e) ← Attempt.drawn (SharingPolynomial.sample? threshold e)
    return (shares.map (blind (polynomial.withRoot 0)), e)

/-- The share of a participant at a point that none of the given shares is at. -/
def recover (shares : List KeyShare) (threshold : Nat) (participant : Participant)
    (target : Scalar) : Attempt KeyShare := do
  entered "recover_share_at_point" .info [("shares", .number shares.length)]
  Attempt.orRefuse (requireEnough threshold shares.length)
  Attempt.orRefuse (checkParticipant participant)
  if shares.any (·.domainPoint = target) then Attempt.refuse .duplicatePoint
  else
    let value ← Interpolation.scalar (shares.map (·.domainPoint)) (shares.map (·.value)) target
    return ⟨participant, target, value⟩

/-- The same from shares to which the updates of recovery transcripts are added first. -/
def recoverBlinded {G : Type} [CurveGroup G] (shares : List KeyShare)
    (transcripts : List (Transcript G)) (threshold : Nat) (participant : Participant)
    (target : Scalar) : Attempt KeyShare := do
  entered "recover_share_from_updated_shares" .info
    [("shares", .number shares.length), ("transcripts", .number transcripts.length)]
  transcripts.forM (·.verifyRecovery target threshold)
  let blinded ← Attempt.orRefuse (shares.mapM (·.applyTranscripts transcripts))
  recover blinded threshold participant target

end KeyShare

namespace VerificationVector

variable {G : Type} [CurveGroup G]

/-- Refresh shares together with the vector that commits to them. -/
def refresh (vector : VerificationVector G) (shares : List KeyShare) (threshold : Nat)
    (strategy : DealerStrategy G) (e : Entropy) :
    Attempt ((List KeyShare × VerificationVector G) × Entropy) := do
  entered "refresh" .info [("shares", .number shares.length)]
  let seats := vector.entries.map fun entry => Seat.mk entry.participant entry.domainPoint
  let (transcript, e) ← Transcript.refresh seats threshold strategy e
  transcript.verifyRefresh threshold
  let shares ← Attempt.orRefuse (shares.mapM (·.applyTranscripts [transcript]))
  let vector ← vector.applyRefresh [transcript] threshold
  event "refreshed shares" .debug [("parties", .number vector.parties)]
  return ((shares, vector), e)

end VerificationVector
end ThresholdCipher
