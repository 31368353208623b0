import ThresholdCipher.VerificationVector

/-
A quorum that is known in advance.

Its members' interpolation weights at zero are computed once.  A member who
multiplies its share by its weight leaves nothing to the combiner but a sum.
-/

namespace ThresholdCipher

/-- The members of a quorum with their points and weights, all three in one order. -/
structure Quorum where
  participants : List Participant
  domainPoints : List Scalar
  weights : List Scalar
  deriving DecidableEq

namespace Quorum

def new (participants : List Participant) (domainPoints : List Scalar) : Attempt Quorum := do
  if participants.length ≠ domainPoints.length then
    Attempt.refuse (.malformedInput
      (.participantsAndPoints participants.length domainPoints.length))
  else if participants.Nodup then
    let weights ← Interpolation.weights domainPoints 0
    return ⟨participants, domainPoints, weights⟩
  else Attempt.refuse .duplicatePoint

def ofShares (shares : List KeyShare) : Attempt Quorum :=
  new (shares.map (·.participant)) (shares.map (·.domainPoint))

/-- The entry of a participant, who must be known. -/
def requireEntry {G : Type} (vector : VerificationVector G) (participant : Participant) :
    Except Error (ShareCommitment G) :=
  match vector.entry? participant with
  | some entry => .ok entry
  | none => .error (.malformedInput (.participantUnknown participant))

/-- The quorum of these participants, at the points that the vector has for them. -/
def ofVector {G : Type} (vector : VerificationVector G) (participants : List Participant) :
    Attempt Quorum := do
  let entries ← Attempt.orRefuse (participants.mapM (requireEntry vector))
  new participants (entries.map (·.domainPoint))

/-- The weight of a member, who must be named with its point. -/
def weight (quorum : Quorum) (participant : Participant) (domainPoint : Scalar) :
    Except Error Scalar :=
  let outside : Except Error Scalar :=
    .error (.malformedInput (.participantOutsideQuorum participant))
  match quorum.participants.idxOf? participant with
  | some i =>
    match quorum.domainPoints[i]?, quorum.weights[i]? with
    | some x, some w => if x = domainPoint then .ok w else outside
    | _, _ => outside
  | none => outside

end Quorum

/-- A key share multiplied by its holder's weight. -/
structure PreparedShare where
  participant : Participant
  domainPoint : Scalar
  value : Scalar
  deriving DecidableEq

def PreparedShare.text (share : PreparedShare) : String :=
  s!"PreparedShare \x7b participant: {share.participant}, " ++
    s!"domain_point: {share.domainPoint.text}, .. \x7d"

def KeyShare.prepare (share : KeyShare) (quorum : Quorum) : Attempt PreparedShare := do
  entered "prepare" .debug [("participant", .number share.participant.toNat)]
  let weight ← Attempt.orRefuse (quorum.weight share.participant share.domainPoint)
  return ⟨share.participant, share.domainPoint, weight * share.value⟩

/-- The commitments to the prepared shares of a quorum, in the order of its members. -/
structure PreparedCommitments (G : Type) where
  participants : List Participant
  commitments : List G
  deriving DecidableEq

namespace PreparedCommitments

variable {G : Type} [CurveGroup G]

/-- The members' commitments, each multiplied by its weight. -/
def prepare (vector : VerificationVector G) (quorum : Quorum) :
    Except Error (PreparedCommitments G) := do
  let entries ← quorum.participants.mapM (Quorum.requireEntry vector)
  let commitments ← entries.mapM fun entry => do
    let weight ← quorum.weight entry.participant entry.domainPoint
    return weight • entry.commitment
  return ⟨quorum.participants, commitments⟩

/-- The commitment at the position of a participant. -/
def commitment? (prepared : PreparedCommitments G) (participant : Participant) :
    Except Failure (Option G) :=
  match prepared.participants.idxOf? participant with
  | some i =>
    match prepared.commitments[i]? with
    | some commitment => .ok (some commitment)
    | none => .error .commitmentMissing
  | none => .ok none

end PreparedCommitments
end ThresholdCipher
