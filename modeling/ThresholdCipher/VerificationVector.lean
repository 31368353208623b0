import ThresholdCipher.KeyShare
import ThresholdCipher.Parameters

/-
The public side of a dealing: the public key and a commitment to every share.

Entries are looked up by participant.  Dealt participants sit at the position of
their own index and are found there; participants that joined later are appended
and found by a search.
-/

namespace ThresholdCipher

structure ShareCommitment (G : Type) where
  participant : Participant
  domainPoint : Scalar
  commitment : G
  deriving DecidableEq

structure VerificationVector (G : Type) where
  publicKey : G
  entries : List (ShareCommitment G)
  deriving DecidableEq

namespace VerificationVector

variable {G : Type}

def parties (vector : VerificationVector G) : Nat := vector.entries.length

/-- The first entry of a participant, by a search. -/
def search? (vector : VerificationVector G) (participant : Participant) :
    Option (ShareCommitment G) :=
  vector.entries.find? (·.participant = participant)

/-- The entry of a participant: the one at the position of its index if that is its
own, and the first one of that participant otherwise. -/
def entry? (vector : VerificationVector G) (participant : Participant) :
    Option (ShareCommitment G) :=
  match vector.entries[participant.toNat]? with
  | some entry => if entry.participant = participant then some entry else vector.search? participant
  | none => vector.search? participant

variable [CurveGroup G]

/-- Whether a share opens the commitment of its participant at its point. -/
def verifyShare (vector : VerificationVector G) (share : KeyShare) : Journaled Bool :=
  let unknown : Journaled Bool := do
    event "no commitment for private share" .warn [("participant", .number share.participant.toNat)]
    return false
  match vector.entry? share.participant with
  | some entry =>
    if entry.domainPoint = share.domainPoint then
      return share.commitment G = entry.commitment
    else unknown
  | none => unknown

/-- The vector with an entry for one more participant, whose commitment is interpolated
from those already there. -/
def extend (vector : VerificationVector G) (participant : Participant) (domainPoint : Scalar) :
    Attempt (VerificationVector G) := do
  Attempt.orRefuse (checkParticipant participant)
  if (vector.entry? participant).isSome then
    Attempt.refuse (.malformedInput (.participantCommitted participant))
  else
    let commitment ← Interpolation.point (vector.entries.map (·.domainPoint))
      (vector.entries.map (·.commitment)) domainPoint
    return { vector with entries := vector.entries ++ [⟨participant, domainPoint, commitment⟩] }

end VerificationVector
end ThresholdCipher
