import ThresholdCipher.Scalar

/-
How many participants there are and how many of them decrypt together.
-/

namespace ThresholdCipher

inductive Backend
  | arkworks
  | blst
  deriving DecidableEq, Repr

/-- Only the second engine is built. -/
def Backend.isBuilt : Backend → Bool
  | .arkworks => false
  | .blst => true

/-- The largest number in a 32-bit field. -/
def maxWord32 : Nat := UInt32.size - 1

structure Parameters where
  parties : Nat
  threshold : Nat
  backend : Backend
  deriving DecidableEq, Repr

namespace Parameters

def validate (p : Parameters) : Except Error Unit :=
  if ¬ p.backend.isBuilt then .error (.primitive .arkworksNotBuilt)
  else if p.parties = 0 then .error (.invalidParameters .noParticipants)
  else if p.threshold = 0 ∨ p.parties < p.threshold then
    .error (.invalidParameters (.thresholdOutOfRange p.threshold p.parties))
  else if maxWord32 < p.parties then .error (.invalidParameters .tooManyParticipants)
  else .ok ()

def participants (p : Parameters) : List Participant :=
  (List.range p.parties).map UInt64.ofNat

def domainPoints (p : Parameters) : List Scalar := p.participants.map Scalar.domainPoint

end Parameters

/-- A participant's index must fit its 32-bit field. -/
def checkParticipant (participant : Participant) : Except Error Unit :=
  if maxWord32 < participant.toNat then
    .error (.invalidParameters (.participantTooLarge participant))
  else .ok ()

end ThresholdCipher
