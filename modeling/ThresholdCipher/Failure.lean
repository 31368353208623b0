import ThresholdCipher.Bytes

/-
Why an operation fails.

`Error` is what a caller is told, and each cause has its own constructor;
`Error.message` holds the wording.  `Failure` adds the ways an operation can stop
without an answer for its caller: the target group's identity has no encoding, a
multi-scalar sum has no terms, a listed participant has no commitment at its
position, or the source of random words ran dry.
-/

namespace ThresholdCipher

/-- A participant's index, a 64-bit word. -/
abbrev Participant := UInt64

/-- The quantities that have an encoding of fixed width. -/
inductive Encoded
  | scalar
  | g1
  | g2
  | target
  deriving DecidableEq, Repr

def Encoded.name : Encoded → String
  | .scalar => "scalar"
  | .g1 => "G1"
  | .g2 => "G2"
  | .target => "GT"

/-- Why bytes do not decode: their number, or what they say. -/
inductive DecodingError
  | length (kind : Encoded)
  | bytes (kind : Encoded)
  deriving DecidableEq, Repr

def DecodingError.message : DecodingError → String
  | .length kind => s!"invalid {kind.name} length"
  | .bytes kind => s!"invalid {kind.name} bytes"

/-- Failures of the groups, the field and the payload cipher. -/
inductive PrimitiveError
  | arkworksNotBuilt
  | undecodable (cause : DecodingError)
  | inverseOfZero
  | sumLengths
  | pairingLengths
  | hashedToIdentity
  | payloadTooLong
  deriving DecidableEq, Repr

def PrimitiveError.message : PrimitiveError → String
  | .arkworksNotBuilt => "unsupported backend feature: " ++
      "compile with `ark_bls12381` feature to use Arkworks BLS12-381"
  | .undecodable cause => "serialization failure: " ++ cause.message
  | .inverseOfZero => "math error: cannot invert zero element"
  | .sumLengths => "math error: msm length mismatch"
  | .pairingLengths => "math error: pairing length mismatch"
  | .hashedToIdentity => "hash to curve failed: hashed to identity"
  | .payloadTooLong => "payload encryption failed"

/-- Parameters outside the range in which an operation makes sense. -/
inductive ParameterError
  | noParticipants
  | thresholdOutOfRange (threshold parties : Nat)
  | tooManyParticipants
  | participantTooLarge (participant : Participant)
  | thresholdZero
  | noPoints
  deriving DecidableEq, Repr

def ParameterError.message : ParameterError → String
  | .noParticipants => "need at least one participant"
  | .thresholdOutOfRange t n => s!"threshold must be within [1, parties], got t = {t} for n = {n}"
  | .tooManyParticipants => "participant count exceeds u32 range"
  | .participantTooLarge p => s!"participant index {p} exceeds u32 range"
  | .thresholdZero => "threshold must be positive"
  | .noPoints => "interpolation needs at least one point"

/-- Decryption shares come in two forms. -/
inductive ShareVariant
  | fast
  | simple
  deriving DecidableEq, Repr

def ShareVariant.name : ShareVariant → String
  | .fast => "Fast"
  | .simple => "Simple"

/-- How a list of decryption shares is checked. -/
inductive VerificationStrategy
  | fast
  | simple
  | fastBatch
  deriving DecidableEq, Repr

def VerificationStrategy.name : VerificationStrategy → String
  | .fast => "Fast"
  | .simple => "Simple"
  | .fastBatch => "FastBatch"

/-- Inputs that contradict each other or their own format. -/
inductive Malformation
  | pointsAndValues (points values : Nat)
  | participantsAndPoints (participants points : Nat)
  | participantCommitted (participant : Participant)
  | participantUnknown (participant : Participant)
  | participantOutsideQuorum (participant : Participant)
  | variantUnderStrategy (variant : ShareVariant) (participant : Participant)
      (strategy : VerificationStrategy)
  | rejectedPosition (position shares : Nat)
  | updateCoefficients (found expected : Nat)
  | updateRoot
  | updateForOther (update share : Participant)
  | updateMissing (participant : Participant)
  | shortInput (needed offset remaining : Nat)
  | trailingBytes (count : Nat)
  | exceedsWord (value : Nat)
  | unknownShareTag (tag : UInt8)
  deriving DecidableEq, Repr

def Malformation.message : Malformation → String
  | .pointsAndValues points values => s!"{points} points but {values} values"
  | .participantsAndPoints participants points =>
      s!"{participants} participants but {points} domain points"
  | .participantCommitted p => s!"participant {p} already has a commitment"
  | .participantUnknown p => s!"unknown participant {p}"
  | .participantOutsideQuorum p => s!"participant {p} is not in the aggregation context"
  | .variantUnderStrategy variant p strategy =>
      s!"{variant.name} share from participant {p} under {strategy.name} verification"
  | .rejectedPosition position shares => s!"rejected position {position} outside {shares} shares"
  | .updateCoefficients found expected =>
      s!"update polynomial has {found} coefficients, expected {expected}"
  | .updateRoot => "update polynomial does not vanish at the expected point"
  | .updateForOther update share =>
      s!"update for participant {update} applied to participant {share}"
  | .updateMissing p => s!"no update for participant {p}"
  | .shortInput needed offset remaining =>
      s!"need {needed} bytes at offset {offset}, have {remaining}"
  | .trailingBytes count => s!"{count} trailing bytes"
  | .exceedsWord value => s!"{value} exceeds u32 range"
  | .unknownShareTag tag => s!"unknown decryption share tag {tag}"

/-- What an operation reports to its caller. -/
inductive Error
  | invalidParameters (cause : ParameterError)
  | duplicatePoint
  | insufficientShares (required provided : Nat)
  | invalidShare (participant : Participant)
  | invalidCiphertext
  | authenticationFailure
  | invalidShareUpdate (participant : Participant)
  | malformedInput (cause : Malformation)
  | primitive (cause : PrimitiveError)
  deriving DecidableEq, Repr

def Error.message : Error → String
  | .invalidParameters cause => "invalid parameters: " ++ cause.message
  | .duplicatePoint => "duplicate evaluation point"
  | .insufficientShares required provided =>
      s!"insufficient shares: required {required}, provided {provided}"
  | .invalidShare p => s!"decryption share from participant {p} failed verification"
  | .invalidCiphertext => "ciphertext failed the validity check"
  | .authenticationFailure => "payload authentication failed"
  | .invalidShareUpdate p => s!"share update for participant {p} failed verification"
  | .malformedInput cause => "malformed input: " ++ cause.message
  | .primitive cause => "backend error: " ++ cause.message

/-- Why an operation has no result: an error for the caller, or a step that has
no answer at all. -/
inductive Failure
  | error (cause : Error)
  | identityEncoded
  | emptySum
  | commitmentMissing
  | entropyExhausted
  deriving DecidableEq, Repr

namespace Failure

abbrev malformed (cause : Malformation) : Failure := .error (.malformedInput cause)

abbrev parameters (cause : ParameterError) : Failure := .error (.invalidParameters cause)

end Failure

end ThresholdCipher
