import ThresholdCipher.Ciphertext
import ThresholdCipher.Quorum

/-
Decryption shares: what participants contribute to opening one ciphertext.

A fast share is the header's `v` multiplied by the key share, and is checked with
pairings.  A simple share is the pairing of `u` and the generator to the power of
the key share, and proves that this exponent is the one committed to.  Both
stand for the same target element, `lift`.  A prepared share is a fast one
multiplied by its weight in a known quorum.
-/

namespace ThresholdCipher

structure FastShare (G2 : Type) where
  participant : Participant
  domainPoint : Scalar
  value : G2
  deriving DecidableEq

/-- A challenge and a response that show two logarithms to be equal. -/
structure EqualityProof where
  challenge : Scalar
  response : Scalar
  deriving DecidableEq

structure SimpleShare (T : Type) where
  participant : Participant
  domainPoint : Scalar
  value : T
  proof : EqualityProof
  deriving DecidableEq

inductive DecryptionShare (G2 T : Type)
  | fast (share : FastShare G2)
  | simple (share : SimpleShare T)
  deriving DecidableEq

/-- A fast share multiplied by its weight in a quorum. -/
structure PreparedDecryptionShare (G2 : Type) where
  participant : Participant
  domainPoint : Scalar
  value : G2
  deriving DecidableEq

namespace DecryptionShare

variable {G2 T : Type}

def participant : DecryptionShare G2 T → Participant
  | fast s => s.participant
  | simple s => s.participant

def domainPoint : DecryptionShare G2 T → Scalar
  | fast s => s.domainPoint
  | simple s => s.domainPoint

def variant : DecryptionShare G2 T → ShareVariant
  | fast _ => .fast
  | simple _ => .simple

def fast? : DecryptionShare G2 T → Option (FastShare G2)
  | fast s => some s
  | simple _ => none

end DecryptionShare

/-! ## The proof of a simple share -/

namespace EqualityProof

def nonceDomain : Bytes := Bytes.ofText "tdec/decryption-share/nonce"
def challengeDomain : Bytes := Bytes.ofText "tdec/decryption-share/challenge"

def participantBytes (participant : Participant) : Bytes := Bytes.bigEndian 8 participant.toNat

/-- What a nonce is hashed from: the key share and the ciphertext. -/
def nonceParts (share : KeyShare) (context : Bytes) : List Bytes :=
  [share.value.littleEndian, context, participantBytes share.participant]

def nonce (share : KeyShare) (context : Bytes) : Scalar :=
  ScalarHash.scalar nonceDomain (nonceParts share context)

variable {G1 T : Type} [CurveGroup G1] [TargetGroup T]

/-- What a challenge is hashed from: a value and its commitment, and the nonce in both groups,
with target elements given by their encodings. -/
def challengeParts (participant : Participant) (commitment : G1) (context value : Bytes) (t1 : G1)
    (t2 : Bytes) : List Bytes :=
  [participantBytes participant, CurveGroup.encode commitment, context, value,
    CurveGroup.encode t1, t2]

def challengeFor (participant : Participant) (commitment : G1) (context : Bytes) (value : T)
    (t1 : G1) (t2 : T) : Except Failure Scalar := do
  let valueBytes ← encodeTarget value
  let t2Bytes ← encodeTarget t2
  return ScalarHash.scalar challengeDomain
    (challengeParts participant commitment context valueBytes t1 t2Bytes)

end EqualityProof

section

variable {G1 G2 T : Type} [CurveGroup G1] [CurveGroup G2] [TargetGroup T] [Pairing G1 G2 T]

/-- The target element that a share contributes to a combination. -/
def DecryptionShare.lift (G1 : Type) {G2 T : Type} [CurveGroup G1] [Pairing G1 G2 T] :
    DecryptionShare G2 T → T
  | fast s => pair (generator : G1) s.value
  | simple s => s.value

namespace Ciphertext

/-- The base of simple shares. -/
def pairingBase (ciphertext : Ciphertext G1 G2) : T := pair ciphertext.header.u (generator : G2)

def fastShare (ciphertext : Ciphertext G1 G2) (share : KeyShare) : FastShare G2 :=
  ⟨share.participant, share.domainPoint, share.value • ciphertext.header.v⟩

def simpleShare (ciphertext : Ciphertext G1 G2) (share : KeyShare) :
    Except Failure (SimpleShare T) := do
  let base := ciphertext.pairingBase
  let value := base ^ share.value
  let nonce := EqualityProof.nonce share ciphertext.context
  let challenge ← EqualityProof.challengeFor share.participant (share.commitment G1)
    ciphertext.context value (nonce • (generator : G1)) (base ^ nonce)
  return ⟨share.participant, share.domainPoint, value,
    ⟨challenge, nonce + challenge * share.value⟩⟩

def shareOf (ciphertext : Ciphertext G1 G2) (variant : ShareVariant) (share : KeyShare) :
    Except Failure (DecryptionShare G2 T) :=
  match variant with
  | .fast => .ok (.fast (ciphertext.fastShare share))
  | .simple => do return .simple (← ciphertext.simpleShare share)

def createShare (ciphertext : Ciphertext G1 G2) (aad : Bytes) (share : KeyShare)
    (variant : ShareVariant) : Attempt (DecryptionShare G2 T) := do
  entered "create_decryption_share" .debug
    [("participant", .number share.participant.toNat), ("variant", .text variant.name)]
  ciphertext.checkValidity aad
  Attempt.ofExcept (ciphertext.shareOf variant share)

/-- Decryption shares of a valid ciphertext, which is checked once. -/
def createShares (ciphertext : Ciphertext G1 G2) (aad : Bytes) (shares : List KeyShare)
    (variant : ShareVariant) : Attempt (List (DecryptionShare G2 T)) := do
  entered "create_decryption_shares" .debug
    [("shares", .number shares.length), ("variant", .text variant.name)]
  ciphertext.checkValidity aad
  Attempt.ofExcept (shares.mapM (ciphertext.shareOf variant))

def createPrepared (ciphertext : Ciphertext G1 G2) (aad : Bytes) (share : PreparedShare) :
    Attempt (PreparedDecryptionShare G2) := do
  entered "create_precomputed_decryption_share" .debug
    [("participant", .number share.participant.toNat)]
  ciphertext.checkValidity aad
  return ⟨share.participant, share.domainPoint, share.value • ciphertext.header.v⟩

end Ciphertext

end
end ThresholdCipher
