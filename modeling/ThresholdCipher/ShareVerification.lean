import ThresholdCipher.DecryptionShare

/-
Verification of decryption shares.

A fast share passes if the commitment paired with `v` equals the generator paired
with the share.  A simple share passes if its challenge is the hash of the nonce
commitments that the proof leads back to.  A batch of fast shares is checked at
once with random weights, and one by one if that fails.
-/

namespace ThresholdCipher

/-- The positions of the shares that passed and of those that did not. -/
structure ShareVerification where
  accepted : List Nat
  rejected : List Nat
  deriving DecidableEq, Repr

namespace ShareVerification

/-- The positions at which a flag has this value. -/
def positions (value : Bool) (flags : List Bool) : List Nat :=
  (flags.zipIdx.filter fun p => p.1 = value).map (·.2)

def ofFlags (flags : List Bool) : ShareVerification :=
  ⟨positions true flags, positions false flags⟩

def allValid (outcome : ShareVerification) : Bool := outcome.rejected.isEmpty

/-- Names the participant of the first rejected share among the shares verified. -/
def requireAllValid {G2 T : Type} (outcome : ShareVerification)
    (shares : List (DecryptionShare G2 T)) : Except Error Unit :=
  match outcome.rejected with
  | [] => .ok ()
  | position :: _ =>
    match shares[position]? with
    | some share => .error (.invalidShare share.participant)
    | none => .error (.malformedInput (.rejectedPosition position shares.length))

end ShareVerification

section

variable {G1 G2 T : Type} [CurveGroup G1] [CurveGroup G2] [TargetGroup T] [Pairing G1 G2 T]

/-- The commitment of a participant who is named with its own point. -/
def VerificationVector.commitmentAt (vector : VerificationVector G1) (participant : Participant)
    (domainPoint : Scalar) : Journaled (Option G1) :=
  match vector.entry? participant with
  | some entry =>
    if entry.domainPoint = domainPoint then return some entry.commitment
    else do
      event "decryption share claims a foreign domain point" .warn
        [("participant", .number participant.toNat)]
      return none
  | none => do
    event "decryption share from unknown participant" .warn
      [("participant", .number participant.toNat)]
    return none

/-- Whether `value` is the same multiple of `v` as `commitment` is of the generator. -/
def sameMultiple (commitment : G1) (v value : G2) : Bool :=
  pairsCancel [(commitment, v), (-generator, value)]

def FastShare.verify (share : FastShare G2) (ciphertext : Ciphertext G1 G2)
    (vector : VerificationVector G1) : Journaled Bool := do
  match ← vector.commitmentAt share.participant share.domainPoint with
  | some commitment => return sameMultiple commitment ciphertext.header.v share.value
  | none => return false

namespace SimpleShare

/-- The commitments to the nonce that the proof leads back to. -/
def nonceCommitments (share : SimpleShare T) (commitment : G1) (base : T) : G1 × T :=
  (share.proof.response • generator + -(share.proof.challenge • commitment),
    base ^ share.proof.response * share.value ^ (-share.proof.challenge))

def proofHolds (share : SimpleShare T) (ciphertext : Ciphertext G1 G2) (commitment : G1) :
    Except Failure Bool := do
  let (t1, t2) := share.nonceCommitments commitment ciphertext.pairingBase
  let expected ← EqualityProof.challengeFor share.participant commitment ciphertext.context
    share.value t1 t2
  return expected = share.proof.challenge

def verify (share : SimpleShare T) (ciphertext : Ciphertext G1 G2)
    (vector : VerificationVector G1) : Attempt Bool := do
  match ← vector.commitmentAt share.participant share.domainPoint with
  | some commitment => Attempt.ofExcept (share.proofHolds ciphertext commitment)
  | none => return false

end SimpleShare

def DecryptionShare.verify (share : DecryptionShare G2 T) (ciphertext : Ciphertext G1 G2)
    (vector : VerificationVector G1) : Attempt Bool := do
  entered "verify_decryption_share" .trace [("participant", .number share.participant.toNat)]
  match share with
  | .fast s => s.verify ciphertext vector
  | .simple s => s.verify ciphertext vector

/-- Verify a prepared share against the commitments of its quorum. -/
def PreparedDecryptionShare.verify (share : PreparedDecryptionShare G2)
    (ciphertext : Ciphertext G1 G2) (prepared : PreparedCommitments G1) : Except Failure Bool := do
  match ← prepared.commitment? share.participant with
  | some commitment => return sameMultiple commitment ciphertext.header.v share.value
  | none => return false

namespace ShareVerification

/-- The commitments of all shares, or none if one of them has none. -/
def commitments (vector : VerificationVector G1) :
    List (FastShare G2) → Journaled (Option (List G1))
  | [] => return some []
  | share :: shares => do
    match ← vector.commitmentAt share.participant share.domainPoint with
    | some commitment => return (← commitments vector shares).map (commitment :: ·)
    | none => return none

/-- Verify fast shares together: with a random weight for each, the sum of the
commitments must be the same multiple as the sum of the values. -/
def batch (shares : List (FastShare G2)) (ciphertext : Ciphertext G1 G2)
    (vector : VerificationVector G1) (e : Entropy) : Attempt (Bool × Entropy) := do
  if shares.isEmpty then return (true, e)
  else
    match ← commitments vector shares with
    | none => return (false, e)
    | some commitments =>
      let (weights, e) ← Attempt.drawn (e.scalars? shares.length)
      let commitment ← Attempt.ofExcept (weightedSum commitments weights)
      let value ← Attempt.ofExcept (weightedSum (shares.map (·.value)) weights)
      return (sameMultiple commitment ciphertext.header.v value, e)

def expectedVariant : VerificationStrategy → ShareVariant
  | .fast | .fastBatch => .fast
  | .simple => .simple

/-- All shares must be of the variant that the strategy is for. -/
def requireVariant (strategy : VerificationStrategy) (shares : List (DecryptionShare G2 T)) :
    Except Error Unit :=
  match shares.find? (·.variant ≠ expectedVariant strategy) with
  | some share =>
    .error (.malformedInput (.variantUnderStrategy share.variant share.participant strategy))
  | none => .ok ()

/-- The outcome for each share, in order. -/
def flags (strategy : VerificationStrategy) (shares : List (DecryptionShare G2 T))
    (ciphertext : Ciphertext G1 G2) (vector : VerificationVector G1) (e : Entropy) :
    Attempt (List Bool × Entropy) := do
  match strategy with
  | .fast | .simple => return (← shares.mapM (·.verify ciphertext vector), e)
  | .fastBatch =>
    let fast := shares.filterMap (·.fast?)
    let (passed, e) ← batch fast ciphertext vector e
    if passed then return (fast.map fun _ => true, e)
    else
      event "batch check failed, verifying shares individually" .debug []
      let flags ← (fast.mapM (·.verify ciphertext vector) : Journaled (List Bool))
      return (flags, e)

def reportRejected (shares : List (DecryptionShare G2 T)) (outcome : ShareVerification) :
    Journaled Unit :=
  outcome.rejected.forM fun position =>
    match shares[position]? with
    | some share =>
      event "rejected decryption share" .warn [("participant", .number share.participant.toNat)]
    | none => return ()

/-- Verify a list of shares.  Only the batched strategy draws random words. -/
def run (strategy : VerificationStrategy) (shares : List (DecryptionShare G2 T))
    (ciphertext : Ciphertext G1 G2) (vector : VerificationVector G1) (e : Entropy) :
    Attempt (ShareVerification × Entropy) := do
  entered "verify_decryption_shares" .info
    [("strategy", .text strategy.name), ("shares", .number shares.length)]
  Attempt.orRefuse (requireVariant strategy shares)
  let (flags, e) ← flags strategy shares ciphertext vector e
  let outcome := ofFlags flags
  reportRejected shares outcome
  return (outcome, e)

end ShareVerification

end
end ThresholdCipher
