import ThresholdCipher.ShareVerification

/-
Combining decryption shares to the shared secret.

Fast shares are interpolated at zero in the second curve group and paired once.  As
soon as a simple share is among them, all are lifted and interpolated in the target
group.  Prepared shares carry their weights and are only added.
-/

namespace ThresholdCipher

section

variable {G1 G2 T : Type} [CurveGroup G1] [CurveGroup G2] [TargetGroup T] [Pairing G1 G2 T]

def requireDistinct (participants : List Participant) : Except Error Unit :=
  if participants.Nodup then .ok () else .error .duplicatePoint

namespace SharedSecret

/-- The secret behind decryption shares, of which there must be enough.  All of them are
used, as they are. -/
def combine (G1 : Type) {G2 T : Type} [CurveGroup G1] [CurveGroup G2] [TargetGroup T]
    [Pairing G1 G2 T] (shares : List (DecryptionShare G2 T)) (threshold : Nat) :
    Attempt (SharedSecret T) := do
  entered "combine" .info [("provided", .number shares.length)]
  Attempt.orRefuse (requireEnough threshold shares.length)
  Attempt.orRefuse (requireDistinct (shares.map (·.participant)))
  let points := shares.map (·.domainPoint)
  match shares.mapM (·.fast?) with
  | some fast =>
    let weights ← Interpolation.weights points 0
    let combined ← Attempt.ofExcept (weightedSum (fast.map (·.value)) weights)
    return ⟨pair (generator : G1) combined⟩
  | none =>
    event "mixed share variants, interpolating in the target group" .debug []
    let value ← Interpolation.target points (shares.map (·.lift G1)) 0
    return ⟨value⟩

/-- The secret behind the prepared shares of a whole quorum. -/
def combinePrepared (G1 : Type) {G2 T : Type} [CurveGroup G1] [CurveGroup G2]
    [Pairing G1 G2 T] (shares : List (PreparedDecryptionShare G2)) (threshold : Nat) :
    Attempt (SharedSecret T) := do
  entered "combine_precomputed" .info [("provided", .number shares.length)]
  Attempt.orRefuse (requireEnough threshold shares.length)
  Attempt.orRefuse (requireDistinct (shares.map (·.participant)))
  return ⟨pair (generator : G1) (sum (shares.map (·.value)))⟩

/-- The same after verifying every share.  The quorum is fixed, so a share that fails
cannot be left out. -/
def combinePreparedVerified (shares : List (PreparedDecryptionShare G2))
    (ciphertext : Ciphertext G1 G2) (prepared : PreparedCommitments G1) (threshold : Nat) :
    Attempt (SharedSecret T) := do
  entered "combine_precomputed_verified" .info [("provided", .number shares.length)]
  let flags ← Attempt.ofExcept (shares.mapM (·.verify ciphertext prepared))
  match (List.zip shares flags).find? (fun p => !p.2) with
  | some (share, _) =>
    event "rejected precomputed decryption share" .warn
      [("participant", .number share.participant.toNat)]
    Attempt.refuse (.invalidShare share.participant)
  | none => combinePrepared G1 shares threshold

/-- Verify the shares, leave out those that fail, and combine the others. -/
def combineVerified (strategy : VerificationStrategy) (shares : List (DecryptionShare G2 T))
    (ciphertext : Ciphertext G1 G2) (vector : VerificationVector G1) (threshold : Nat)
    (e : Entropy) : Attempt (SharedSecret T × Entropy) := do
  entered "combine_verified" .info
    [("provided", .number shares.length), ("strategy", .text strategy.name)]
  let (outcome, e) ← ShareVerification.run strategy shares ciphertext vector e
  if !outcome.allValid then
    event "excluding invalid decryption shares" .warn
      [("rejected", .number outcome.rejected.length)]
  let accepted := outcome.accepted.filterMap (shares[·]?)
  Attempt.orRefuse (requireEnough threshold accepted.length)
  let secret ← combine G1 accepted threshold
  return (secret, e)

end SharedSecret

namespace PayloadCipher

def decryptWithShares (cipher : PayloadCipher) (ciphertext : Ciphertext G1 G2) (aad : Bytes)
    (shares : List (DecryptionShare G2 T)) (vector : VerificationVector G1) (threshold : Nat)
    (strategy : VerificationStrategy) (e : Entropy) : Attempt (Bytes × Entropy) := do
  let (secret, e) ←
    SharedSecret.combineVerified strategy shares ciphertext vector threshold e
  let plaintext ← cipher.decrypt ciphertext aad secret
  return (plaintext, e)

def decryptWithPrepared (cipher : PayloadCipher) (ciphertext : Ciphertext G1 G2) (aad : Bytes)
    (shares : List (PreparedDecryptionShare G2)) (threshold : Nat) : Attempt Bytes := do
  let secret ← SharedSecret.combinePrepared G1 shares threshold
  cipher.decrypt ciphertext aad secret

end PayloadCipher

end
end ThresholdCipher
