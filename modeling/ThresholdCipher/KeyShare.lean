import ThresholdCipher.Group
import ThresholdCipher.Interpolation

/-
Shares of the secret key.

A share is the value of the sharing polynomial at its holder's point, and the
secret is the value at zero.  The commitment to a share is its multiple of the
generator.
-/

namespace ThresholdCipher

structure KeyShare where
  participant : Participant
  domainPoint : Scalar
  value : Scalar
  deriving DecidableEq

namespace KeyShare

def commitment (G : Type) [CurveGroup G] (share : KeyShare) : G := share.value • generator

/-- The text of a share in diagnostics, which leaves the value out. -/
def text (share : KeyShare) : String :=
  s!"PrivateKeyShare \x7b participant: {share.participant}, " ++
    s!"domain_point: {share.domainPoint.text}, value: \"<redacted>\" \x7d"

end KeyShare

/-- At least `threshold` of something must be there, and the threshold must not be zero. -/
def requireEnough (threshold provided : Nat) : Except Error Unit :=
  if threshold = 0 then .error (.invalidParameters .thresholdZero)
  else if provided < threshold then .error (.insufficientShares threshold provided)
  else .ok ()

/-- The secret behind the shares, of which there must be enough.  All of them are used. -/
def reconstructSecret (shares : List KeyShare) (threshold : Nat) : Attempt Scalar := do
  Attempt.orRefuse (requireEnough threshold shares.length)
  Interpolation.scalar (shares.map (·.domainPoint)) (shares.map (·.value)) 0

end ThresholdCipher
