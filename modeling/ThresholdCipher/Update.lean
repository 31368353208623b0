import ThresholdCipher.Dealing

/-
Updates of key shares.

A transcript carries, for one random polynomial with a known root, a commitment to
each coefficient and an update for each participant: the value at its point,
with a commitment.  Shares with their updates added are shares of the sum of both
polynomials.  With root zero that keeps the secret, and with the root at a lost
share's point it keeps that share.
-/

namespace ThresholdCipher

structure Seat where
  participant : Participant
  domainPoint : Scalar
  deriving DecidableEq

/-- The value of an update polynomial at a participant's point, with its commitment. -/
structure ShareUpdate (G : Type) where
  participant : Participant
  domainPoint : Scalar
  update : Scalar
  commitment : G
  deriving DecidableEq

/-- Updates from one polynomial, with a commitment to each of its coefficients. -/
structure Transcript (G : Type) where
  root : Scalar
  coefficients : List G
  updates : List (ShareUpdate G)
  deriving DecidableEq

namespace Transcript

variable {G : Type}

/-- The first update of a participant. -/
def update? (transcript : Transcript G) (participant : Participant) : Option (ShareUpdate G) :=
  transcript.updates.find? (·.participant = participant)

def requireUpdate (transcript : Transcript G) (participant : Participant) :
    Except Error (ShareUpdate G) :=
  match transcript.update? participant with
  | some update => .ok update
  | none => .error (.malformedInput (.updateMissing participant))

variable [CurveGroup G]

/-! ## Sampling -/

/-- The updates for seats from a polynomial.  Its coefficients and its values are committed to in
one batch. -/
def ofPolynomial (seats : List Seat) (root : Scalar) (polynomial : SharingPolynomial)
    (strategy : DealerStrategy G) : Transcript G :=
  let values := seats.map fun seat => polynomial.evaluate seat.domainPoint
  let commitments := strategy.commitMany (polynomial.coefficients ++ values)
  { root := root
    coefficients := commitments.take polynomial.threshold
    updates := List.zipWith
      (fun seat update => ⟨seat.participant, seat.domainPoint, update.1, update.2⟩)
      seats (List.zip values (commitments.drop polynomial.threshold)) }

/-- A transcript of a random polynomial with the given root and number of coefficients. -/
def sample (seats : List Seat) (root : Scalar) (threshold : Nat) (strategy : DealerStrategy G)
    (e : Entropy) : Attempt (Transcript G × Entropy) := do
  if threshold = 0 then Attempt.refuse (.invalidParameters .thresholdZero)
  else
    let (polynomial, e) ← Attempt.drawn (SharingPolynomial.sample? threshold e)
    return (ofPolynomial seats root (polynomial.withRoot root) strategy, e)

/-- A transcript that keeps the secret. -/
def refresh (seats : List Seat) (threshold : Nat) (strategy : DealerStrategy G) (e : Entropy) :
    Attempt (Transcript G × Entropy) := do
  entered "refresh" .debug [("participants", .number seats.length)]
  sample seats 0 threshold strategy e

/-- A transcript that keeps the share at `target`, which must be nobody's point. -/
def recovery (seats : List Seat) (target : Scalar) (threshold : Nat) (strategy : DealerStrategy G)
    (e : Entropy) : Attempt (Transcript G × Entropy) := do
  entered "recovery" .debug [("participants", .number seats.length)]
  if seats.any (·.domainPoint = target) then Attempt.refuse .duplicatePoint
  else sample seats target threshold strategy e

/-! ## Verification -/

def powers (x : Scalar) (count : Nat) : List Scalar := iterates (· * x) count 1

/-- The commitment to the polynomial's value at `x`. -/
def commitmentAt (transcript : Transcript G) (x : Scalar) : Except Failure G :=
  weightedSum transcript.coefficients (powers x transcript.coefficients.length)

/-- An update must open its own commitment, and that must be the one at its point. -/
def verifyUpdate (transcript : Transcript G) (update : ShareUpdate G) : Attempt Unit := do
  let opens : Bool := update.update • generator = update.commitment
  let expected ← Attempt.ofExcept (transcript.commitmentAt update.domainPoint)
  let onPolynomial : Bool := expected = update.commitment
  if opens && onPolynomial then return ()
  else
    event "share update rejected" .warn
      [("participant", .number update.participant.toNat), ("opens", .flag opens),
        ("on_polynomial", .flag onPolynomial)]
    Attempt.refuse (.invalidShareUpdate update.participant)

/-- Whether the polynomial is committed to have the given root. -/
def hasRoot (transcript : Transcript G) (root : Scalar) : Except Failure Bool :=
  if transcript.root = root then do return (← transcript.commitmentAt root) = 0
  else .ok false

/-- The polynomial must have `threshold` coefficients and the given root, and every update
must be its value. -/
def verifyRoot (transcript : Transcript G) (root : Scalar) (threshold : Nat) : Attempt Unit := do
  let count := transcript.coefficients.length
  if count ≠ threshold then
    event "update polynomial has the wrong degree" .warn
      [("coefficients", .number count), ("threshold", .number threshold)]
    Attempt.refuse (.malformedInput (.updateCoefficients count threshold))
  else if ← Attempt.ofExcept (transcript.hasRoot root) then
    transcript.updates.forM transcript.verifyUpdate
  else Attempt.refuse (.malformedInput .updateRoot)

def verifyRefresh (transcript : Transcript G) (threshold : Nat) : Attempt Unit :=
  transcript.verifyRoot 0 threshold

def verifyRecovery (transcript : Transcript G) (target : Scalar) (threshold : Nat) :
    Attempt Unit :=
  transcript.verifyRoot target threshold

end Transcript

/-! ## Application -/

/-- Add an update that is addressed to this share. -/
def KeyShare.applyUpdate {G : Type} (share : KeyShare) (update : ShareUpdate G) :
    Except Error KeyShare :=
  if update.participant = share.participant ∧ update.domainPoint = share.domainPoint then
    .ok { share with value := share.value + update.update }
  else .error (.malformedInput (.updateForOther update.participant share.participant))

def KeyShare.applyUpdates {G : Type} (share : KeyShare) (updates : List (ShareUpdate G)) :
    Except Error KeyShare :=
  updates.foldlM (·.applyUpdate ·) share

/-- Add to a share each transcript's update for its participant. -/
def KeyShare.applyTranscripts {G : Type} (share : KeyShare) (transcripts : List (Transcript G)) :
    Except Error KeyShare := do
  let updates ← transcripts.mapM (·.requireUpdate share.participant)
  share.applyUpdates updates

/-- Add each transcript's commitment for the entry's participant. -/
def ShareCommitment.applyTranscripts {G : Type} [CurveGroup G] (entry : ShareCommitment G)
    (transcripts : List (Transcript G)) : Except Error (ShareCommitment G) := do
  let updates ← transcripts.mapM (·.requireUpdate entry.participant)
  let commitment := updates.foldl (fun acc u => acc + u.commitment) entry.commitment
  return { entry with commitment := commitment }

/-- Move every commitment along with transcripts that keep the secret. -/
def VerificationVector.applyRefresh {G : Type} [CurveGroup G] (vector : VerificationVector G)
    (transcripts : List (Transcript G)) (threshold : Nat) : Attempt (VerificationVector G) := do
  transcripts.forM (·.verifyRefresh threshold)
  let entries ← Attempt.orRefuse (vector.entries.mapM (·.applyTranscripts transcripts))
  return { vector with entries := entries }

end ThresholdCipher
