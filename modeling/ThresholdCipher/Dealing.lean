import ThresholdCipher.SharingPolynomial
import ThresholdCipher.VerificationVector
import ThresholdCipher.WindowTable

/-
Dealing: drawing a sharing polynomial and handing out its values.

Participant `i` holds the value at `i + 1`.  All commitments are computed in one batch,
plainly or from a table of multiples of the generator; that choice shows in the
journal alone.
-/

namespace ThresholdCipher

inductive DealerStrategy (G : Type)
  | simple
  | precomputed (table : WindowTable G)

namespace DealerStrategy

variable {G : Type} [CurveGroup G]

def name : DealerStrategy G → String
  | simple => "simple"
  | precomputed _ => "precomputed"

/-- Commitments to many values, in one batch. -/
def commitMany : DealerStrategy G → List Scalar → List G
  | simple, values => values.map (· • generator)
  | precomputed table, values => table.mulMany values

theorem commitMany_cons_ne_nil (strategy : DealerStrategy G) (value : Scalar)
    (values : List Scalar) : strategy.commitMany (value :: values) ≠ [] := by
  cases strategy with
  | simple => exact List.cons_ne_nil _ _
  | precomputed table => exact List.cons_ne_nil _ _

/-- The strategy with the table of the generator. -/
def tabled : DealerStrategy G := precomputed (WindowTable.build generator)

end DealerStrategy

/-- What a dealer knows at the end: the polynomial, each participant's share, and what
is published. -/
structure Dealing (G : Type) where
  polynomial : SharingPolynomial
  shares : List KeyShare
  vector : VerificationVector G

namespace Dealing

variable {G : Type} [CurveGroup G]

/-- Hand out the values of a polynomial.  They are committed to together with the secret, which
is in front of them. -/
def ofPolynomial (parameters : Parameters) (polynomial : SharingPolynomial)
    (strategy : DealerStrategy G) : Dealing G :=
  let shares := parameters.participants.map fun p =>
    let x := Scalar.domainPoint p
    KeyShare.mk p x (polynomial.evaluate x)
  let values := shares.map (·.value)
  let commitments := strategy.commitMany (polynomial.constant :: values)
  { polynomial := polynomial
    shares := shares
    vector :=
      { publicKey := commitments.head (strategy.commitMany_cons_ne_nil polynomial.constant values)
        entries := List.zipWith (fun s commitment => ⟨s.participant, s.domainPoint, commitment⟩)
          shares commitments.tail } }

def recorded (parameters : Parameters) (dealing : Dealing G) : Journaled (Dealing G) := do
  event "dealt shares" .debug [("parties", .number parameters.parties)]
  return dealing

def details (parameters : Parameters) (strategy : DealerStrategy G) : List (String × Detail) :=
  [("parties", .number parameters.parties), ("threshold", .number parameters.threshold),
    ("strategy", .text strategy.name)]

def deal (parameters : Parameters) (strategy : DealerStrategy G) (e : Entropy) :
    Attempt (Dealing G × Entropy) := do
  entered "deal" .info (details parameters strategy)
  Attempt.orRefuse parameters.validate
  let (polynomial, e) ← Attempt.drawn (SharingPolynomial.sample? parameters.threshold e)
  let dealing ← recorded parameters (ofPolynomial parameters polynomial strategy)
  return (dealing, e)

/-- Deal for a scheme, which records what it was asked for before the dealer does. -/
def dealForScheme (parameters : Parameters) (strategy : DealerStrategy G) (e : Entropy) :
    Attempt (Dealing G × Entropy) := do
  entered "deal" .info
    [("parties", .number parameters.parties), ("threshold", .number parameters.threshold)]
  deal parameters strategy e

def dealSecret (parameters : Parameters) (secret : Scalar) (strategy : DealerStrategy G)
    (e : Entropy) : Attempt (Dealing G × Entropy) := do
  entered "deal_with_secret" .info (details parameters strategy)
  Attempt.orRefuse parameters.validate
  let (polynomial, e) ← Attempt.drawn (SharingPolynomial.sample? parameters.threshold e)
  let dealing ← recorded parameters
    (ofPolynomial parameters (polynomial.withConstant secret) strategy)
  return (dealing, e)

end Dealing
end ThresholdCipher
