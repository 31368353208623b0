import ThresholdCipher.Entropy

/-
Sharing polynomials.

A polynomial is kept as its constant term and the coefficients above it, so that it
always has a constant term, which is the secret it shares, and keeps every
coefficient it was drawn with even if the highest one is zero.
-/

namespace ThresholdCipher

/-- Stands for `constant + upper₀ * x + upper₁ * x² + …`. -/
structure SharingPolynomial where
  constant : Scalar
  upper : List Scalar
  deriving DecidableEq

namespace SharingPolynomial

def coefficients (p : SharingPolynomial) : List Scalar := p.constant :: p.upper

/-- The polynomial with these coefficients, the constant term first; zero if there are none. -/
def ofCoefficients : List Scalar → SharingPolynomial
  | [] => ⟨0, []⟩
  | c :: cs => ⟨c, cs⟩

/-- The number of coefficients, which is the number of values that determine it. -/
def threshold (p : SharingPolynomial) : Nat := p.coefficients.length

/-- The index of the highest coefficient that is not zero. -/
def degree (p : SharingPolynomial) : Nat :=
  (p.upper.reverse.dropWhile (· = 0)).length

def evaluate (p : SharingPolynomial) (x : Scalar) : Scalar :=
  p.coefficients.foldr (fun c acc => acc * x + c) 0

/-- The same polynomial with another constant term. -/
def withConstant (p : SharingPolynomial) (secret : Scalar) : SharingPolynomial :=
  { p with constant := secret }

/-- The polynomial with this root that differs in the constant term alone. -/
def withRoot (p : SharingPolynomial) (root : Scalar) : SharingPolynomial :=
  p.withConstant (p.constant - p.evaluate root)

/-- A polynomial with `threshold` random coefficients, and at least one. -/
def sample? (threshold : Nat) (e : Entropy) : Option (SharingPolynomial × Entropy) :=
  (e.scalars? (max threshold 1)).map fun (cs, e) => (ofCoefficients cs, e)

end SharingPolynomial
end ThresholdCipher
