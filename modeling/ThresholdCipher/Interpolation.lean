import ThresholdCipher.Group
import ThresholdCipher.Journal

/-
Interpolation.

A polynomial with at most as many coefficients as there are points is recovered at
any target from its values at the points: the value at the point `x` counts with
the weight

  `∏ (target - y) / (x - y)`, over the other points `y`.

The same weights serve for values in the exponent, in a curve group and in the
target group.
-/

namespace ThresholdCipher.Interpolation

/-- Each element with the elements around it. -/
def withOthers {α : Type} : List α → List (α × List α)
  | [] => []
  | x :: xs => (x, xs) :: (withOthers xs).map fun p => (p.1, x :: p.2)

def differences (a : Scalar) (others : List Scalar) : Scalar :=
  others.foldl (fun acc y => acc * (a - y)) 1

def numerators (points : List Scalar) (target : Scalar) : List Scalar :=
  (withOthers points).map fun p => differences target p.2

def denominators (points : List Scalar) : List Scalar :=
  (withOthers points).map fun p => differences p.1 p.2

/-- The weight of each point, in order.  The denominators are inverted together. -/
def weights? (points : List Scalar) (target : Scalar) : Except Error (List Scalar) :=
  if points.isEmpty then .error (.invalidParameters .noPoints)
  else if points.Nodup then
    match Scalar.batchInverse (denominators points) with
    | .ok inverses => .ok (List.zipWith (· * ·) (numerators points target) inverses)
    | .error e => .error (.primitive e)
  else .error .duplicatePoint

def weights (points : List Scalar) (target : Scalar) : Attempt (List Scalar) := do
  entered "lagrange_coefficients" .trace [("points", .number points.length)]
  Attempt.orRefuse (weights? points target)

def requireAligned (points values : Nat) : Except Error Unit :=
  if points = values then .ok () else .error (.malformedInput (.pointsAndValues points values))

/-- The value at the target of the polynomial through the given values. -/
def scalar (points values : List Scalar) (target : Scalar) : Attempt Scalar := do
  Attempt.orRefuse (requireAligned points.length values.length)
  let ws ← weights points target
  return (List.zipWith (· * ·) values ws).foldl (· + ·) 0

/-- The same for values that are multiples of one point. -/
def point {G : Type} [CurveGroup G] (points : List Scalar) (values : List G) (target : Scalar) :
    Attempt G := do
  Attempt.orRefuse (requireAligned points.length values.length)
  let ws ← weights points target
  Attempt.ofExcept (weightedSum values ws)

/-- The same for values that are powers of one target element. -/
def target {T : Type} [TargetGroup T] (points : List Scalar) (values : List T) (z : Scalar) :
    Attempt T := do
  Attempt.orRefuse (requireAligned points.length values.length)
  let ws ← weights points z
  return weightedProduct values ws

end ThresholdCipher.Interpolation
