import ThresholdCipher.Scalar

/-
The groups of a pairing.

The two curve groups are written additively and the target group
multiplicatively, all three with scalars acting on them.  Nothing here says that
the operations obey the group laws: the protocol runs on any instance, and what is
proved about it assumes the laws where it needs them.
-/

namespace ThresholdCipher

/-- A group of curve points with a standard generator and a compressed encoding of fixed
size. -/
class CurveGroup (G : Type) extends Zero G, Add G, Neg G, SMul Scalar G where
  generator : G
  decEq : DecidableEq G
  encodedSize : Nat
  encode : G → Bytes
  decode : Bytes → Except DecodingError G

/-- The group in which pairings take their values.  `encode` gives `none` where the
encoding is undefined, which is at the identity. -/
class TargetGroup (T : Type) extends One T, Mul T, Pow T Scalar where
  decEq : DecidableEq T
  encode : T → Option Bytes
  decode : Bytes → Except DecodingError T

instance {G : Type} [CurveGroup G] : DecidableEq G := CurveGroup.decEq
instance {T : Type} [TargetGroup T] : DecidableEq T := TargetGroup.decEq

/-- A pairing of two curve groups, with a hash of tagged messages into the second. -/
class Pairing (G1 G2 : Type) (T : outParam Type) where
  pair : G1 → G2 → T
  hashToCurve : (message tag : Bytes) → G2

export CurveGroup (generator)
export Pairing (pair)

section CurveGroup

variable {G : Type} [CurveGroup G]

def sum (points : List G) : G := points.foldl (· + ·) 0

/-- The sum of `weight • point` over the two lists.  The lists must agree in length,
and the sum needs at least one term. -/
def weightedSum (points : List G) (weights : List Scalar) : Except Failure G :=
  if points.length ≠ weights.length then .error (.error (.primitive .sumLengths))
  else if points.isEmpty then .error .emptySum
  else .ok (sum (List.zipWith (fun point weight => weight • point) points weights))

def select (whenFalse whenTrue : G) (choice : Bool) : G := if choice then whenTrue else whenFalse

end CurveGroup

section TargetGroup

variable {T : Type} [TargetGroup T]

def product (elements : List T) : T := elements.foldl (· * ·) 1

/-- The product of `element ^ weight` over the two lists. -/
def weightedProduct (elements : List T) (weights : List Scalar) : T :=
  product (List.zipWith (fun element weight => element ^ weight) elements weights)

/-- The encoding of a target element; the identity has none. -/
def encodeTarget (t : T) : Except Failure Bytes :=
  match TargetGroup.encode t with
  | some bs => .ok bs
  | none => .error .identityEncoded

end TargetGroup

section Pairing

variable {G1 G2 T : Type} [TargetGroup T] [Pairing G1 G2 T]

def pairProduct (as : List G1) (bs : List G2) : Except PrimitiveError T :=
  if as.length ≠ bs.length then .error .pairingLengths
  else .ok (product (List.zipWith pair as bs))

/-- Whether the pairings of corresponding points multiply to the identity. -/
def pairsCancel (terms : List (G1 × G2)) : Bool :=
  product (terms.map fun term => pair term.1 term.2) = 1

/-- The hash of a tagged message, which must not be the identity. -/
def hashPoint (G1 : Type) {G2 T : Type} [CurveGroup G2] [Pairing G1 G2 T]
    (message tag : Bytes) : Except PrimitiveError G2 :=
  let point : G2 := Pairing.hashToCurve G1 message tag
  if point = 0 then .error .hashedToIdentity else .ok point

end Pairing

end ThresholdCipher
