import ThresholdCipher.Bls12381.Curve
import ThresholdCipher.Hash.Sha256

/-
Hashing a tagged message into the second curve group.

The message expands to 256 bytes through SHA-256, which make two elements of `Fp2`.
Each is sent to a point of a curve `y² = x³ + a * x + b` by the simplified SWU map,
from there by an isogeny of degree three to the curve itself, and the sum of both is
moved into the subgroup.
-/

namespace ThresholdCipher.Bls12381.HashToCurve

/-- A tag of more than 255 bytes is replaced by a hash of it. -/
def shortTag (tag : Bytes) : Bytes :=
  if tag.length ≤ 255 then tag else Sha256.hash (Bytes.ofText "H2C-OVERSIZE-DST-" ++ tag)

/-- The blocks `1, 2, …` of the expansion, each the hash of the zeroth block combined
with the block before it. -/
def expansionBlocks (zeroth suffix : Bytes) : Nat → Nat → Bytes → Bytes
  | 0, _, _ => []
  | count + 1, i, previous =>
    let mixed := List.zipWith (· ^^^ ·) zeroth previous
    let block := Sha256.hash (mixed ++ UInt8.ofNat i :: suffix)
    block ++ expansionBlocks zeroth suffix count (i + 1) block

/-- Expand a tagged message to `length` bytes, a multiple of 32. -/
def expand (message tag : Bytes) (length : Nat) : Bytes :=
  let tag := shortTag tag
  let suffix := tag ++ [UInt8.ofNat tag.length]
  let zeroth := Sha256.hash
    (List.replicate 64 0 ++ message ++ Bytes.bigEndian 2 length ++ 0 :: suffix)
  expansionBlocks zeroth suffix (length / 32) 1 (List.replicate 32 0)

/-- The element of `Fp2` in bytes `128 * i` and following of the expansion. -/
def fieldElement (expanded : Bytes) (i : Nat) : Fp2 :=
  let part (k : Nat) : Fp :=
    Fp.ofNat (Bytes.ofBigEndian ((expanded.drop (64 * (2 * i + k))).take 64))
  ⟨part 0, part 1⟩

/-! ## The map to the isogenous curve -/

def isogenousA : Fp2 := ⟨0, Fp.ofNat 240⟩
def isogenousB : Fp2 := ⟨Fp.ofNat 1012, Fp.ofNat 1012⟩

def nonSquare : Fp2 := -⟨2, 1⟩

/-- Parity of the real part, or of the imaginary part where the real part is zero. -/
def isOdd (a : Fp2) : Bool := if a.re = 0 then a.im.val % 2 = 1 else a.re.val % 2 = 1

/-- A point of the isogenous curve.  Of the two candidates for the first coordinate
one has a square on the right of the curve equation; the parity of `u` chooses
the root. -/
def toIsogenous (u : Fp2) : Fp2 × Fp2 :=
  let t := nonSquare * square u
  let den := square t + t
  let x1 :=
    if den = 0 then isogenousB * (nonSquare * isogenousA)⁻¹
    else -isogenousB * isogenousA⁻¹ * (1 + den⁻¹)
  let right (x : Fp2) : Fp2 := (square x + isogenousA) * x + isogenousB
  let (x, y) :=
    match Fp2.sqrt? (right x1) with
    | some y => (x1, y)
    | none => (t * x1, (Fp2.sqrt? (right (t * x1))).getD 0)
  (x, if isOdd u = isOdd y then y else -y)

/-! ## The isogeny -/

/-- The value of the polynomial with these coefficients, the lowest first. -/
def polynomial (coefficients : List Fp2) (x : Fp2) : Fp2 :=
  coefficients.foldr (fun c acc => acc * x + c) 0

def both (n : Nat) : Fp2 := ⟨Fp.ofNat n, Fp.ofNat n⟩
def imaginary (n : Nat) : Fp2 := ⟨0, Fp.ofNat n⟩
def pairOf (m n : Nat) : Fp2 := ⟨Fp.ofNat m, Fp.ofNat n⟩

def xNumerator : List Fp2 := [
  both 0x5c759507e8e333ebb5b7a9a47d7ed8532c52d39fd3a042a88b58423c50ae15d5c2638e343d9c71c6238aaaaaaaa97d6,
  imaginary 0x11560bf17baa99bc32126fced787c88f984f87adf7ae0c7f9a208c6b4f20a4181472aaa9cb8d555526a9ffffffffc71a,
  pairOf 0x11560bf17baa99bc32126fced787c88f984f87adf7ae0c7f9a208c6b4f20a4181472aaa9cb8d555526a9ffffffffc71e
    0x8ab05f8bdd54cde190937e76bc3e447cc27c3d6fbd7063fcd104635a790520c0a395554e5c6aaaa9354ffffffffe38d,
  pairOf 0x171d6541fa38ccfaed6dea691f5fb614cb14b4e7f4e810aa22d6108f142b85757098e38d0f671c7188e2aaaaaaaa5ed1 0]

def xDenominator : List Fp2 := [-imaginary 72, pairOf 12 0 - imaginary 12, 1]

def yNumerator : List Fp2 := [
  both 0x1530477c7ab4113b59a4c18b076d11930f7da5d4a07f649bf54439d87d27e500fc8c25ebf8c92f6812cfc71c71c6d706,
  imaginary 0x5c759507e8e333ebb5b7a9a47d7ed8532c52d39fd3a042a88b58423c50ae15d5c2638e343d9c71c6238aaaaaaaa97be,
  pairOf 0x11560bf17baa99bc32126fced787c88f984f87adf7ae0c7f9a208c6b4f20a4181472aaa9cb8d555526a9ffffffffc71c
    0x8ab05f8bdd54cde190937e76bc3e447cc27c3d6fbd7063fcd104635a790520c0a395554e5c6aaaa9354ffffffffe38f,
  pairOf 0x124c9ad43b6cf79bfbf7043de3811ad0761b0f37a1e26286b0e977c69aa274524e79097a56dc4bd9e1b371c71c718b10 0]

def yDenominator : List Fp2 := [-both 432, -imaginary 216, pairOf 18 0 - imaginary 18, 1]

/-- The image on the curve; where a denominator vanishes it is the point at infinity. -/
def isogeny (x y : Fp2) : G2 :=
  let dx := polynomial xDenominator x
  let dy := polynomial yDenominator x
  if dx = 0 ∨ dy = 0 then .infinity
  else .affine (polynomial xNumerator x * dx⁻¹) (y * polynomial yNumerator x * dy⁻¹)

/-- A multiple of the cofactor. -/
def effectiveCofactor : Nat :=
  0xbc69f08f2ee75b3584c6a0ea91b352888e2a8e9145ad7689986ff031508ffe1329c2f178731db956d82bf015d1212b02ec0ec69d7477c1ae954cbc06689f6a359894c0adebbf6b4e8020005aaa95551

def toCurve (u : Fp2) : G2 :=
  let (x, y) := toIsogenous u
  isogeny x y

def hash (message tag : Bytes) : G2 :=
  let expanded := expand message tag 256
  let point := toCurve (fieldElement expanded 0) + toCurve (fieldElement expanded 1)
  Point.times effectiveCofactor point

end ThresholdCipher.Bls12381.HashToCurve
