import ThresholdCipher.Bls12381.Field
import ThresholdCipher.Group

/-
The curves `y² = x³ + b` in affine coordinates.

A point is kept in its one affine form, so that equality of points is equality of
values.  Multiples are computed in Jacobian coordinates, where `(X, Y, Z)` stands
for `(X / Z², Y / Z³)` and a whole scalar costs one inversion.
-/

namespace ThresholdCipher.Bls12381

inductive Point (F : Type)
  | infinity
  | affine (x y : F)
  deriving DecidableEq

/-- Stands for `(X / Z², Y / Z³)`, or for the point at infinity where `Z` is zero. -/
structure Jacobian (F : Type) where
  x : F
  y : F
  z : F

namespace Jacobian

variable {F : Type} [CoordinateField F]

def infinity : Jacobian F := ⟨1, 1, 0⟩

@[specialize] def twice (p : Jacobian F) : Jacobian F :=
  let a := square p.x
  let b := square p.y
  let c := square b
  let d := double (square (p.x + b) - a - c)
  let e := a + a + a
  let x := square e - double d
  { x := x
    y := e * (d - x) - double (double (double c))
    z := double (p.y * p.z) }

@[specialize] def addAffine (p : Jacobian F) (x y : F) : Jacobian F :=
  if p.z = 0 then ⟨x, y, 1⟩
  else
    let zz := square p.z
    let h := x * zz - p.x
    let r := y * p.z * zz - p.y
    if h = 0 then if r = 0 then p.twice else infinity
    else
      let hh := square h
      let hhh := h * hh
      let v := p.x * hh
      let x3 := square r - hhh - double v
      { x := x3
        y := r * (v - x3) - p.y * hhh
        z := p.z * h }

/-- Adds up `n` copies of the affine point `(x, y)`: the `w` lowest bits of `n`, the highest
first, each doubling what was gathered so far. -/
@[specialize] def ladder (x y : F) (n : Nat) : Nat → Jacobian F → Jacobian F
  | 0, acc => acc
  | w + 1, acc =>
    let twice := acc.twice
    ladder x y n w (if n.testBit w then twice.addAffine x y else twice)

@[specialize] def toPoint (p : Jacobian F) : Point F :=
  if p.z = 0 then .infinity
  else
    let i := p.z⁻¹
    let ii := square i
    .affine (p.x * ii) (p.y * ii * i)

end Jacobian

namespace Point

variable {F : Type} [CoordinateField F]

instance : Inhabited (Point F) := ⟨infinity⟩

@[specialize] def add : Point F → Point F → Point F
  | infinity, q => q
  | p, infinity => p
  | affine x y, affine x' y' => ((⟨x, y, 1⟩ : Jacobian F).addAffine x' y').toPoint

@[specialize] def neg : Point F → Point F
  | infinity => infinity
  | affine x y => affine x (-y)

@[specialize] def times (n : Nat) : Point F → Point F
  | infinity => infinity
  | affine x y => (Jacobian.ladder x y n (n.log2 + 1) Jacobian.infinity).toPoint

@[specialize] def inSubgroup (p : Point F) : Bool := times groupOrder p = infinity

end Point

/-- A curve `y² = x³ + b` with a generator of its subgroup of order `groupOrder`, and
the fixed-width form of its coordinates. -/
class Curve (F : Type) extends CoordinateField F where
  b : F
  base : Point F
  kind : Encoded
  width : Nat
  toBytes : F → Bytes
  ofBytes? : Bytes → Option F

/-! ## Compressed points

The three upper bits of the first byte are free, since a coordinate has 381 bits.
They say that the form is compressed, that the point is at infinity, and that of
the two points with this first coordinate it is the larger one. -/

namespace Point

variable {F : Type} [Curve F]

def flag (compressed infinite larger : Bool) : UInt8 :=
  (if compressed then 0x80 else 0) ||| (if infinite then 0x40 else 0) |||
    (if larger then 0x20 else 0)

def withFlag (mark : UInt8) : Bytes → Bytes
  | [] => []
  | first :: rest => (first ||| mark) :: rest

def compress : Point F → Bytes
  | infinity => withFlag (flag true true false) (List.replicate (Curve.width F) 0)
  | affine x y =>
    withFlag (flag true false (CoordinateField.isLarger y)) (Curve.toBytes x)

/-- The point with first coordinate `x` whose second coordinate is the larger or the
smaller root. -/
def lift? (x : F) (larger : Bool) : Option (Point F) :=
  (CoordinateField.sqrt? (square x * x + Curve.b)).map fun y =>
    affine x (if CoordinateField.isLarger y = larger then y else -y)

def decompress (bs : Bytes) : Except DecodingError (Point F) :=
  if bs.length ≠ Curve.width F then .error (.length (Curve.kind F))
  else
    let refusal : Except DecodingError (Point F) := .error (.bytes (Curve.kind F))
    match bs with
    | [] => refusal
    | first :: rest =>
      let mark := first &&& 0xe0
      let body := (first &&& 0x1f) :: rest
      if mark = flag true true false then
        if body.all (· = 0) then .ok infinity else refusal
      else if mark = flag true false true ∨ mark = flag true false false then
        match (Curve.ofBytes? body).bind fun x => lift? x (mark = flag true false true) with
        | some p => if p.inSubgroup then .ok p else refusal
        | none => refusal
      else refusal

instance : CurveGroup (Point F) where
  zero := infinity
  add := add
  neg := neg
  smul s p := times s.val p
  generator := Curve.base
  decEq := inferInstance
  encodedSize := Curve.width F
  encode := compress
  decode := decompress

end Point

/-! ## The two curves -/

namespace Fp

def toBytes (a : Fp) : Bytes := Bytes.bigEndian 48 a.val

def ofNat? (n : Nat) : Option Fp := if h : n < basePrime then some ⟨n, h⟩ else none

instance : Curve Fp where
  b := ofNat 4
  base := .affine
    (ofNat 0x17f1d3a73197d7942695638c4fa9ac0fc3688c4f9774b905a14e3a3f171bac586c55e83ff97a1aeffb3af00adb22c6bb)
    (ofNat 0x08b3f481e3aaa0f1a09e30ed741d8ae4fcf5e095d5d00af600db18cb2c04b3edd03cc744a2888ae40caa232946c5e7e1)
  kind := .g1
  width := 48
  toBytes := toBytes
  ofBytes? bs := ofNat? (Bytes.ofBigEndian bs)

end Fp

namespace Fp2

def toBytes (a : Fp2) : Bytes := a.im.toBytes ++ a.re.toBytes

def ofBytes? (bs : Bytes) : Option Fp2 := do
  let im ← Fp.ofNat? (Bytes.ofBigEndian (bs.take 48))
  let re ← Fp.ofNat? (Bytes.ofBigEndian (bs.drop 48))
  some ⟨re, im⟩

instance : Curve Fp2 where
  b := (ofNat 4).twist
  base := .affine
    ⟨Fp.ofNat 0x024aa2b2f08f0a91260805272dc51051c6e47ad4fa403b02b4510b647ae3d1770bac0326a805bbefd48056c8c121bdb8,
     Fp.ofNat 0x13e02b6052719f607dacd3a088274f65596bd0d09920b61ab5da61bbdc7f5049334cf11213945d57e5ac7d055d042b7e⟩
    ⟨Fp.ofNat 0x0ce5d527727d6e118cc9cdc6da2e351aadfd9baa8cbdd3a76d429a695160d12c923ac9cc3baca289e193548608b82801,
     Fp.ofNat 0x0606c4a02ea734cc32acd2b02bc28b99cb3e287e85a763af267492ab572e99ab3f370d275cec1da1aaa9075ff05f79be⟩
  kind := .g2
  width := 96
  toBytes := toBytes
  ofBytes? := ofBytes?

end Fp2

abbrev G1 := Point Fp
abbrev G2 := Point Fp2

end ThresholdCipher.Bls12381
