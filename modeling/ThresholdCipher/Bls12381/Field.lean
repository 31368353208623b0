import ThresholdCipher.Residue

/-
The fields below the BLS12-381 curves and their target group:

  `Fp2 = Fp[u] / (u² + 1)`, `Fp6 = Fp2[v] / (v³ - (1 + u))`, `Fp12 = Fp6[w] / (w² - v)`.

`CoordinateField` collects what curve arithmetic asks of a coordinate, so that one
definition of the group law serves both curves.
-/

namespace ThresholdCipher.Bls12381

/-- The characteristic of the coordinate fields. -/
def basePrime : Nat :=
  0x1a0111ea397fe69a4b1ba7b6434bacd764774b84f38512bf6730d2a0f6b0f6241eabfffeb153ffffb9feffffffffaaab

instance : Modulus basePrime := ⟨by decide⟩

abbrev Fp := Residue basePrime

class CoordinateField (F : Type) extends Zero F, One F, Add F, Sub F, Neg F, Mul F, Inv F where
  decEq : DecidableEq F
  sqrt? : F → Option F
  /-- Of a point and its negative, the one whose second coordinate is larger is marked. -/
  isLarger : F → Bool

instance {F : Type} [CoordinateField F] : DecidableEq F := CoordinateField.decEq

section CoordinateField

variable {F : Type} [CoordinateField F]

@[specialize] def square (a : F) : F := a * a
@[specialize] def double (a : F) : F := a + a

end CoordinateField

namespace Fp

def ofNat (n : Nat) : Fp := Residue.ofNat basePrime n

/-- The coefficient of `a` in a combination of `a` and the characteristic that gives
their greatest common divisor.  Each remainder `r` is kept with the coefficient `s`
for which `r` and `s * a` differ by a multiple of the characteristic. -/
def bezout : Nat → Nat → Nat → Int → Int → Int
  | 0, _, _, _, s => s
  | fuel + 1, r, r', s, s' => if r' = 0 then s else bezout fuel r' (r % r') s' (s - r / r' * s')

/-- At least every second step of the division chain halves the remainder, so twice
the bits of the characteristic are steps enough. -/
instance : Inv Fp :=
  ⟨fun a => ofNat (bezout 1000 basePrime a.val 0 1 % basePrime).toNat⟩

/-- The characteristic is three modulo four, so a square's root is a power of it. -/
def sqrt? (a : Fp) : Option Fp :=
  let root := a ^ ((basePrime + 1) / 4)
  if root * root = a then some root else none

def isLarger (a : Fp) : Bool := basePrime < 2 * a.val

instance : CoordinateField Fp where
  decEq := inferInstance
  sqrt? := sqrt?
  isLarger := isLarger

end Fp

/-- Stands for `re + im * u`, where `u² = -1`. -/
structure Fp2 where
  re : Fp
  im : Fp
  deriving DecidableEq

namespace Fp2

instance : Inhabited Fp2 := ⟨⟨0, 0⟩⟩
instance : Zero Fp2 := ⟨⟨0, 0⟩⟩
instance : One Fp2 := ⟨⟨1, 0⟩⟩
instance : Add Fp2 := ⟨fun a b => ⟨a.re + b.re, a.im + b.im⟩⟩
instance : Sub Fp2 := ⟨fun a b => ⟨a.re - b.re, a.im - b.im⟩⟩
instance : Neg Fp2 := ⟨fun a => ⟨-a.re, -a.im⟩⟩

/-- Each coordinate is reduced once, after both of its products. -/
def mul (a b : Fp2) : Fp2 where
  re := Fp.ofNat (a.re.val * b.re.val + (basePrime * basePrime - a.im.val * b.im.val))
  im := Fp.ofNat (a.re.val * b.im.val + a.im.val * b.re.val)

instance : Mul Fp2 := ⟨mul⟩

def ofNat (n : Nat) : Fp2 := ⟨Fp.ofNat n, 0⟩

def conj (a : Fp2) : Fp2 := ⟨a.re, -a.im⟩
def scale (k : Fp) (a : Fp2) : Fp2 := ⟨k * a.re, k * a.im⟩
def norm (a : Fp2) : Fp := a.re * a.re + a.im * a.im

instance : Inv Fp2 := ⟨fun a => scale (norm a)⁻¹ a.conj⟩

/-- Multiplication by `1 + u`, which is not a cube and not a square. -/
def twist (a : Fp2) : Fp2 := ⟨a.re - a.im, a.re + a.im⟩

def pow (a : Fp2) (n : Nat) : Fp2 := doubling mul (fun b => mul b b) a n (n.log2 + 1) 1

instance : Pow Fp2 Nat := ⟨pow⟩

/-- A root of `a` has real part `√((re ± √norm) / 2)` for one of the signs, and the
product of its parts is half the imaginary part of `a`. -/
def sqrt? (a : Fp2) : Option Fp2 :=
  if a.im = 0 then
    match Fp.sqrt? a.re with
    | some root => some ⟨root, 0⟩
    | none => (Fp.sqrt? (-a.re)).map fun root => ⟨0, root⟩
  else do
    let half : Fp := (2 : Fp)⁻¹
    let n ← Fp.sqrt? a.norm
    let x ← (Fp.sqrt? ((a.re + n) * half)).or (Fp.sqrt? ((a.re - n) * half))
    let root : Fp2 := ⟨x, a.im * half * x⁻¹⟩
    if root * root = a then some root else none

/-- The imaginary part decides, and the real part where that is zero. -/
def isLarger (a : Fp2) : Bool := if a.im = 0 then a.re.isLarger else a.im.isLarger

instance : CoordinateField Fp2 where
  decEq := inferInstance
  sqrt? := sqrt?
  isLarger := isLarger

end Fp2

/-- Stands for `c0 + c1 * v + c2 * v²`, where `v³ = 1 + u`. -/
structure Fp6 where
  c0 : Fp2
  c1 : Fp2
  c2 : Fp2
  deriving DecidableEq

namespace Fp6

instance : Inhabited Fp6 := ⟨⟨0, 0, 0⟩⟩
instance : Zero Fp6 := ⟨⟨0, 0, 0⟩⟩
instance : One Fp6 := ⟨⟨1, 0, 0⟩⟩
instance : Add Fp6 := ⟨fun a b => ⟨a.c0 + b.c0, a.c1 + b.c1, a.c2 + b.c2⟩⟩
instance : Sub Fp6 := ⟨fun a b => ⟨a.c0 - b.c0, a.c1 - b.c1, a.c2 - b.c2⟩⟩
instance : Neg Fp6 := ⟨fun a => ⟨-a.c0, -a.c1, -a.c2⟩⟩

/-- Six products: each mixed one comes out of a product of sums. -/
def mul (a b : Fp6) : Fp6 :=
  let t0 := a.c0 * b.c0
  let t1 := a.c1 * b.c1
  let t2 := a.c2 * b.c2
  { c0 := t0 + ((a.c1 + a.c2) * (b.c1 + b.c2) - t1 - t2).twist
    c1 := (a.c0 + a.c1) * (b.c0 + b.c1) - t0 - t1 + t2.twist
    c2 := (a.c0 + a.c2) * (b.c0 + b.c2) - t0 - t2 + t1 }

instance : Mul Fp6 := ⟨mul⟩

def scale (k : Fp2) (a : Fp6) : Fp6 := ⟨k * a.c0, k * a.c1, k * a.c2⟩

/-- Multiplication by `v`. -/
def shift (a : Fp6) : Fp6 := ⟨a.c2.twist, a.c0, a.c1⟩

instance : Inv Fp6 := ⟨fun a =>
  let t0 := a.c0 * a.c0 - (a.c1 * a.c2).twist
  let t1 := (a.c2 * a.c2).twist - a.c0 * a.c1
  let t2 := a.c1 * a.c1 - a.c0 * a.c2
  let norm := a.c0 * t0 + (a.c2 * t1 + a.c1 * t2).twist
  scale norm⁻¹ ⟨t0, t1, t2⟩⟩

end Fp6

/-- Stands for `c0 + c1 * w`, where `w² = v`. -/
structure Fp12 where
  c0 : Fp6
  c1 : Fp6
  deriving DecidableEq

namespace Fp12

instance : Inhabited Fp12 := ⟨⟨0, 0⟩⟩
instance : One Fp12 := ⟨⟨1, 0⟩⟩

def mul (a b : Fp12) : Fp12 :=
  let t0 := a.c0 * b.c0
  let t1 := a.c1 * b.c1
  { c0 := t0 + t1.shift
    c1 := (a.c0 + a.c1) * (b.c0 + b.c1) - t0 - t1 }

instance : Mul Fp12 := ⟨mul⟩

def square (a : Fp12) : Fp12 :=
  let t := a.c0 * a.c1
  { c0 := (a.c0 + a.c1) * (a.c0 + a.c1.shift) - t - t.shift
    c1 := t + t }

/-- The `p⁶`-th power, which negates `w`. -/
def conj (a : Fp12) : Fp12 := ⟨a.c0, -a.c1⟩

instance : Inv Fp12 := ⟨fun a =>
  let norm := (a.c0 * a.c0 - (a.c1 * a.c1).shift)⁻¹
  ⟨a.c0 * norm, -(a.c1 * norm)⟩⟩

/-- The power `w ^ (p - 1)`, a sixth root of `1 + u` to the power `p - 1`. -/
def frobeniusUnit : Fp2 := (1 : Fp2).twist ^ ((basePrime - 1) / 6)

/-- The powers of `frobeniusUnit` by which the coefficients of `1, w, …, w⁵` move. -/
def frobeniusUnits : List Fp2 :=
  let k := frobeniusUnit
  [1, k, k * k, k * k * k, k * k * k * k, k * k * k * k * k]

/-- The `p`-th power: each coefficient is conjugated, and `wⁱ` contributes
`frobeniusUnit ^ i`. -/
def frobenius (a : Fp12) : Fp12 :=
  let unit (i : Nat) : Fp2 := frobeniusUnits.getD i 1
  { c0 := ⟨a.c0.c0.conj, a.c0.c1.conj * unit 2, a.c0.c2.conj * unit 4⟩
    c1 := ⟨a.c1.c0.conj * unit 1, a.c1.c1.conj * unit 3, a.c1.c2.conj * unit 5⟩ }

def pow (a : Fp12) (n : Nat) : Fp12 := doubling mul square a n (n.log2 + 1) 1

instance : Pow Fp12 Nat := ⟨pow⟩

end Fp12

end ThresholdCipher.Bls12381
