import ThresholdCipher.Bls12381.Target

/-
The ate pairing.

With `x` the absolute value of the curve parameter, which is negative, and `f` the
Miller function of `x` and the second point, the pairing is

  `f ^ (-3 * (p ^ 12 - 1) / r)`.

The factor three lets the hard part of the exponent be written through small
powers of `x`: `3 * (p ^ 4 - p ^ 2 + 1) / r` is
`(z - 1) ^ 2 * (z + p) * (z ^ 2 + p ^ 2 - 1) + 3` for `z = -x`.  It is the value of
the textbook pairing, cubed.
-/

namespace ThresholdCipher.Bls12381

/-- The absolute value of the curve parameter. -/
def curveParameter : Nat := 0xd201000000010000

namespace AtePairing

/-- The line with slope `n / d` through the point `(x, y)` of the twist, at the point
`(px, py)`, scaled by `d`.  A further factor `w³` brings it into this form.  Both
factors lie in subfields that the final exponent sends to one. -/
def line (n d x y : Fp2) (px py : Fp) : Fp12 :=
  { c0 := ⟨n * x - d * y, -(n.scale px), 0⟩
    c1 := ⟨0, d.scale py, 0⟩ }

/-- The tangent at a finite point, scaled by `2 * Y * Z³`. -/
def tangent (t : Jacobian Fp2) (px py : Fp) : Fp12 :=
  let xx := square t.x
  let zz := square t.z
  let n := xx + xx + xx
  { c0 := ⟨n * t.x - double (square t.y), -((n * zz).scale px), 0⟩
    c1 := ⟨0, (double (t.y * t.z) * zz).scale py, 0⟩ }

/-- The chord from a finite point to the affine point `(qx, qy)`. -/
def chord (t : Jacobian Fp2) (qx qy : Fp2) (px py : Fp) : Fp12 :=
  let zz := square t.z
  line (qy * t.z * zz - t.y) ((qx * zz - t.x) * t.z) qx qy px py

/-- The Miller function: the `w` lowest bits of the parameter, the highest first,
with `t` the multiple of `(qx, qy)` reached so far. -/
def miller (px py : Fp) (qx qy : Fp2) : Nat → Fp12 → Jacobian Fp2 → Fp12
  | 0, f, _ => f
  | w + 1, f, t =>
    let f := f.square * tangent t px py
    let t := t.twice
    if curveParameter.testBit w then
      miller px py qx qy w (f * chord t qx qy px py) (t.addAffine qx qy)
    else miller px py qx qy w f t

/-- For an element of norm one, whose conjugate is its inverse: the power to the
curve parameter with its sign. -/
def parameterPower (a : Fp12) : Fp12 := (a ^ curveParameter).conj

/-- The power `3 * (p ^ 12 - 1) / r`. -/
def finalPower (f : Fp12) : Fp12 :=
  let g := f.conj * f⁻¹
  let g := g.frobenius.frobenius * g
  let a := parameterPower g * g.conj
  let a := parameterPower a * a.conj
  let b := parameterPower a * a.frobenius
  let c := parameterPower (parameterPower b) * b.frobenius.frobenius * b.conj
  c * (g * g * g)

def pair : G1 → G2 → Fp12
  | .affine px py, .affine qx qy =>
    (finalPower (miller px py qx qy curveParameter.log2 1 ⟨qx, qy, 1⟩)).conj
  | _, _ => 1

end AtePairing

end ThresholdCipher.Bls12381
