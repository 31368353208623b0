import ThresholdCipher.Bls12381.Curve

/-
The target group: the elements of `Fp12` whose order divides the group order.

Such an element has norm one over `Fp6`, so `c0 + c1 * w` is determined by the one
coordinate `(c0 + 1) / c1`, which is how it is written.  The identity has `c1 = 0`
and therefore no written form.
-/

namespace ThresholdCipher.Bls12381

namespace Fp6

def toBytes (a : Fp6) : Bytes :=
  [a.c0.re, a.c0.im, a.c1.re, a.c1.im, a.c2.re, a.c2.im].flatMap fun x =>
    Bytes.littleEndian 48 x.val

/-- Reads six coordinates from the front of `bs`, each below the characteristic. -/
def ofBytes? (bs : Bytes) : Option Fp6 := do
  let coordinate (i : Nat) : Option Fp :=
    Fp.ofNat? (Bytes.ofLittleEndian ((bs.drop (48 * i)).take 48))
  if bs.length < 288 then none
  else
    let a ← coordinate 0
    let b ← coordinate 1
    let c ← coordinate 2
    let d ← coordinate 3
    let e ← coordinate 4
    let f ← coordinate 5
    some ⟨⟨a, b⟩, ⟨c, d⟩, ⟨e, f⟩⟩

end Fp6

namespace Fp12

def compress (a : Fp12) : Option Bytes :=
  if a.c1 = 0 then none else some ((a.c0 + 1) * a.c1⁻¹).toBytes

/-- The element of norm one with coordinate `b` is `(b + w) / (b - w)`. -/
def ofCoordinate (b : Fp6) : Fp12 :=
  let v : Fp6 := ⟨0, 1, 0⟩
  let bb := b * b
  let i := (bb - v)⁻¹
  ⟨(bb + v) * i, (b + b) * i⟩

/-- Bytes after the coordinate are ignored. -/
def decompress (bs : Bytes) : Except DecodingError Fp12 :=
  match (Fp6.ofBytes? bs).map ofCoordinate with
  | some a => if a ^ groupOrder = 1 then .ok a else .error (.bytes .target)
  | none => .error (.bytes .target)

instance : TargetGroup Fp12 where
  pow a s := a ^ s.val
  decEq := inferInstance
  encode := compress
  decode := decompress

end Fp12

abbrev Target := Fp12

end ThresholdCipher.Bls12381
