import ThresholdCipher.Bls12381.AtePairing
import ThresholdCipher.Bls12381.HashToCurve

/-
The BLS12-381 curves as a pairing.
-/

namespace ThresholdCipher.Bls12381

instance : Pairing G1 G2 Target where
  pair := AtePairing.pair
  hashToCurve := HashToCurve.hash

end ThresholdCipher.Bls12381
