import ThresholdCipher.DecryptionShare
import ThresholdCipher.Layout

/-
The wire form of the values that participants exchange.

`Wire.encode` and `Wire.decode` go by the layout of the type.  A decoded value takes
up the whole input, and every element in it has passed the checks of its group.
-/

namespace ThresholdCipher

class Wire (α : Type) where
  layout : Layout α

namespace Wire

def encode {α : Type} [Wire α] (a : α) : Except Failure Bytes := layout.write a

def decode {α : Type} [Wire α] (bs : Bytes) : Except Error α := Layout.decode layout bs

variable {G1 G2 T : Type} [CurveGroup G1] [CurveGroup G2] [TargetGroup T]

/-- A participant and its point, which most values begin with. -/
def seat : Layout (Participant × Scalar) := Layout.participant.both .scalar

instance : Wire KeyShare where
  layout := (seat.both .scalar).convert (fun ((p, x), s) => ⟨p, x, s⟩)
    fun share => ((share.participant, share.domainPoint), share.value)

def entry : Layout (ShareCommitment G1) :=
  (seat.both .point).convert (fun ((p, x), c) => ⟨p, x, c⟩)
    fun entry => ((entry.participant, entry.domainPoint), entry.commitment)

instance : Wire (VerificationVector G1) where
  layout := (Layout.point.both entry.counted).convert (fun (key, entries) => ⟨key, entries⟩)
    fun vector => (vector.publicKey, vector.entries)

def header : Layout (Header G1 G2) :=
  (Layout.point.both (Layout.point.both .point)).convert (fun (u, v, w) => ⟨u, v, w⟩)
    fun header => (header.u, header.v, header.w)

instance : Wire (Ciphertext G1 G2) where
  layout := (header.both .sized).convert (fun (header, payload) => ⟨header, payload⟩)
    fun ciphertext => (ciphertext.header, ciphertext.payload)

def proof : Layout EqualityProof :=
  (Layout.scalar.both .scalar).convert (fun (c, r) => ⟨c, r⟩)
    fun proof => (proof.challenge, proof.response)

/-- A decryption share has tag zero if it is fast and tag one if it is simple. -/
instance : Wire (DecryptionShare G2 T) where
  layout := (Layout.tagged .unknownShareTag seat .point (Layout.target.both proof)).convert
    (fun
      | ((p, x), .inl value) => .fast ⟨p, x, value⟩
      | ((p, x), .inr (value, proof)) => .simple ⟨p, x, value, proof⟩)
    fun
      | .fast s => ((s.participant, s.domainPoint), .inl s.value)
      | .simple s => ((s.participant, s.domainPoint), .inr (s.value, s.proof))

instance : Wire (PreparedDecryptionShare G2) where
  layout := (seat.both .point).convert (fun ((p, x), value) => ⟨p, x, value⟩)
    fun share => ((share.participant, share.domainPoint), share.value)

end Wire
end ThresholdCipher
