import ThresholdCipher.Hash.Words

/-
Poly1305: a polynomial in the first half of the key, modulo `2 ^ 130 - 5`, with
the blocks of the message as coefficients, masked by the second half.
-/

namespace ThresholdCipher.Poly1305

/-- The prime `2 ^ 130 - 5`. -/
def modulus : Nat := 0x3fffffffffffffffffffffffffffffffb

/-- The bits of the first key half that are kept. -/
def mask : Nat := 0x0ffffffc0ffffffc0ffffffc0fffffff

/-- A block counts with a one after its last byte. -/
def coefficient (block : Bytes) : Nat := Bytes.ofLittleEndian (block ++ [1])

def accumulate (r : Nat) (message : Bytes) : Nat :=
  (chunks 16 message).foldl (fun acc block => (acc + coefficient block) * r % modulus) 0

/-- The 16-byte tag of a message under a 32-byte key. -/
def tag (key message : Bytes) : Bytes :=
  let r := Bytes.ofLittleEndian (key.take 16) &&& mask
  let s := Bytes.ofLittleEndian (key.drop 16)
  Bytes.littleEndian 16 (accumulate r message + s)

theorem length_tag (key message : Bytes) : (tag key message).length = 16 :=
  Bytes.length_littleEndian _ _

end ThresholdCipher.Poly1305
