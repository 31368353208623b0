import ThresholdCipher.Cipher.Sealed
import ThresholdCipher.Hash.Blake3
import ThresholdCipher.Entropy
import ThresholdCipher.Failure

/-
Sealing a payload under key material and the header it belongs to.

The key is derived from the material and the header, the nonce from the header
alone.  A header never occurs with two different materials, so a key and nonce
never serve twice.
-/

namespace ThresholdCipher

/-- The texts that separate the two derivations from each other and from other uses. -/
structure PayloadCipher where
  keyContext : Bytes
  nonceContext : Bytes

namespace PayloadCipher

def standard : PayloadCipher where
  keyContext := Bytes.ofText "tdec 2024-01 payload key"
  nonceContext := Bytes.ofText "tdec 2024-01 payload nonce"

/-- What the key is derived from.  The material carries its length, so that no byte
can move between it and the header. -/
def keyInput (material header : Bytes) : Bytes := ScalarHash.framed material ++ header

def key (cipher : PayloadCipher) (material header : Bytes) : Bytes :=
  Blake3.deriveKey cipher.keyContext (keyInput material header)

def nonce (cipher : PayloadCipher) (header : Bytes) : Bytes :=
  (Blake3.deriveKey cipher.nonceContext header).take 12

def wrap (cipher : PayloadCipher) (material header plaintext aad : Bytes) :
    Except Error Bytes :=
  match Sealed.seal? (cipher.key material header) (cipher.nonce header) plaintext aad with
  | some sealed => .ok sealed
  | none => .error (.primitive .payloadTooLong)

def unwrap (cipher : PayloadCipher) (material header sealed aad : Bytes) : Except Error Bytes :=
  match Sealed.open? (cipher.key material header) (cipher.nonce header) sealed aad with
  | some plaintext => .ok plaintext
  | none => .error .authenticationFailure

end PayloadCipher
end ThresholdCipher
