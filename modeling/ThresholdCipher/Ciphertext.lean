import ThresholdCipher.Entropy
import ThresholdCipher.Group
import ThresholdCipher.Journal
import ThresholdCipher.PayloadCipher

/-
Ciphertexts and their public validity.

With a random exponent `r`, the header of a ciphertext holds `u = r • g`, `v = r • h`
and `w`, the multiple by `r` of a hash of everything else.  Whether one exponent
is behind all three can be checked by anyone, with two products of pairings.
-/

namespace ThresholdCipher

structure Header (G1 G2 : Type) where
  u : G1
  v : G2
  w : G2
  deriving DecidableEq

structure Ciphertext (G1 G2 : Type) where
  header : Header G1 G2
  payload : Bytes
  deriving DecidableEq

/-- The value that every decryption agrees on. -/
structure SharedSecret (T : Type) where
  value : T
  deriving DecidableEq

namespace SharedSecret

def text {T : Type} (_ : SharedSecret T) : String := "SharedSecret(<redacted>)"

def encode {T : Type} [TargetGroup T] (secret : SharedSecret T) : Except Failure Bytes :=
  encodeTarget secret.value

def decode {T : Type} [TargetGroup T] (bs : Bytes) : Except DecodingError (SharedSecret T) :=
  (TargetGroup.decode bs).map SharedSecret.mk

end SharedSecret

/-- The tag under which a ciphertext is hashed into the second curve group. -/
def authenticationTag : Bytes :=
  Bytes.ofText "TDEC-V01-CS01-with-BLS12381G2_XMD:SHA-256_SSWU_RO_"

section

variable {G1 G2 T : Type} [CurveGroup G1] [CurveGroup G2] [TargetGroup T] [Pairing G1 G2 T]

/-- The bytes that stand for a header in payload keys and share proofs. -/
def contextBytes (u : G1) (v : G2) : Bytes := CurveGroup.encode u ++ CurveGroup.encode v

/-- What the last part of the header is a hash of.  The payload carries its length, so
that no byte can move between it and the associated data. -/
def authenticationMessage (u : G1) (v : G2) (payload aad : Bytes) : Bytes :=
  contextBytes u v ++ Bytes.bigEndian 8 payload.length ++ payload ++ aad

def authenticationPoint (u : G1) (v : G2) (payload aad : Bytes) : Except PrimitiveError G2 :=
  hashPoint G1 (authenticationMessage u v payload aad) authenticationTag

namespace Ciphertext

def context (ciphertext : Ciphertext G1 G2) : Bytes :=
  contextBytes ciphertext.header.u ciphertext.header.v

/-- Whether `u` and `w` are the same multiple of the generator and of `hashed`. -/
def isAuthentic (header : Header G1 G2) (hashed : G2) : Bool :=
  pairsCancel [(header.u, hashed), (-generator, header.w)]

/-- Whether `u` and `v` are the same multiple of both generators. -/
def isConsistent (header : Header G1 G2) : Bool :=
  pairsCancel [(header.u, (generator : G2)), (-generator, header.v)]

/-- Accepts a ciphertext whose header has one exponent, not zero, that authenticates the
payload and the associated data. -/
def checkValidity (ciphertext : Ciphertext G1 G2) (aad : Bytes) : Attempt Unit := do
  entered "check_ciphertext_validity" .debug [("payload_len", .number ciphertext.payload.length)]
  let header := ciphertext.header
  if header.u = 0 then
    event "ciphertext commits to the identity" .warn []
    Attempt.refuse .invalidCiphertext
  else
    let hashed ← Attempt.orRefuse
      ((authenticationPoint header.u header.v ciphertext.payload aad).mapError .primitive)
    let authenticated := isAuthentic header hashed
    let consistent := isConsistent header
    if authenticated && consistent then return ()
    else
      event "ciphertext validity check failed" .warn
        [("authenticated", .flag authenticated), ("consistent", .flag consistent)]
      Attempt.refuse .invalidCiphertext

end Ciphertext

/-! ## Encryption and decryption -/

namespace PayloadCipher

def encrypt (cipher : PayloadCipher) (publicKey : G1) (plaintext aad : Bytes) (e : Entropy) :
    Attempt (Ciphertext G1 G2 × Entropy) := do
  entered "encrypt" .info
    [("payload_len", .number plaintext.length), ("aad_len", .number aad.length)]
  let (r, e) ← Attempt.drawn e.nonzeroScalar?
  let u : G1 := r • generator
  let v : G2 := r • generator
  let secret := pair (r • publicKey) (generator : G2)
  let material ← Attempt.ofExcept (encodeTarget secret)
  let payload ← Attempt.orRefuse (cipher.wrap material (contextBytes u v) plaintext aad)
  let hashed ← Attempt.orRefuse ((authenticationPoint u v payload aad).mapError .primitive)
  return (⟨⟨u, v, r • hashed⟩, payload⟩, e)

def decrypt (cipher : PayloadCipher) (ciphertext : Ciphertext G1 G2) (aad : Bytes)
    (secret : SharedSecret T) : Attempt Bytes := do
  entered "decrypt" .info [("payload_len", .number ciphertext.payload.length)]
  let material ← Attempt.ofExcept secret.encode
  Attempt.orRefuse (cipher.unwrap material ciphertext.context ciphertext.payload aad)

def checkedDecrypt (cipher : PayloadCipher) (ciphertext : Ciphertext G1 G2) (aad : Bytes)
    (secret : SharedSecret T) : Attempt Bytes := do
  ciphertext.checkValidity aad
  cipher.decrypt ciphertext aad secret

end PayloadCipher

end
end ThresholdCipher
