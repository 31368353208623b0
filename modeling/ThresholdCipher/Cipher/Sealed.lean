import ThresholdCipher.Cipher.ChaCha20
import ThresholdCipher.Cipher.Poly1305

/-
ChaCha20-Poly1305: a text sealed together with associated data that stays in the
clear.

The first block of the keystream keys the authenticator, the following ones
encipher, and the tag covers the associated data and the enciphered text, each
filled up to 16 bytes, with their lengths.
-/

namespace ThresholdCipher.Sealed

def tagSize : Nat := 16

/-- A text must leave its last block number within 32 bits. -/
def fits (length : Nat) : Bool := length / 64 < UInt32.size - 1

/-- Combine a text with the keystream.  Doing it twice gives the text back. -/
def mask (key nonce text : Bytes) : Bytes :=
  List.zipWith (· ^^^ ·) text (ChaCha20.keystream key nonce 1 text.length)

/-- Zeros up to the next multiple of 16. -/
def filled (bs : Bytes) : Bytes := bs ++ List.replicate ((16 - bs.length % 16) % 16) 0

def tag (key nonce aad enciphered : Bytes) : Bytes :=
  Poly1305.tag ((ChaCha20.block key nonce 0).take 32)
    (filled aad ++ filled enciphered ++ Bytes.littleEndian 8 aad.length ++
      Bytes.littleEndian 8 enciphered.length)

/-- The enciphered text followed by its tag, if the text is short enough. -/
def seal? (key nonce plaintext aad : Bytes) : Option Bytes :=
  if fits plaintext.length then
    let enciphered := mask key nonce plaintext
    some (enciphered ++ tag key nonce aad enciphered)
  else none

/-- The text, if the bytes end in the tag of what precedes it. -/
def open? (key nonce sealed aad : Bytes) : Option Bytes :=
  if sealed.length < tagSize then none
  else
    let enciphered := sealed.take (sealed.length - tagSize)
    if fits enciphered.length ∧ tag key nonce aad enciphered = sealed.drop enciphered.length then
      some (mask key nonce enciphered)
    else none

end ThresholdCipher.Sealed
