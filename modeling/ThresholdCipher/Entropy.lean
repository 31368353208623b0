import ThresholdCipher.Cipher.ChaCha20
import ThresholdCipher.Hash.Blake3
import ThresholdCipher.Scalar

/-
Random words, and the scalars drawn from them.

A source is a row of 64-bit words and a position in it; drawing returns the source
at its next position, so how much was drawn is the difference of two positions.  A
scalar takes four words, and a candidate that is not below the group order is
given up for the next four.
-/

namespace ThresholdCipher

/-- The word at each index below `size`, and how many were taken. -/
structure Entropy where
  size : Nat
  word : Nat → UInt64
  position : Nat

namespace Entropy

def ofList (words : List UInt64) : Entropy :=
  { size := words.length, word := fun i => words.getD i 0, position := 0 }

/-- The keystream of a seed, for as long as its block numbers are 64-bit words. -/
def ofSeed (seed : Bytes) : Entropy :=
  { size := 8 * UInt64.size, word := ChaCha20.word seed, position := 0 }

/-- Four words as one number, the least significant first, without the topmost bit. -/
def candidate (e : Entropy) : Nat :=
  let w (i : Nat) : Nat := (e.word (e.position + i)).toNat
  let top := w 3 % (UInt64.size / 2)
  w 0 + UInt64.size * (w 1 + UInt64.size * (w 2 + UInt64.size * top))

/-- A scalar and the source after it, in at most `attempts` attempts; `none` if the
words do not last. -/
def scalarWithin : Nat → Entropy → Option (Scalar × Entropy)
  | 0, _ => none
  | attempts + 1, e =>
    if e.position + 4 ≤ e.size then
      let rest := { e with position := e.position + 4 }
      if h : e.candidate < groupOrder then some (⟨e.candidate, h⟩, rest)
      else scalarWithin attempts rest
    else none

/-- The next scalar.  Every attempt takes four words, so there are no more attempts
than words. -/
def scalar? (e : Entropy) : Option (Scalar × Entropy) := scalarWithin (e.size + 1) e

def scalars? : Nat → Entropy → Option (List Scalar × Entropy)
  | 0, e => some ([], e)
  | n + 1, e => do
    let (s, e) ← e.scalar?
    let (rest, e) ← scalars? n e
    some (s :: rest, e)

def nonzeroWithin : Nat → Entropy → Option (Scalar × Entropy)
  | 0, _ => none
  | attempts + 1, e => do
    let (s, e) ← e.scalar?
    if s = 0 then nonzeroWithin attempts e else some (s, e)

def nonzeroScalar? (e : Entropy) : Option (Scalar × Entropy) := nonzeroWithin (e.size + 1) e

end Entropy

/-! ## Hashing to scalars -/

namespace ScalarHash

/-- A byte string with its length in front. -/
def framed (bs : Bytes) : Bytes := Bytes.bigEndian 8 bs.length ++ bs

/-- What is hashed: the domain and the parts, each with its length in front. -/
def input (domain : Bytes) (parts : List Bytes) : Bytes :=
  framed domain ++ parts.flatMap framed

/-- The scalar for a domain and a list of parts: the first one that the hash, taken
as a seed, gives. -/
def scalar (domain : Bytes) (parts : List Bytes) : Scalar :=
  match (Entropy.ofSeed (Blake3.hash (input domain parts))).scalar? with
  | some (s, _) => s
  | none => 0

end ScalarHash

end ThresholdCipher
