import ThresholdCipher.Residue
import ThresholdCipher.Failure

/-
The scalar field: integers modulo the common prime order of the groups.

Secrets, shares, evaluation points and interpolation weights are scalars.  A
scalar is written as 32 bytes, most significant first, and only the least
representative is read back.  `sharedInverses` inverts a whole list at the price
of one inversion.
-/

namespace ThresholdCipher

/-- The prime order of the pairing groups. -/
def groupOrder : Nat := 0x73eda753299d7d483339d80809a1d80553bda402fffe5bfeffffffff00000001

instance : Modulus groupOrder := ⟨by decide⟩

abbrev Scalar := Residue groupOrder

namespace Scalar

/-- The order is prime, so the power two below it inverts; zero stays zero. -/
instance : Inv Scalar := ⟨fun a => a ^ (groupOrder - 2)⟩

def ofNat (n : Nat) : Scalar := Residue.ofNat groupOrder n

/-- The evaluation point of a participant: one more than its index, so that zero
stays free for the secret. -/
def domainPoint (participant : Participant) : Scalar := ofNat (participant.toNat + 1)

def encode (s : Scalar) : Bytes := Bytes.bigEndian 32 s.val

/-- The 32 bytes of the least representative, least significant first. -/
def littleEndian (s : Scalar) : Bytes := Bytes.littleEndian 32 s.val

def decode (bs : Bytes) : Except DecodingError Scalar :=
  if bs.length = 32 then
    if h : Bytes.ofBigEndian bs < groupOrder then .ok ⟨Bytes.ofBigEndian bs, h⟩
    else .error (.bytes .scalar)
  else .error (.length .scalar)

def text (s : Scalar) : String := "Scalar(0x" ++ Bytes.hex s.encode ++ ")"

def inverse? (s : Scalar) : Option Scalar := if s = 0 then none else some s⁻¹

/-- From the product `p` of all earlier elements, the inverse of the whole product
and the inverse of each element.  Passing the inverse back through the list
peels one factor off at each step. -/
def sharedInverses (p : Scalar) : List Scalar → Scalar × List Scalar
  | [] => (p⁻¹, [])
  | x :: xs =>
    let (q, inverses) := sharedInverses (p * x) xs
    (q * x, q * p :: inverses)

/-- The inverse of each element, if none of them is zero. -/
def batchInverse (xs : List Scalar) : Except PrimitiveError (List Scalar) :=
  if xs.any (· = 0) then .error .inverseOfZero else .ok (sharedInverses 1 xs).2

theorem decode_encode (s : Scalar) : decode s.encode = .ok s := by
  have hs : s.val % Bytes.capacity 32 = s.val :=
    Nat.mod_eq_of_lt (Nat.lt_trans s.isLt (by decide))
  simp only [decode, encode, Bytes.length_bigEndian, if_true, Bytes.ofBigEndian_bigEndian, hs,
    s.isLt, dite_true]

/-- Only the written form is accepted. -/
theorem encode_of_decode {bs : Bytes} {s : Scalar} (h : decode bs = .ok s) : s.encode = bs := by
  unfold decode at h
  split at h
  next hlen =>
    split at h
    next hlt =>
      cases h
      rw [encode, ← hlen, Bytes.bigEndian_ofBigEndian]
    next => cases h
  next => cases h

end Scalar
end ThresholdCipher
