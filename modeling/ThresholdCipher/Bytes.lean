/-
Byte strings and the two fixed-width forms of a number.

Everything this library reads or writes is a `List UInt8`, so that a format is a
function on lists and its laws are inductions.  `littleEndian w n` is the `w`
lowest bytes of `n`, least significant first; `bigEndian` is its reverse.  A
number too large for the width loses its upper bytes, which is why each format
checks its bound before it writes.
-/

namespace ThresholdCipher

abbrev Bytes := List UInt8

namespace Bytes

/-- The `w` lowest bytes of `n`, least significant first. -/
def littleEndian : Nat → Nat → Bytes
  | 0, _ => []
  | w + 1, n => UInt8.ofNat n :: littleEndian w (n / 256)

/-- The `w` lowest bytes of `n`, most significant first. -/
def bigEndian (w n : Nat) : Bytes := (littleEndian w n).reverse

/-- How many numbers have a form of `w` bytes. -/
def capacity : Nat → Nat
  | 0 => 1
  | w + 1 => 256 * capacity w

def ofLittleEndian : Bytes → Nat
  | [] => 0
  | b :: bs => b.toNat + 256 * ofLittleEndian bs

def ofBigEndian (bs : Bytes) : Nat := ofLittleEndian bs.reverse

@[simp] theorem length_littleEndian (w n : Nat) : (littleEndian w n).length = w := by
  induction w generalizing n with
  | zero => rfl
  | succ w ih => rw [littleEndian, List.length_cons, ih]

@[simp] theorem length_bigEndian (w n : Nat) : (bigEndian w n).length = w := by
  rw [bigEndian, List.length_reverse, length_littleEndian]

/-- Reading back loses exactly the upper bytes. -/
theorem ofLittleEndian_littleEndian (w n : Nat) :
    ofLittleEndian (littleEndian w n) = n % capacity w := by
  induction w generalizing n with
  | zero => rw [littleEndian, ofLittleEndian, capacity, Nat.mod_one]
  | succ w ih =>
    have h : n % (256 * capacity w) = n % 256 + 256 * (n / 256 % capacity w) := Nat.mod_mul
    rw [littleEndian, ofLittleEndian, ih, UInt8.toNat_ofNat', capacity, h]

theorem ofBigEndian_bigEndian (w n : Nat) : ofBigEndian (bigEndian w n) = n % capacity w := by
  rw [ofBigEndian, bigEndian, List.reverse_reverse, ofLittleEndian_littleEndian]

/-- Two numbers that fit the width have different forms. -/
theorem bigEndian_inj {w a b : Nat} (ha : a < capacity w) (hb : b < capacity w)
    (h : bigEndian w a = bigEndian w b) : a = b := by
  have hread := congrArg ofBigEndian h
  rwa [ofBigEndian_bigEndian, ofBigEndian_bigEndian, Nat.mod_eq_of_lt ha,
    Nat.mod_eq_of_lt hb] at hread

theorem ofLittleEndian_lt (bs : Bytes) : ofLittleEndian bs < capacity bs.length := by
  induction bs with
  | nil => exact Nat.one_pos
  | cons b bs ih =>
    have hb : b.toNat < 256 := b.toNat_lt
    rw [ofLittleEndian, List.length_cons, capacity]
    omega

/-- Every byte string is the form of the number that it reads as. -/
theorem littleEndian_ofLittleEndian (bs : Bytes) :
    littleEndian bs.length (ofLittleEndian bs) = bs := by
  induction bs with
  | nil => rfl
  | cons b bs ih =>
    have hb : b.toNat < 256 := b.toNat_lt
    rw [List.length_cons, littleEndian, ofLittleEndian, Nat.add_mul_div_left _ _ (by decide),
      Nat.div_eq_of_lt hb, Nat.zero_add, ih]
    congr 1
    rw [← UInt8.toNat_inj, UInt8.toNat_ofNat', Nat.add_mul_mod_self_left, Nat.mod_eq_of_lt hb]

theorem ofBigEndian_lt (bs : Bytes) : ofBigEndian bs < capacity bs.length := by
  have h := ofLittleEndian_lt bs.reverse
  rwa [List.length_reverse] at h

theorem bigEndian_ofBigEndian (bs : Bytes) : bigEndian bs.length (ofBigEndian bs) = bs := by
  have h := littleEndian_ofLittleEndian bs.reverse
  rw [List.length_reverse] at h
  rw [bigEndian, ofBigEndian, h, List.reverse_reverse]

/-! ## Text -/

def hexDigit (n : Nat) : Char := "0123456789abcdef".toList.getD n '0'

/-- Two lower-case hexadecimal digits for each byte. -/
def hex (bs : Bytes) : String :=
  String.ofList (bs.flatMap fun b => [hexDigit (b.toNat / 16), hexDigit (b.toNat % 16)])

def ofText (s : String) : Bytes := s.toUTF8.data.toList

end Bytes

/-- Combine `n` copies of `x` by doubling: the bits of `n` from the highest of
`w` down, doubling at each and taking in `x` where the bit is set. -/
@[specialize] def doubling {α : Type} (op : α → α → α) (double : α → α) (x : α) (n : Nat) :
    Nat → α → α
  | 0, acc => acc
  | w + 1, acc =>
    let twice := double acc
    doubling op double x n w (if n.testBit w then op twice x else twice)

end ThresholdCipher
