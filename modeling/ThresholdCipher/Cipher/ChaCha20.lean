import ThresholdCipher.Hash.Words

/-
ChaCha20.

The last row of a block's input is the caller's: a 32-bit block counter and a 96-bit
nonce where a message is enciphered, a 64-bit block counter and a zero stream
number where the keystream serves as random words.
-/

namespace ThresholdCipher.ChaCha20

def constants : Row := ⟨0x61707865, 0x3320646e, 0x79622d32, 0x6b206574⟩

def mix (g : Grid) : Grid := g.mix 16 12 8 7 .zero .zero

/-- Does `k` times a round on the columns and a round on the diagonals. -/
def doubleRounds : Nat → Grid → Grid
  | 0, g => g
  | k + 1, g => doubleRounds k ((mix g).onDiagonals mix)

def output (key : Bytes) (last : Row) : Grid :=
  let input : Grid := ⟨constants, .ofLittleEndian key 0, .ofLittleEndian key 1, last⟩
  let mixed := doubleRounds 10 input
  ⟨input.a + mixed.a, input.b + mixed.b, input.c + mixed.c, input.d + mixed.d⟩

/-- The block of 64 bytes with the given number, under a 12-byte nonce. -/
def block (key nonce : Bytes) (counter : Nat) : Bytes :=
  let n (i : Nat) : UInt32 := Words.littleEndianAt nonce i
  Words.toLittleEndian (output key ⟨UInt32.ofNat counter, n 0, n 1, n 2⟩).toList

/-- The first `length` bytes of the keystream, from the block with number `first`. -/
def keystream (key nonce : Bytes) (first length : Nat) : Bytes :=
  ((List.range ((length + 63) / 64)).flatMap fun i => block key nonce (first + i)).take length

/-- The 64-bit word `i` of the keystream that a 32-byte seed gives. -/
def word (seed : Bytes) (i : Nat) : UInt64 :=
  let counter := i / 8
  let ws := (output seed
    ⟨UInt32.ofNat counter, UInt32.ofNat (counter / UInt32.size), 0, 0⟩).toList
  let half (k : Nat) : UInt64 := (ws.getD (2 * (i % 8) + k) 0).toUInt64
  half 0 ||| (half 1 <<< 32)

end ThresholdCipher.ChaCha20
