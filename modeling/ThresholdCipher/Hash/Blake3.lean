import ThresholdCipher.Hash.Words

/-
BLAKE3: the hash of a byte string, and the derivation of a key from a context text
and key material.

The input is cut into chunks of 1024 bytes, which are the leaves of a binary tree.
Each node is an `Output`: what a last compression turns into either the node's
chaining value or, at the root, the digest.
-/

namespace ThresholdCipher.Blake3

/-- Where each message word comes from in the next round. -/
def permutation : List Nat := [2, 6, 3, 10, 7, 0, 4, 13, 1, 11, 12, 5, 9, 14, 15, 8]

def pick (m : List UInt32) (i j k l : Nat) : Row :=
  ⟨m.getD i 0, m.getD j 0, m.getD k 0, m.getD l 0⟩

def mix (x y : Row) (g : Grid) : Grid := g.mix 16 20 24 25 x y

/-- The columns are mixed with the first eight message words, then the diagonals with the
others. -/
def round (g : Grid) (m : List UInt32) : Grid :=
  (mix (pick m 0 2 4 6) (pick m 1 3 5 7) g).onDiagonals
    (mix (pick m 8 10 12 14) (pick m 9 11 13 15))

def rounds : Nat → Grid → List UInt32 → Grid
  | 0, g, _ => g
  | k + 1, g, m => rounds k (round g m) (permutation.map fun i => m.getD i 0)

structure ChainingValue where
  front : Row
  back : Row

namespace ChainingValue

/-- The fractions of the square roots of the first eight primes. -/
def initial : ChainingValue :=
  ⟨⟨0x6a09e667, 0xbb67ae85, 0x3c6ef372, 0xa54ff53a⟩,
    ⟨0x510e527f, 0x9b05688c, 0x1f83d9ab, 0x5be0cd19⟩⟩

def toBytes (v : ChainingValue) : Bytes := Words.toLittleEndian (v.front.toList ++ v.back.toList)

def ofBytes (bs : Bytes) : ChainingValue := ⟨.ofLittleEndian bs 0, .ofLittleEndian bs 1⟩

end ChainingValue

/-- A node before its last compression. -/
structure Output where
  chaining : ChainingValue
  block : Bytes
  counter : Nat
  flags : UInt32

def chunkStart : UInt32 := 1
def chunkEnd : UInt32 := 2
def parentNode : UInt32 := 4
def root : UInt32 := 8
def contextMode : UInt32 := 32
def materialMode : UInt32 := 64

namespace Output

/-- Both halves of the compressed state, combined. -/
def value (o : Output) : ChainingValue :=
  let last : Row := ⟨UInt32.ofNat o.counter, UInt32.ofNat (o.counter / UInt32.size),
    UInt32.ofNat o.block.length, o.flags⟩
  let g := rounds 7 ⟨o.chaining.front, o.chaining.back, ChainingValue.initial.front, last⟩
    (Words.ofLittleEndian 16 o.block)
  ⟨g.a ^^^ g.c, g.b ^^^ g.d⟩

def digest (o : Output) : Bytes :=
  ({ o with counter := 0, flags := o.flags ||| root } : Output).value.toBytes

end Output

/-- The node of one chunk: its blocks are compressed in order, the last one is left. -/
def chunk (key : ChainingValue) (mode : UInt32) (counter : Nat) (bs : Bytes) : Output :=
  let blocks := if bs.isEmpty then [[]] else chunks 64 bs
  let node (cv : ChainingValue) (i : Nat) (block : Bytes) : Output :=
    { chaining := cv
      block := block
      counter := counter
      flags := mode ||| (if i = 0 then chunkStart else 0) |||
        (if i + 1 = blocks.length then chunkEnd else 0) }
  let step (p : ChainingValue × Nat) (block : Bytes) := ((node p.1 p.2 block).value, p.2 + 1)
  let before := blocks.dropLast.foldl step (key, 0)
  node before.1 before.2 (blocks.getLastD [])

/-- The node over all chunks of `bs`.  The left subtree takes the largest power of
two of chunks that leaves something for the right one, so `levels` bounds the
depth. -/
def tree (key : ChainingValue) (mode : UInt32) : Nat → Nat → Bytes → Output
  | 0, counter, bs => chunk key mode counter bs
  | levels + 1, counter, bs =>
    if bs.length ≤ 1024 then chunk key mode counter bs
    else
      let left := 1 <<< ((bs.length - 1) / 1024).log2
      let l := (tree key mode levels counter (bs.take (1024 * left))).value
      let r := (tree key mode levels (counter + left) (bs.drop (1024 * left))).value
      { chaining := key
        block := l.toBytes ++ r.toBytes
        counter := 0
        flags := mode ||| parentNode }

def digest (key : ChainingValue) (mode : UInt32) (bs : Bytes) : Bytes :=
  (tree key mode (bs.length.log2 + 1) 0 bs).digest

def hash (bs : Bytes) : Bytes := digest .initial 0 bs

/-- The 32-byte key for a context from key material. -/
def deriveKey (context : Bytes) (material : Bytes) : Bytes :=
  digest (.ofBytes (digest .initial contextMode context)) materialMode material

end ThresholdCipher.Blake3
