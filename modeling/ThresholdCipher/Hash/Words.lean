import ThresholdCipher.Bytes

/-
32-bit words, and the state of four rows of four on which the stream cipher and one
of the hashes work.

`Grid.mix` treats the four columns of a grid alike, and `Grid.onDiagonals` lets it do
the same to the diagonals.
-/

namespace ThresholdCipher

namespace Words

def rotateLeft (x : UInt32) (k : UInt32) : UInt32 := (x <<< k) ||| (x >>> (32 - k))
def rotateRight (x : UInt32) (k : UInt32) : UInt32 := (x >>> k) ||| (x <<< (32 - k))

/-- The word at byte `4 * i`, least significant byte first.  Bytes that are missing count
as zero. -/
def littleEndianAt (bs : Bytes) (i : Nat) : UInt32 :=
  UInt32.ofNat (Bytes.ofLittleEndian ((bs.drop (4 * i)).take 4))

/-- The word at byte `4 * i`, most significant byte first. -/
def bigEndianAt (bs : Bytes) (i : Nat) : UInt32 :=
  UInt32.ofNat (Bytes.ofBigEndian ((bs.drop (4 * i)).take 4))

def ofLittleEndian (n : Nat) (bs : Bytes) : List UInt32 := (List.range n).map (littleEndianAt bs)
def ofBigEndian (n : Nat) (bs : Bytes) : List UInt32 := (List.range n).map (bigEndianAt bs)

def toLittleEndian (ws : List UInt32) : Bytes := ws.flatMap fun w => Bytes.littleEndian 4 w.toNat
def toBigEndian (ws : List UInt32) : Bytes := ws.flatMap fun w => Bytes.bigEndian 4 w.toNat

end Words

structure Row where
  w0 : UInt32
  w1 : UInt32
  w2 : UInt32
  w3 : UInt32

namespace Row

def map (f : UInt32 → UInt32) (r : Row) : Row := ⟨f r.w0, f r.w1, f r.w2, f r.w3⟩

def zip (f : UInt32 → UInt32 → UInt32) (r s : Row) : Row :=
  ⟨f r.w0 s.w0, f r.w1 s.w1, f r.w2 s.w2, f r.w3 s.w3⟩

instance : Add Row := ⟨zip (· + ·)⟩
instance : XorOp Row := ⟨zip (· ^^^ ·)⟩

def zero : Row := ⟨0, 0, 0, 0⟩

/-- The same words, each one place further to the left. -/
def turn (r : Row) : Row := ⟨r.w1, r.w2, r.w3, r.w0⟩

def toList (r : Row) : List UInt32 := [r.w0, r.w1, r.w2, r.w3]

/-- The words `4 * i` and following of the little-endian reading. -/
def ofLittleEndian (bs : Bytes) (i : Nat) : Row :=
  let w (k : Nat) : UInt32 := Words.littleEndianAt bs (4 * i + k)
  ⟨w 0, w 1, w 2, w 3⟩

end Row

structure Grid where
  a : Row
  b : Row
  c : Row
  d : Row

namespace Grid

def toList (g : Grid) : List UInt32 := g.a.toList ++ g.b.toList ++ g.c.toList ++ g.d.toList

/-- Half of a mixing: two words of each column are added to and two rotated to the left. -/
def halfMix (r s : UInt32) (x : Row) (g : Grid) : Grid :=
  let a := g.a + g.b + x
  let d := (g.d ^^^ a).map (Words.rotateLeft · r)
  let c := g.c + d
  let b := (g.b ^^^ c).map (Words.rotateLeft · s)
  ⟨a, b, c, d⟩

/-- Mixes the words of each column with one another and with the words above it in `x` and
`y`. -/
def mix (r s t u : UInt32) (x y : Row) (g : Grid) : Grid := halfMix t u y (halfMix r s x g)

/-- Does to the diagonals what `f` does to the columns. -/
def onDiagonals (f : Grid → Grid) (g : Grid) : Grid :=
  let g := f ⟨g.a, g.b.turn, g.c.turn.turn, g.d.turn.turn.turn⟩
  ⟨g.a, g.b.turn.turn.turn, g.c.turn.turn, g.d.turn⟩

end Grid

/-- Cut a list into pieces of `n`, the last one shorter if need be. -/
def chunks {α : Type} (n : Nat) (xs : List α) : List (List α) :=
  (List.range ((xs.length + n - 1) / n)).map fun i => (xs.drop (n * i)).take n

end ThresholdCipher
