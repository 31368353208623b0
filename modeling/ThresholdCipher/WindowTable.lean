import ThresholdCipher.Group
import ThresholdCipher.Journal

/-
Tables for multiplying one base point by many scalars.

Row `w` holds `k * 16 ^ w` times the base for each digit `k`.  A scalar has 64 digits
to the base 16, so a multiple is a sum of 64 entries, one from each row.
-/

namespace ThresholdCipher

/-- A list of `n` values, each one `step` after the one before. -/
def iterates {α : Type} (step : α → α) : Nat → α → List α
  | 0, _ => []
  | n + 1, a => a :: iterates step n (step a)

structure WindowTable (G : Type) where
  base : G
  windows : List (List G)

namespace WindowTable

variable {G : Type} [CurveGroup G]

def timesSixteen (p : G) : G :=
  let p2 := p + p
  let p4 := p2 + p2
  let p8 := p4 + p4
  p8 + p8

def row (p : G) : List G := iterates (· + p) 16 0

def build (base : G) : WindowTable G :=
  { base := base, windows := (iterates timesSixteen 64 base).map row }

def new (base : G) : Journaled (WindowTable G) := do
  entered "new" .debug []
  return build base

/-- The entry of a row for a digit, found by passing over the whole row. -/
def lookup (entries : List G) (digit : Nat) : G :=
  entries.zipIdx.foldl (fun found p => select found p.1 (p.2 = digit)) 0

/-- The digits to the base 16, the lowest first. -/
def digits (s : Scalar) : List Nat :=
  s.littleEndian.flatMap fun b => [b.toNat % 16, b.toNat / 16]

def mul (table : WindowTable G) (s : Scalar) : G :=
  sum (List.zipWith lookup table.windows (digits s))

def mulMany (table : WindowTable G) (scalars : List Scalar) : List G := scalars.map table.mul

end WindowTable
end ThresholdCipher
