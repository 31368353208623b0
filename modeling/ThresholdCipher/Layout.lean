import ThresholdCipher.Group
import ThresholdCipher.Parameters

/-
Layouts: byte formats that write and read in one order.

A layout writes a value to bytes and reads one from the front of what is left of the
input.  Numbers have 32-bit fields, most significant byte first, so writing fails
where a number does not fit; it never writes the lower part of one.  Composite
layouts follow one another, and each part ends where it says itself.
-/

namespace ThresholdCipher

/-- What is left of an input, and how much of it was read. -/
structure Cursor where
  offset : Nat
  rest : Bytes

namespace Cursor

def start (bs : Bytes) : Cursor := ⟨0, bs⟩

def take (n : Nat) (c : Cursor) : Except Error (Bytes × Cursor) :=
  if n ≤ c.rest.length then .ok (c.rest.take n, ⟨c.offset + n, c.rest.drop n⟩)
  else .error (.malformedInput (.shortInput n c.offset c.rest.length))

def byte (c : Cursor) : Except Error (UInt8 × Cursor) :=
  match c.rest with
  | b :: rest => .ok (b, ⟨c.offset + 1, rest⟩)
  | [] => .error (.malformedInput (.shortInput 1 c.offset 0))

def finish (c : Cursor) : Except Error Unit :=
  if c.rest.isEmpty then .ok () else .error (.malformedInput (.trailingBytes c.rest.length))

end Cursor

/-- How values are laid out in bytes. -/
structure Layout (α : Type) where
  write : α → Except Failure Bytes
  read : Cursor → Except Error (α × Cursor)

namespace Layout

variable {α β γ : Type}

def decoding (x : Except DecodingError α) : Except Error α :=
  x.mapError fun e => .primitive (.undecodable e)

/-- As many bytes as the encoding of an element always has. -/
def element (size : Nat) (encode : α → Bytes) (decode : Bytes → Except DecodingError α) :
    Layout α where
  write a := .ok (encode a)
  read c := do
    let (bs, c) ← c.take size
    return (← decoding (decode bs), c)

def scalar : Layout Scalar := element 32 Scalar.encode Scalar.decode

def point {G : Type} [CurveGroup G] : Layout G :=
  element (CurveGroup.encodedSize G) CurveGroup.encode CurveGroup.decode

def word32 : Layout Nat where
  write n :=
    if maxWord32 < n then .error (.malformed (.exceedsWord n)) else .ok (Bytes.bigEndian 4 n)
  read c := do
    let (bs, c) ← c.take 4
    return (Bytes.ofBigEndian bs, c)

/-- A layout read as another type. -/
def convert (layout : Layout α) (toValue : α → β) (ofValue : β → α) : Layout β where
  write b := layout.write (ofValue b)
  read c := do
    let (a, c) ← layout.read c
    return (toValue a, c)

def participant : Layout Participant := word32.convert UInt64.ofNat UInt64.toNat

/-- A byte string with its length in front. -/
def sized : Layout Bytes where
  write bs := do
    let length ← word32.write bs.length
    return length ++ bs
  read c := do
    let (length, c) ← word32.read c
    c.take length

/-- An element of the target group, with the length of its encoding in front. -/
def target {T : Type} [TargetGroup T] : Layout T where
  write t := do sized.write (← encodeTarget t)
  read c := do
    let (bs, c) ← sized.read c
    return (← decoding (TargetGroup.decode bs), c)

def both (first : Layout α) (second : Layout β) : Layout (α × β) where
  write p := do
    let a ← first.write p.1
    let b ← second.write p.2
    return a ++ b
  read c := do
    let (a, c) ← first.read c
    let (b, c) ← second.read c
    return ((a, b), c)

def writeAll (layout : Layout α) : List α → Except Failure Bytes
  | [] => .ok []
  | a :: as => do
    let bs ← layout.write a
    let rest ← writeAll layout as
    return bs ++ rest

def readMany (layout : Layout α) : Nat → Cursor → Except Error (List α × Cursor)
  | 0, c => .ok ([], c)
  | n + 1, c => do
    let (a, c) ← layout.read c
    let (as, c) ← readMany layout n c
    return (a :: as, c)

/-- Values of one layout, with their number in front. -/
def counted (layout : Layout α) : Layout (List α) where
  write as := do
    let count ← word32.write as.length
    let entries ← layout.writeAll as
    return count ++ entries
  read c := do
    let (count, c) ← word32.read c
    layout.readMany count c

/-- A head and one of two bodies.  A tag in front of the head says which body follows it, and
an unknown tag is refused only when the head has been read. -/
def tagged (unknown : UInt8 → Malformation) (head : Layout α) (zero : Layout β)
    (one : Layout γ) : Layout (α × (β ⊕ γ)) where
  write p := do
    let front ← head.write p.1
    match p.2 with
    | .inl b => return 0 :: front ++ (← zero.write b)
    | .inr c => return 1 :: front ++ (← one.write c)
  read c := do
    let (tag, c) ← c.byte
    let (a, c) ← head.read c
    if tag = 0 then
      let (b, c) ← zero.read c
      return ((a, .inl b), c)
    else if tag = 1 then
      let (b, c) ← one.read c
      return ((a, .inr b), c)
    else .error (.malformedInput (unknown tag))

def decode (layout : Layout α) (bs : Bytes) : Except Error α := do
  let (a, c) ← layout.read (.start bs)
  c.finish
  return a

end Layout
end ThresholdCipher
