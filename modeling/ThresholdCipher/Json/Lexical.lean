import ThresholdCipher.Bytes
import ThresholdCipher.Json.Problem

/-
Space, literals and strings of a JSON text in UTF-8.
-/

namespace ThresholdCipher.Json

def quote : UInt8 := 0x22
def backslash : UInt8 := 0x5c
def comma : UInt8 := 0x2c
def colon : UInt8 := 0x3a
def openBracket : UInt8 := 0x5b
def closeBracket : UInt8 := 0x5d
def openBrace : UInt8 := 0x7b
def closeBrace : UInt8 := 0x7d

def isSpace (b : UInt8) : Bool := b = 0x20 || b = 0x0a || b = 0x0d || b = 0x09

def skipSpace (s : Bytes) : Bytes := s.dropWhile isSpace

/-- What follows the given letters, with which the text must go on. -/
def expect : (letters s : Bytes) → Except Problem Bytes
  | [], s => .ok s
  | _ :: _, [] => .error .ended
  | l :: ls, b :: s => if b = l then expect ls s else .error .malformed

/-- What follows the byte `b`, which must come next after space. -/
def punctuation (b : UInt8) (s : Bytes) : Except Problem Bytes :=
  match skipSpace s with
  | [] => .error .ended
  | c :: rest => if c = b then .ok rest else .error .malformed

/-- What follows the literal that starts with this byte, if one does. -/
def literal? (first : UInt8) (rest : Bytes) : Option (Except Problem Bytes) :=
  if first = 'n'.toUInt8 then some (expect (Bytes.ofText "ull") rest)
  else if first = 't'.toUInt8 then some (expect (Bytes.ofText "rue") rest)
  else if first = 'f'.toUInt8 then some (expect (Bytes.ofText "alse") rest)
  else none

/-! ## Strings -/

def hexValue? (b : UInt8) : Option Nat :=
  let n := b.toNat
  if 0x30 ≤ n ∧ n ≤ 0x39 then some (n - 0x30)
  else if 0x41 ≤ n ∧ n ≤ 0x46 then some (n - 0x41 + 10)
  else if 0x61 ≤ n ∧ n ≤ 0x66 then some (n - 0x61 + 10)
  else none

/-- A number of four hexadecimal digits. -/
def hexWord : Bytes → Except Problem (Nat × Bytes)
  | a :: b :: c :: d :: rest =>
    match hexValue? a, hexValue? b, hexValue? c, hexValue? d with
    | some a, some b, some c, some d => .ok (((a * 16 + b) * 16 + c) * 16 + d, rest)
    | _, _, _, _ => .error .malformed
  | _ => .error .ended

/-- What an escape of one letter stands for. -/
def escaped? (b : UInt8) : Option UInt8 :=
  if b = quote ∨ b = backslash ∨ b = '/'.toUInt8 then some b
  else if b = 'b'.toUInt8 then some 0x08
  else if b = 'f'.toUInt8 then some 0x0c
  else if b = 'n'.toUInt8 then some 0x0a
  else if b = 'r'.toUInt8 then some 0x0d
  else if b = 't'.toUInt8 then some 0x09
  else none

/-- The character of an escape that starts with the number `high`.  Numbers of the
upper surrogate range take a second escape, and those of the lower one stand only there. -/
def escapedChar (high : Nat) (s : Bytes) : Except Problem (Char × Bytes) :=
  if 0xdc00 ≤ high ∧ high ≤ 0xdfff then .error .malformed
  else if 0xd800 ≤ high ∧ high ≤ 0xdbff then do
    let s ← expect [backslash, 'u'.toUInt8] s
    let (low, s) ← hexWord s
    if 0xdc00 ≤ low ∧ low ≤ 0xdfff then
      return (Char.ofNat (0x10000 + (high - 0xd800) * 0x400 + (low - 0xdc00)), s)
    else .error .malformed
  else .ok (Char.ofNat high, s)

/-- What a backslash and the text after it stand for. -/
def escape : Bytes → Except Problem (Bytes × Bytes)
  | [] => .error .ended
  | b :: s =>
    if b = 'u'.toUInt8 then do
      let (high, s) ← hexWord s
      let (c, s) ← escapedChar high s
      return (Bytes.ofText c.toString, s)
    else match escaped? b with
      | some e => .ok ([e], s)
      | none => .error .malformed

/-- The bytes of a string up to its closing quote, in at most as many steps as given. -/
def stringWithin : Nat → Bytes → Except Problem (Bytes × Bytes)
  | 0, _ => .error .ended
  | _, [] => .error .ended
  | steps + 1, b :: s =>
    if b = quote then .ok ([], s)
    else if b = backslash then do
      let (front, s) ← escape s
      let (back, s) ← stringWithin steps s
      return (front ++ back, s)
    else if b < 0x20 then .error .malformed
    else do
      let (back, s) ← stringWithin steps s
      return (b :: back, s)

/-- The bytes of a string whose opening quote has been read.  Every step takes a byte. -/
def string (s : Bytes) : Except Problem (Bytes × Bytes) := stringWithin (s.length + 1) s

end ThresholdCipher.Json
