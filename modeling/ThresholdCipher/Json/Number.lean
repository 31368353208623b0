import ThresholdCipher.Json.Lexical

/-
Numbers of a JSON text.

Natural numbers below 2 ^ 64 are kept.  Of any other number only its form matters,
and that it is not too large for a floating-point number of double precision: a
number that would round to infinity is malformed.
-/

namespace ThresholdCipher.Json

/-- A number as far as it matters here. -/
inductive Number
  | natural (n : Nat)
  | other
  deriving DecidableEq, Repr

def digit? (b : UInt8) : Option Nat :=
  if 0x30 ≤ b.toNat ∧ b.toNat ≤ 0x39 then some (b.toNat - 0x30) else none

def isDigit (b : UInt8) : Bool := (digit? b).isSome

def startsWithDigit : Bytes → Bool
  | [] => false
  | b :: _ => isDigit b

/-! ## Writing -/

def decimal (n : Nat) : Bytes :=
  if n < 10 then [UInt8.ofNat (0x30 + n)] else decimal (n / 10) ++ [UInt8.ofNat (0x30 + n % 10)]

/-! ## Magnitude -/

/-- Round to 53 significant bits, a tie to the even neighbour. -/
def roundDouble (n : Nat) : Nat :=
  let unit := 1 <<< (n.log2 + 1 - 53)
  let quotient := n / unit
  let remainder := n % unit
  let up := unit < 2 * remainder ∨ unit = 2 * remainder ∧ quotient % 2 = 1
  (if up then quotient + 1 else quotient) * unit

/-- Whether `significand * 10 ^ exponent` stays finite, with both factors rounded first. -/
def isFinite (significand : Nat) (exponent : Int) : Bool :=
  if significand = 0 ∨ exponent < 0 then true
  else if 308 < exponent then false
  else roundDouble significand * roundDouble (Nat.pow 10 exponent.toNat) < 1 <<< 1024 - 1 <<< 970

def finite (significand : Nat) (exponent : Int) (rest : Bytes) :
    Except Problem (Number × Bytes) :=
  if isFinite significand exponent then .ok (.other, rest) else .error .malformed

/-! ## Reading -/

/-- Take digits into a significand as long as it stays below 2 ^ 64, and count them. -/
def significandDigits (significand count : Nat) : Bytes → Nat × Nat × Bytes
  | [] => (significand, count, [])
  | b :: s =>
    match digit? b with
    | some d =>
      if significand * 10 + d < UInt64.size then
        significandDigits (significand * 10 + d) (count + 1) s
      else (significand, count, b :: s)
    | none => (significand, count, b :: s)

def exponentDigits (exponent : Nat) : Bytes → Nat × Bytes
  | [] => (exponent, [])
  | b :: s =>
    match digit? b with
    | some d => exponentDigits (exponent * 10 + d) s
    | none => (exponent, b :: s)

/-- Whether an exponent is negative, and what follows its sign. -/
def exponentSign (s : Bytes) : Bool × Bytes :=
  match s with
  | b :: rest =>
    if b = '-'.toUInt8 then (true, rest)
    else if b = '+'.toUInt8 then (false, rest)
    else (false, s)
  | [] => (false, s)

/-- What follows the letter of an exponent, with the power of ten so far. -/
def exponentPart (significand : Nat) (power : Int) (s : Bytes) :
    Except Problem (Number × Bytes) :=
  let (negative, s) := exponentSign s
  match s with
  | [] => .error .ended
  | b :: _ =>
    if isDigit b then
      let (exponent, rest) := exponentDigits 0 s
      finite significand (if negative then power - exponent else power + exponent) rest
    else .error .malformed

/-- The end of a number that is no natural number: perhaps an exponent. -/
def ending (significand : Nat) (power : Int) (s : Bytes) : Except Problem (Number × Bytes) :=
  match s with
  | b :: rest =>
    if b = 'e'.toUInt8 ∨ b = 'E'.toUInt8 then exponentPart significand power rest
    else finite significand power s
  | [] => finite significand power s

/-- What follows the point of a fraction.  Digits that the significand cannot hold do not
count. -/
def fractionPart (significand : Nat) (power : Int) (s : Bytes) :
    Except Problem (Number × Bytes) :=
  let (significand, count, rest) := significandDigits significand 0 s
  if startsWithDigit rest then ending significand (power - count) (rest.dropWhile isDigit)
  else if count = 0 then .error (if rest.isEmpty then .ended else .malformed)
  else ending significand (power - count) rest

/-- What follows the integer part, of which `dropped` digits did not fit the significand. -/
def afterInteger (negative : Bool) (significand dropped : Nat) (s : Bytes) :
    Except Problem (Number × Bytes) :=
  let whole : Except Problem (Number × Bytes) :=
    if 0 < dropped then finite significand dropped s
    else .ok (if negative then .other else .natural significand, s)
  match s with
  | b :: rest =>
    if b = '.'.toUInt8 then fractionPart significand dropped rest
    else if b = 'e'.toUInt8 ∨ b = 'E'.toUInt8 then exponentPart significand dropped rest
    else whole
  | [] => whole

/-- A number after its sign.  Only zero itself starts with a zero. -/
def number (negative : Bool) : Bytes → Except Problem (Number × Bytes)
  | [] => .error .ended
  | b :: s =>
    match digit? b with
    | some 0 => if startsWithDigit s then .error .malformed else afterInteger negative 0 0 s
    | some d =>
      let (significand, _, rest) := significandDigits d 0 s
      afterInteger negative significand (rest.takeWhile isDigit).length (rest.dropWhile isDigit)
    | none => .error .malformed

/-- The number that starts with this byte, if one does. -/
def number? (first : UInt8) (rest : Bytes) : Option (Except Problem (Number × Bytes)) :=
  if first = '-'.toUInt8 then some (number true rest)
  else if isDigit first then some (number false (first :: rest))
  else none

end ThresholdCipher.Json
