import ThresholdCipher.Json.Number

/-
Passing over a value of any kind.

Values nest without bound, so the open arrays and objects are kept in a list.  Strings
and numbers are checked for their form alone: an escape may name any 16-bit number,
and a number may be of any size.
-/

namespace ThresholdCipher.Json

/-- What follows the string whose opening quote has been read, in at most as many steps as
given. -/
def skipStringWithin : Nat → Bytes → Except Problem Bytes
  | 0, _ => .error .ended
  | _, [] => .error .ended
  | steps + 1, b :: s =>
    if b = quote then .ok s
    else if b = backslash then
      match s with
      | [] => .error .ended
      | e :: s =>
        if e = 'u'.toUInt8 then do
          let (_, s) ← hexWord s
          skipStringWithin steps s
        else if (escaped? e).isSome then skipStringWithin steps s
        else .error .malformed
    else if b < 0x20 then .error .malformed
    else skipStringWithin steps s

def skipString (s : Bytes) : Except Problem Bytes := skipStringWithin (s.length + 1) s

def skipDigits (s : Bytes) : Except Problem Bytes :=
  if startsWithDigit s then .ok (s.dropWhile isDigit) else .error .malformed

def skipExponent (s : Bytes) : Except Problem Bytes :=
  match s with
  | b :: rest => skipDigits (if b = '+'.toUInt8 ∨ b = '-'.toUInt8 then rest else s)
  | [] => .error .malformed

def skipEnding (s : Bytes) : Except Problem Bytes :=
  match s with
  | b :: rest => if b = 'e'.toUInt8 ∨ b = 'E'.toUInt8 then skipExponent rest else .ok s
  | [] => .ok s

def skipNumber (s : Bytes) : Except Problem Bytes := do
  let rest ← skipDigits s
  if s.head? = some '0'.toUInt8 ∧ startsWithDigit (s.drop 1) then .error .malformed
  else
    match rest with
    | b :: fraction =>
      if b = '.'.toUInt8 then skipEnding (← skipDigits fraction) else skipEnding rest
    | [] => return rest

/-- An array or an object that has not been closed. -/
inductive Frame
  | array
  | object
  deriving DecidableEq

def Frame.close : Frame → UInt8
  | array => closeBracket
  | object => closeBrace

/-- What follows a key and its colon. -/
def skipKey (s : Bytes) : Except Problem Bytes := do
  punctuation colon (← skipString (← punctuation quote s))

/-- To the next value of a frame, which in an object comes after its key. -/
def Frame.next (frame : Frame) (s : Bytes) : Except Problem Bytes :=
  match frame with
  | array => .ok s
  | object => skipKey s

mutual

/-- Passes over a value and closes the frames around it, in at most as many steps as given. -/
def skipWithin : Nat → List Frame → Bytes → Except Problem Bytes
  | 0, _, _ => .error .ended
  | steps + 1, frames, s =>
    match skipSpace s with
    | [] => .error .ended
    | b :: rest =>
      if b = openBracket then skipOpened steps .array frames rest
      else if b = openBrace then skipOpened steps .object frames rest
      else if b = quote then do skipClosing steps frames (← skipString rest)
      else if b = '-'.toUInt8 then do skipClosing steps frames (← skipNumber rest)
      else if isDigit b then do skipClosing steps frames (← skipNumber (b :: rest))
      else match literal? b rest with
        | some rest => do skipClosing steps frames (← rest)
        | none => .error .malformed

def skipOpened : Nat → Frame → List Frame → Bytes → Except Problem Bytes
  | 0, _, _, _ => .error .ended
  | steps + 1, frame, frames, s =>
    match skipSpace s with
    | [] => .error .ended
    | b :: rest =>
      if b = frame.close then skipClosing steps frames rest
      else do skipWithin steps (frame :: frames) (← frame.next (b :: rest))

def skipClosing : Nat → List Frame → Bytes → Except Problem Bytes
  | 0, _, _ => .error .ended
  | _, [], s => .ok s
  | steps + 1, frame :: frames, s =>
    match skipSpace s with
    | [] => .error .ended
    | b :: rest =>
      if b = comma then do skipWithin steps (frame :: frames) (← frame.next rest)
      else if b = frame.close then skipClosing steps frames rest
      else .error .malformed

end

/-- What follows the next value.  Every second step takes a byte. -/
def skipValue (s : Bytes) : Except Problem Bytes := skipWithin (2 * s.length + 2) [] s

end ThresholdCipher.Json
