import ThresholdCipher.Json.Skip

/-
JSON formats of types.

A format writes a value in compact form and reads one from the front of a text.  What
is read is checked on the way: of several problems the first one in the text is
found, except that a value of the wrong type is scanned before it is refused.
-/

namespace ThresholdCipher.Json

structure Format (α : Type) where
  write : α → Except Failure Bytes
  read : Bytes → Except Problem (α × Bytes)

/-- The problem with a value that starts with `first` and is of the wrong type.  A flaw in
a literal, number or string comes before the type. -/
def wrongType (first : UInt8) (rest : Bytes) : Problem :=
  let after {α : Type} : Except Problem α → Problem
    | .error problem => problem
    | .ok _ => .mismatch .type
  if first = openBracket ∨ first = openBrace then .mismatch .type
  else if first = quote then after (string rest)
  else match number? first rest with
    | some outcome => after outcome
    | none =>
      match literal? first rest with
      | some outcome => after outcome
      | none => .malformed

/-- The problem with the next value, which is of the wrong type or missing. -/
def unsuitable (s : Bytes) : Problem :=
  match skipSpace s with
  | [] => .ended
  | first :: rest => wrongType first rest

def readNatural (bound : Nat) (s : Bytes) : Except Problem (Nat × Bytes) :=
  match skipSpace s with
  | [] => .error .ended
  | first :: rest =>
    match number? first rest with
    | some outcome => do
      match ← outcome with
      | (.natural n, s) => if n < bound then .ok (n, s) else .error (.mismatch .type)
      | (.other, _) => .error (.mismatch .type)
    | none => .error (wrongType first rest)

/-- The null literal, of which the value then has nothing to say. -/
def readNull (s : Bytes) : Except Problem Bytes :=
  match skipSpace s with
  | [] => .error .ended
  | first :: rest =>
    if first = 'n'.toUInt8 then expect (Bytes.ofText "ull") rest
    else .error (wrongType first rest)

def readString (s : Bytes) : Except Problem (Bytes × Bytes) :=
  match skipSpace s with
  | [] => .error .ended
  | first :: rest => if first = quote then string rest else .error (wrongType first rest)

def writeString (text : String) : Bytes := quote :: Bytes.ofText text ++ [quote]

/-! ## Arrays -/

/-- To the next element of an array or to its end, and whether there is an element. -/
def nextElement (first : Bool) (s : Bytes) : Except Problem (Bool × Bytes) :=
  match skipSpace s with
  | [] => .error .ended
  | b :: rest =>
    if b = closeBracket then .ok (false, b :: rest)
    else if first then .ok (true, b :: rest)
    else if b = comma then
      match skipSpace rest with
      | [] => .error .ended
      | c :: s => if c = closeBracket then .error .malformed else .ok (true, c :: s)
    else .error .malformed

/-- Bytes with a comma between one and the next. -/
def separated : List Bytes → Bytes
  | [] => []
  | [part] => part
  | part :: parts => part ++ comma :: separated parts

namespace Format

variable {α β : Type}

/-- A natural number below the bound. -/
def natural (bound : Nat) : Format Nat where
  write n := .ok (decimal n)
  read := readNatural bound

/-- A format read as another type, of which not every value need be one. -/
def refine (format : Format α) (toValue : α → Except Mismatch β)
    (ofValue : β → Except Failure α) : Format β where
  write b := do format.write (← ofValue b)
  read s := do
    let (a, s) ← format.read s
    return (← (toValue a).mapError .mismatch, s)

def convert (format : Format α) (toValue : α → β) (ofValue : β → α) : Format β :=
  format.refine (fun a => .ok (toValue a)) fun b => .ok (ofValue b)

def word64 : Format UInt64 := (natural UInt64.size).convert UInt64.ofNat UInt64.toNat

def byte : Format UInt8 := (natural UInt8.size).convert UInt8.ofNat UInt8.toNat

/-- The elements up to the end of an array, in at most as many steps as given. -/
def readElements (item : Format α) : Nat → Bool → Bytes → Except Problem (List α × Bytes)
  | 0, _, _ => .error .ended
  | steps + 1, first, s => do
    let (more, s) ← nextElement first s
    if more then
      let (a, s) ← item.read s
      let (as, s) ← readElements item steps false s
      return (a :: as, s)
    else return ([], s.drop 1)

def list (item : Format α) : Format (List α) where
  write as := do
    let parts ← as.mapM item.write
    return openBracket :: separated parts ++ [closeBracket]
  read s :=
    match skipSpace s with
    | [] => .error .ended
    | b :: rest =>
      if b = openBracket then item.readElements (rest.length + 1) true rest
      else .error (wrongType b rest)

/-- A byte string is an array of numbers. -/
def bytes : Format Bytes := list byte

def nullable (format : Format α) : Format (Option α) where
  write
    | some a => format.write a
    | none => .ok (Bytes.ofText "null")
  read s :=
    match skipSpace s with
    | b :: rest =>
      if b = 'n'.toUInt8 then do return (none, ← expect (Bytes.ofText "ull") rest)
      else do
        let (a, s) ← format.read (b :: rest)
        return (some a, s)
    | [] => .error .ended

/-- The value of a name, among those that have one. -/
def named (names : List (String × α)) (name : Bytes) : Except Problem α :=
  match names.find? fun p => Bytes.ofText p.1 = name with
  | some (_, a) => .ok a
  | none => .error (.mismatch .unknownVariant)

/-- One of finitely many values, each with a name.  It is written as the name and may also
be read from an object that gives null under it. -/
def choice (names : List (String × α)) (name : α → String) : Format α where
  write a := .ok (writeString (name a))
  read s :=
    match skipSpace s with
    | [] => .error .ended
    | b :: rest =>
      if b = quote then do
        let (key, s) ← string rest
        return (← named names key, s)
      else if b = openBrace then do
        let (key, s) ← readString rest
        let a ← named names key
        let s ← readNull (← punctuation colon s)
        return (a, ← punctuation closeBrace s)
      else .error .malformed

/-- Read a value that takes up the whole text. -/
def decode (format : Format α) (text : Bytes) : Except Problem α := do
  let (a, rest) ← format.read text
  if (skipSpace rest).isEmpty then return a else .error .malformed

end Format
end ThresholdCipher.Json
