import ThresholdCipher.Json.Format

/-
Records: values with named fields.

A record is written as an object with its fields in order.  It is read from an object
with the fields in any order, each at most once, where other members are passed
over; or from an array of all the fields in order.  A field may be left out if
something stands for its absence.
-/

namespace ThresholdCipher.Json

/-- A named part of a record.  `write` gives `none` for what is left out. -/
structure Field (α : Type) where
  name : String
  write : α → Except Failure (Option Bytes)
  read : Bytes → Except Problem (α × Bytes)
  absent : Option α

namespace Field

variable {α : Type}

/-- A field that must be there. -/
def required (name : String) (format : Format α) : Field α where
  name := name
  write a := do return some (← format.write a)
  read := format.read
  absent := none

/-- A field that is left out if it has no value. -/
def optional (name : String) (format : Format α) : Field (Option α) where
  name := name
  write
    | some a => do return some (← format.write a)
    | none => .ok none
  read := format.nullable.read
  absent := some none

/-- The value of a field that was read or not. -/
def value (field : Field α) : Option α → Except Problem α
  | some a => .ok a
  | none =>
    match field.absent with
    | some a => .ok a
    | none => .error (.mismatch .missingField)

end Field

/-- The fields of a record, whose value is the tuple of their values. -/
inductive Record : Type → Type 1
  | done : Record Unit
  | field {α β : Type} (first : Field α) (rest : Record β) : Record (α × β)

/-- The key of the next member of an object, or `none` at the end of the object. -/
def nextMember (first : Bool) (s : Bytes) : Except Problem (Option Bytes × Bytes) :=
  match skipSpace s with
  | [] => .error .ended
  | b :: rest =>
    if b = closeBrace then .ok (none, rest)
    else
      let member (s : Bytes) : Except Problem (Option Bytes × Bytes) := do
        let (key, s) ← string (← punctuation quote s)
        return (some key, s)
      if first then member (b :: rest)
      else if b = comma then member rest
      else .error .malformed

namespace Record

/-- For each field the value that was read, if it was. -/
def Slots : {α : Type} → Record α → Type
  | _, done => Unit
  | _, @field α _ _ rest => Option α × rest.Slots

def empty : {α : Type} → (record : Record α) → record.Slots
  | _, done => ()
  | _, field _ rest => (none, rest.empty)

/-- Reads the value after a key into the slot of its field; the value of an unknown key is
passed over. -/
def readMember (key s : Bytes) :
    {α : Type} → (record : Record α) → record.Slots → Except Problem (record.Slots × Bytes)
  | _, done, slots => do return (slots, ← skipValue (← punctuation colon s))
  | _, field first rest, slots =>
    let (slot, others) : Option _ × rest.Slots := slots
    if Bytes.ofText first.name = key then
      if slot.isSome then .error (.mismatch .repeatedField)
      else do
        let (a, s) ← first.read (← punctuation colon s)
        return ((some a, others), s)
    else do
      let (others, s) ← rest.readMember key s others
      return ((slot, others), s)

def value : {α : Type} → (record : Record α) → record.Slots → Except Problem α
  | _, done, _ => .ok ()
  | _, field first rest, slots => do
    let (slot, others) : Option _ × rest.Slots := slots
    let a ← first.value slot
    let as ← rest.value others
    return (a, as)

/-- The members up to the end of an object, in at most as many steps as given. -/
def readMembers {α : Type} (record : Record α) :
    Nat → Bool → record.Slots → Bytes → Except Problem (record.Slots × Bytes)
  | 0, _, _, _ => .error .ended
  | steps + 1, first, slots, s => do
    match ← nextMember first s with
    | (some key, s) =>
      let (slots, s) ← record.readMember key s slots
      readMembers record steps false slots s
    | (none, s) => return (slots, s)

/-- The fields from an array. -/
def readElements : {α : Type} → (record : Record α) → Bool → Bytes → Except Problem (α × Bytes)
  | _, done, _, s => .ok ((), s)
  | _, field head rest, first, s => do
    let (more, s) ← nextElement first s
    if more then
      let (a, s) ← head.read s
      let (as, s) ← rest.readElements false s
      return ((a, as), s)
    else
      let a ← head.value none
      let (as, s) ← rest.readElements first s
      return ((a, as), s)

def members : {α : Type} → Record α → α → Except Failure (List Bytes)
  | _, done, _ => .ok []
  | _, field first rest, (a, as) => do
    let written ← first.write a
    let others ← rest.members as
    match written with
    | some bs => return (writeString first.name ++ colon :: bs) :: others
    | none => return others

def format {α : Type} (record : Record α) : Format α where
  write a := do return openBrace :: separated (← record.members a) ++ [closeBrace]
  read s :=
    match skipSpace s with
    | [] => .error .ended
    | b :: rest =>
      if b = openBracket then do
        let (a, s) ← record.readElements true rest
        return (a, ← punctuation closeBracket s)
      else if b = openBrace then do
        let (slots, s) ← record.readMembers (rest.length + 1) true record.empty rest
        return (← record.value slots, s)
      else .error (wrongType b rest)

end Record
end ThresholdCipher.Json
