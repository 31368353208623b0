import ThresholdCipher.Failure

/-
What can be wrong with a JSON text.

A text is read from front to back and the first problem met is the one reported, so a
value of the wrong type before a missing bracket is a mismatch, and the other way
round the text is malformed.
-/

namespace ThresholdCipher.Json

/-- Why a value that is JSON is not the value asked for. -/
inductive Mismatch
  /-- It is of another type or, if a number, out of range. -/
  | type
  | unknownVariant
  | repeatedField
  | missingField
  /-- A simple share without one of the parts of its proof. -/
  | missingProofPart (name : String)
  | scalarLength (found : Nat)
  | element (cause : DecodingError)
  deriving DecidableEq, Repr

/-- The text of a mismatch that concerns the meaning of a value and not its type. -/
def Mismatch.message? : Mismatch → Option String
  | .missingProofPart name => some s!"missing field `{name}`"
  | .scalarLength found => some s!"invalid length {found}, expected a 32-byte scalar"
  | .element cause => some (PrimitiveError.undecodable cause).message
  | _ => none

inductive Problem
  /-- The text is not JSON, or goes on after the value. -/
  | malformed
  /-- The text ends inside the value. -/
  | ended
  | mismatch (cause : Mismatch)
  deriving DecidableEq, Repr

end ThresholdCipher.Json
