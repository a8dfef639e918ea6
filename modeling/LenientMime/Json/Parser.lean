import LenientMime.Json.Basic
import LenientMime.Json.Token

namespace LenientMime.Json

inductive Frame where
  | array (elements : List Json)
  /-- The name is that of the member whose value is being read. -/
  | object (members : List (Option Text × Json)) (name : Option Text)

mutual

def readValue? : List Frame → List Token → Option Json
  | stack, .null :: later => finishValue? .null stack later
  | stack, .bool value :: later => finishValue? (.bool value) stack later
  | stack, .number :: later => finishValue? .number stack later
  | stack, .string text :: later => finishValue? (.string text) stack later
  | stack, .leftBracket :: .rightBracket :: later => finishValue? (.array []) stack later
  | stack, .leftBracket :: later => readValue? (.array [] :: stack) later
  | stack, .leftBrace :: .rightBrace :: later => finishValue? (.object []) stack later
  | stack, .leftBrace :: .string name :: .colon :: later =>
      readValue? (.object [] name :: stack) later
  | _, _ => none

def finishValue? : Json → List Frame → List Token → Option Json
  | value, [], [] => some value
  | value, .array elements :: stack, .comma :: later =>
      readValue? (.array (value :: elements) :: stack) later
  | value, .array elements :: stack, .rightBracket :: later =>
      finishValue? (.array (value :: elements).reverse) stack later
  | value, .object members name :: stack, .comma :: .string next :: .colon :: later =>
      readValue? (.object ((name, value) :: members) next :: stack) later
  | value, .object members name :: stack, .rightBrace :: later =>
      finishValue? (.object ((name, value) :: members).reverse) stack later
  | _, _, _ => none

end

/-- The value that a text spells, with nothing but whitespace around it. -/
def parse? (text : Text) : Option Json :=
  (tokens? text).bind (readValue? [])

end LenientMime.Json
