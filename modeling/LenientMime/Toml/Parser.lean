import LenientMime.Toml.DateTime
import LenientMime.Toml.Scalar
import LenientMime.Toml.String

namespace LenientMime.Toml

/-! Reading TOML documents.

Values may hold values, and every step that reads one takes at least one character,
so the number of characters bounds the number of steps; it is what the recursive
readers count down.  How deep values nest, and how many keys a path has, is limited.
-/

def pathLimit : Nat := 79

def nestingLimit : Nat := 79

def isBareKeyChar (c : Char) : Bool :=
  c.isAlphanum || c == '_' || c == '-'

def readKeyPart? (text : Text) : Option (Text × Text) :=
  match text with
  | '"' :: rest => readBasic? rest
  | '\'' :: rest => readLiteral? rest
  | text =>
      match text.takeWhile isBareKeyChar with
      | [] => none
      | key => some (key, text.dropWhile isBareKeyChar)

/-- At most `limit` keys with dots between them, and what follows them and the blanks
behind. -/
def readPath? (limit : Nat) (text : Text) : Option (List Text × Text) :=
  match limit, readKeyPart? text with
  | 0, _ | _, none => none
  | limit + 1, some (key, rest) =>
      match skipBlanks rest with
      | '.' :: rest =>
          (readPath? limit (skipBlanks rest)).map fun found => (key :: found.1, found.2)
      | rest => some ([key], rest)

def readSimple? (text : Text) : Option (Value × Text) :=
  match readString? text, skipDateTime? text with
  | some (found, rest), _ => some (.string found, rest)
  | none, some rest => some (.dateTime, rest)
  | none, none =>
      (scalar? (text.takeWhile isScalarChar)).map fun value =>
        (value, text.dropWhile isScalarChar)

mutual

/-- A value and what follows it.  It may hold values up to `nesting` deep. -/
def readValue? : Nat → Nat → Text → Option (Value × Text)
  | 0, _, _ => none
  | _ + 1, 0, '[' :: _ | _ + 1, 0, '{' :: _ => none
  | bound + 1, nesting + 1, '[' :: rest =>
      (readElements? bound nesting (skipSpace false rest)).map fun found =>
        (.array found.1, found.2)
  | bound + 1, nesting + 1, '{' :: rest =>
      match skipBlanks rest with
      | '}' :: rest => some (.table .inlined [], rest)
      | rest =>
          (readMembers? bound nesting [] rest).map fun found => (.table .inlined found.1, found.2)
  | _ + 1, _, text => readSimple? text

/-- The elements of an array up to its closing bracket.  A comma may stand behind the
last of them. -/
def readElements? : Nat → Nat → Text → Option (List Value × Text)
  | 0, _, _ => none
  | _ + 1, _, ']' :: rest => some ([], rest)
  | bound + 1, nesting, text =>
      match readValue? bound nesting text with
      | none => none
      | some (value, rest) =>
          match skipSpace false rest with
          | ']' :: rest => some ([value], rest)
          | ',' :: rest =>
              (readElements? bound nesting (skipSpace false rest)).map fun found =>
                (value :: found.1, found.2)
          | _ => none

def readMembers? : Nat → Nat → Members → Text → Option (Members × Text)
  | 0, _, _, _ => none
  | bound + 1, nesting, members, text =>
      match readPath? pathLimit text with
      | some (path, '=' :: rest) =>
          match readValue? bound nesting (skipBlanks rest) with
          | none => none
          | some (value, rest) =>
              match members.assign? value true path, skipBlanks rest with
              | some members, '}' :: rest => some (members, rest)
              | some members, ',' :: rest => readMembers? bound nesting members (skipBlanks rest)
              | _, _ => none
      | _ => none

end

/-- The statement at the start of a text, and what follows it on its line. -/
def readStatement? (bound : Nat) (text : Text) : Option (Statement × Text) :=
  match text with
  | '[' :: '[' :: rest =>
      match readPath? pathLimit (skipBlanks rest) with
      | some (path, ']' :: ']' :: rest) => some (.element path, rest)
      | _ => none
  | '[' :: rest =>
      match readPath? pathLimit (skipBlanks rest) with
      | some (path, ']' :: rest) => some (.header path, rest)
      | _ => none
  | text =>
      match readPath? pathLimit text with
      | some (path, '=' :: rest) =>
          (readValue? bound nestingLimit (skipBlanks rest)).map fun found =>
            (.assignment path found.1, found.2)
      | _ => none

def readStatements? : Nat → Text → Option (List Statement)
  | 0, _ => none
  | bound + 1, text =>
      match skipSpace false text with
      | [] => some []
      | text =>
          match readStatement? bound text with
          | none => none
          | some (statement, rest) =>
              (endLine? rest).bind fun rest =>
                (readStatements? bound rest).map (statement :: ·)

/-- The top table of a document.  A byte order mark may stand in front of it. -/
def parse? (text : Text) : Option Members :=
  let text := match text with
    | '\uFEFF' :: rest => rest
    | text => text
  (readStatements? (text.length + 1) text).bind (build? [] [])

end LenientMime.Toml
