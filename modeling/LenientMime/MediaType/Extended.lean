import LenientMime.Charset.Convert
import LenientMime.MediaType.Basic

namespace LenientMime

/-! Extended parameters.

A value beyond ASCII, or a long one, is written as `name*`, with its charset in
front and its bytes escaped, or in numbered pieces `name*0`, `name*1`, and so on,
of which some may be escaped too.  The pieces of a name are those of the longest
run from zero on.
-/

/-- Bytes in which a percent sign and two hexadecimal digits stand for a byte. -/
def percentDecode? : Bytes → Option Bytes
  | [] => some []
  | Byte.percent :: high :: low :: rest =>
      match Byte.ofHexPair? high low with
      | some byte => (percentDecode? rest).map (byte :: ·)
      | none => none
  | byte :: rest =>
      if byte == Byte.percent then none else (percentDecode? rest).map (byte :: ·)

/-- The charset label in front of an extended value, and what follows the language
behind it. -/
def splitLabel? (value : Text) : Option (Text × Text) :=
  match Text.cut? '\'' value with
  | none | some ([], _) => none
  | some (label, rest) => (Text.cut? '\'' rest).map fun found => (label, found.2)

def labelledBytes? (value : Text) : Option (Text × Bytes) :=
  match splitLabel? value with
  | none => none
  | some (label, escaped) => (percentDecode? escaped.utf8).map (label, ·)

def decodeExtended? (codec : Codec) (value : Text) : Option Text :=
  match labelledBytes? value with
  | none => none
  | some (label, bytes) => codec.convert? label bytes

inductive ExtendedPiece where
  | literal (value : Text)
  | escaped (value : Text)
deriving DecidableEq, Repr

namespace ExtendedPiece

/-- The bytes of a piece that is not the first.  A malformed piece adds nothing. -/
def laterBytes : ExtendedPiece → Bytes
  | .literal value => value.utf8
  | .escaped value => (percentDecode? value.utf8).getD []

def firstBytes : ExtendedPiece → Option Text × Bytes
  | .literal value => (none, value.utf8)
  | .escaped value =>
      match labelledBytes? value with
      | some (label, bytes) => (some label, bytes)
      | none => (none, [])

/-- The text of a run of pieces.  Without a charset the bytes are read as UTF-8. -/
def join? (codec : Codec) : List ExtendedPiece → Option Text
  | [] => none
  | first :: later =>
      let bytes := first.firstBytes.2 ++ later.flatMap laterBytes
      match first.firstBytes.1 with
      | some label => codec.convert? label bytes
      | none => some (Utf8.decodeLossy bytes)

end ExtendedPiece

namespace Params

/-- The piece with a number, the literal form of it first. -/
def piece? (params : Params) (base : Text) (number : Nat) : Option ExtendedPiece :=
  let name := base ++ '*' :: Text.ofNat number
  match params.get? name with
  | some value => some (.literal value)
  | none => (params.get? (name ++ ['*'])).map .escaped

/-- The pieces from zero on, up to the first number that is missing.  There are no
more of them than there are parameters. -/
def pieces (params : Params) (base : Text) : List ExtendedPiece :=
  let found := (List.range params.length).map (params.piece? base)
  (found.takeWhile Option.isSome).filterMap id

def extended? (codec : Codec) (params : Params) (base : Text) : Option Text :=
  match params.get? (base ++ ['*']) with
  | some value => decodeExtended? codec value
  | none => ExtendedPiece.join? codec (params.pieces base)

def extendedNames (params : Params) : List Text :=
  (params.filterMap fun param => (Text.cut? '*' param.1).map Prod.fst).filter (!·.isEmpty)

/-- Every extended parameter under its base name, in the place of a plain one. -/
def assemble (codec : Codec) (params : Params) : Params :=
  let plain := params.filter fun param => !param.1.contains '*'
  params.extendedNames.foldl (fun assembled base =>
    match params.extended? codec base with
    | some value => assembled.insert base value
    | none => assembled) plain

end Params

end LenientMime
