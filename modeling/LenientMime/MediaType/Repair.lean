import LenientMime.EncodedWord.Scanner
import LenientMime.MediaType.Unquoted
import LenientMime.MediaType.Value

namespace LenientMime

/-! Repairing a broken header value.

Real mail has media types that no grammar allows: no subtype, file names with
spaces and without quotes, raw text beyond ASCII, quotes that do not match.  The
repairs are made in a fixed order, first the structure and then each value, and
line breaks go last, so that quoting still sees them as blanks.
-/

inductive TypeSlot where
  | given (essence : Text)
  | missing
deriving DecidableEq, Repr

/-- A parameter as it stands in the header.  A bare name has no value. -/
structure RawParam where
  name : Text
  value : Option Text
deriving DecidableEq, Repr

namespace TypeSlot

def defaultSubtype? (main : Text) : Option Text :=
  if main.lower = "text".toList then some "plain".toList
  else if main.lower = "application".toList then some "octet-stream".toList
  else if main.lower = "multipart".toList then some "mixed".toList
  else none

/-- The type that a text gives.  A second slash and all behind it is dropped. -/
def ofText (text : Text) : TypeSlot :=
  match (Text.pieces '/' text).map Text.trim with
  | main :: sub :: _ =>
      if !sub.isEmpty then .given (main ++ '/' :: sub)
      else
        match defaultSubtype? main with
        | some sub => .given (main ++ '/' :: sub)
        | none => .missing
  | _ => .given text

end TypeSlot

namespace Text

/-- The text before and the text after the first place where `pattern` stands. -/
def cutAt? (pattern : Text) : Text → Option (Text × Text)
  | [] => if pattern.isEmpty then some ([], []) else none
  | c :: rest =>
      match pattern.isPrefixOf? (c :: rest) with
      | some after => some ([], after)
      | none => (cutAt? pattern rest).map fun found => (c :: found.1, found.2)

/-- An encoded word at the start of a text, by its marks alone, and what follows it.
The end mark is looked for behind the encoding letter only, since a payload may
begin with an equals sign. -/
def cutEncodedName? (text : Text) : Option (Text × Text) :=
  match "=?".toList.isPrefixOf? text with
  | none => none
  | some rest =>
      match cut? '?' rest with
      | none => none
      | some (label, rest) =>
          match cut? '?' rest with
          | none => none
          | some (encoding, rest) =>
              (cutAt? "?=".toList rest).map fun found =>
                ("=?".toList ++ label ++ '?' :: encoding ++ '?' :: found.1 ++ "?=".toList,
                  found.2)

end Text

namespace RawParam

/-- The value behind an equals sign.  Anything else behind a name is ignored. -/
def valueOf? (rest : Text) : Option Text :=
  match rest.trimStart with
  | '=' :: value => some (Text.trim value)
  | _ => none

/-- The parameter that a segment between semicolons holds; an empty segment holds
none.  The name may be an encoded word. -/
def ofSegment? (codec : Codec) (segment : Text) : Option RawParam :=
  let segment := segment.trim
  if segment.isEmpty then none
  else
    match segment.cutEncodedName? with
    | some (name, rest) =>
        some { name := (name.decodeWords codec).trim.lower, value := valueOf? rest }
    | none =>
        match segment.cut? '=' with
        | some (name, value) => some { name := name.trim.lower, value := some value.trim }
        | none => some { name := segment.lower, value := none }

def firstOfName : List RawParam → List RawParam
  | [] => []
  | param :: later => param :: (firstOfName later).filter (·.name != param.name)

def ofSegments (codec : Codec) (segments : List Text) : List RawParam :=
  firstOfName ((segments.filterMap (ofSegment? codec)).filter (·.name.isToken))

end RawParam

structure RawMediaType where
  slot : TypeSlot
  params : List RawParam
deriving DecidableEq, Repr

namespace RawMediaType

/-- Cuts a header value.  One that opens with a parameter has no type. -/
def ofText (codec : Codec) (text : Text) : RawMediaType :=
  match Quoting.split ';' .outside text with
  | [] => { slot := .missing, params := [] }
  | first :: segments =>
      let essence := first.trim
      if essence.isEmpty then { slot := .missing, params := RawParam.ofSegments codec segments }
      else if essence.contains '=' then
        { slot := .missing, params := RawParam.ofSegments codec (first :: segments) }
      else { slot := TypeSlot.ofText essence, params := RawParam.ofSegments codec segments }

end RawMediaType

namespace Text

def endsInEscape (text : Text) : Bool :=
  (text.reverse.takeWhile (· == '\\')).length % 2 == 1

/-- The text behind an opening quote without its closing quote, if it has one. -/
def withoutClosingQuote (text : Text) : Text :=
  if text.getLast? = some '"' && !endsInEscape text.dropLast then text.dropLast else text

/-- Escapes every quote that no backslash escapes yet.  A backslash at the very end
is doubled. -/
def escapeQuotes : Text → Text
  | [] => []
  | ['\\'] => ['\\', '\\']
  | '\\' :: c :: rest => '\\' :: c :: escapeQuotes rest
  | '"' :: rest => '\\' :: '"' :: escapeQuotes rest
  | c :: rest => c :: escapeQuotes rest

/-- A raw parameter value as the strict grammar wants it.  Quotes are made to match;
text beyond ASCII becomes an encoded word. -/
def repairValue (codec : Codec) (raw : Text) : Text :=
  match raw with
  | '"' :: rest => '"' :: escapeQuotes (withoutClosingQuote rest) ++ ['"']
  | raw =>
      if raw.isToken then raw
      else if raw.isAscii then raw.inQuotes
      else "\"=?utf-8?b?".toList ++ ofAscii (codec.encodeBase64 raw.utf8) ++ "?=\"".toList

/-- Line feeds become spaces and carriage returns go. -/
def joinLines (text : Text) : Text :=
  text.flatMap fun c => if c == '\n' then [' '] else if c == '\r' then [] else [c]

end Text

end LenientMime
