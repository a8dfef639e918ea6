import LenientMime.Text.Basic

namespace LenientMime.Json

def hexQuad (n : Nat) : Text :=
  let digits := Nat.toDigits 16 n
  List.replicate (4 - digits.length) '0' ++ digits

def escapeChar (c : Char) : Text :=
  match c with
  | '"' => "\\\"".toList
  | '\\' => "\\\\".toList
  | '\x08' => "\\b".toList
  | '\t' => "\\t".toList
  | '\n' => "\\n".toList
  | '\x0C' => "\\f".toList
  | '\r' => "\\r".toList
  | c => if c < ' ' then "\\u".toList ++ hexQuad c.toNat else [c]

def renderString (text : Text) : Text :=
  '"' :: text.flatMap escapeChar ++ ['"']

def commaSeparated (elements : List Text) : Text :=
  [','].intercalate elements

def renderArray (elements : List Text) : Text :=
  '[' :: commaSeparated elements ++ [']']

def renderObject (members : List (Text × Text)) : Text :=
  '{' :: commaSeparated (members.map fun member => renderString member.1 ++ ':' :: member.2) ++
    ['}']

end LenientMime.Json
