import LenientMime.Toml.Blank

namespace LenientMime.Toml

inductive StringForm where
  | basic
  | literal
  /-- A basic string over several lines. -/
  | basicLines
  /-- A literal string over several lines. -/
  | literalLines
deriving DecidableEq, Repr

namespace StringForm

def ofText (text : Text) : StringForm :=
  let overLines := text.contains '\n'
  let escaped : StringForm := if overLines then .basicLines else .basic
  if text.any fun c => isControl c && c != '\n' then escaped
  else if !overLines && !text.contains '"' && !text.contains '\\' then .basic
  else if !overLines && !text.contains '\'' then .literal
  else if !text.contains '\\' && !Text.holds "\"\"\"".toList text then .basicLines
  else if !Text.holds "'''".toList text then .literalLines
  else escaped

def quotes : StringForm → Text
  | .basic => ['"']
  | .literal => ['\'']
  | .basicLines => "\"\"\"".toList
  | .literalLines => "'''".toList

end StringForm

def escapeChar (c : Char) : Text :=
  match c with
  | '\x08' => "\\b".toList
  | '\t' => "\\t".toList
  | '\n' => "\\n".toList
  | '\x0C' => "\\f".toList
  | '\r' => "\\r".toList
  | '"' => "\\\"".toList
  | '\\' => "\\\\".toList
  | c =>
      if isControl c then
        let digits := (Nat.toDigits 16 c.toNat).map Char.toUpper
        "\\u".toList ++ List.replicate (4 - digits.length) '0' ++ digits
      else [c]

/-- The inside of a basic string over several lines, behind a number of quotes that
stand as they are.  Line feeds stay, and of three quotes the third is escaped. -/
def escapeLines (quotes : Nat) : Text → Text
  | [] => []
  | '\n' :: rest => '\n' :: escapeLines 0 rest
  | '"' :: rest =>
      if quotes < 2 then '"' :: escapeLines (quotes + 1) rest
      else escapeChar '"' ++ escapeLines 0 rest
  | c :: rest => escapeChar c ++ escapeLines 0 rest

/-- The inside of a string.  Where there are several lines the first starts on a line
of its own. -/
def StringForm.inside (text : Text) : StringForm → Text
  | .basic => text.flatMap escapeChar
  | .literal => text
  | .basicLines => (if text.contains '\n' then ['\n'] else []) ++ escapeLines 0 text
  | .literalLines => (if text.contains '\n' then ['\n'] else []) ++ text

def renderString (text : Text) : Text :=
  let form := StringForm.ofText text
  form.quotes ++ form.inside text ++ form.quotes

end LenientMime.Toml
