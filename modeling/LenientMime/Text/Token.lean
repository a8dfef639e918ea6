import LenientMime.Text.Basic

namespace LenientMime

/-- Characters with a meaning of their own in a structured header value. -/
def isSpecial (c : Char) : Bool :=
  "()<>@,;:\\\"/[]?=".toList.contains c

def isTokenChar (c : Char) : Bool :=
  '!' ≤ c && c ≤ '~' && !isSpecial c

namespace Text

def isToken (text : Text) : Bool :=
  !text.isEmpty && text.all isTokenChar

/-- The longest run of token characters at the start, and what follows it. -/
def token (text : Text) : Text × Text :=
  (text.takeWhile isTokenChar, text.dropWhile isTokenChar)

theorem token_append (text : Text) : text.token.1 ++ text.token.2 = text :=
  List.takeWhile_append_dropWhile

theorem isTokenChar_of_token {text : Text} {c : Char} (member : c ∈ text.token.1) :
    isTokenChar c = true :=
  List.all_eq_true.mp List.all_takeWhile c member

end Text

end LenientMime
