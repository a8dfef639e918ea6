import LenientMime.Text.Printable

namespace LenientMime.Text

def hexNumber (n : Nat) : Text :=
  Nat.toDigits 16 n

def quotedChar (c : Char) : Text :=
  match c with
  | '"' => "\\\"".toList
  | '\\' => "\\\\".toList
  | '\t' => "\\t".toList
  | '\r' => "\\r".toList
  | '\n' => "\\n".toList
  | '\x00' => "\\0".toList
  | c => if isPrintable c then [c] else "\\u\x7b".toList ++ hexNumber c.toNat ++ "\x7d".toList

def quoted (text : Text) : Text :=
  '"' :: text.flatMap quotedChar ++ ['"']

end LenientMime.Text
