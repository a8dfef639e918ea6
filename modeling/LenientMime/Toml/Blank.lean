import LenientMime.Text.Basic

namespace LenientMime.Toml

/-- Characters that cannot stand in a comment or in a string on one line. -/
def isControl (c : Char) : Bool :=
  (c < ' ' && c != '\t') || c == '\x7F'

def isBlankChar (c : Char) : Bool :=
  c == ' ' || c == '\t'

def skipBlanks (text : Text) : Text :=
  text.dropWhile isBlankChar

def skipLineEnds : Text → Text
  | [] => []
  | '\n' :: rest => skipLineEnds rest
  | '\r' :: '\n' :: rest => skipLineEnds rest
  | c :: rest => if isBlankChar c then skipLineEnds rest else c :: rest

def skipSpace (inComment : Bool) : Text → Text
  | [] => []
  | '\n' :: rest => skipSpace false rest
  | '\r' :: '\n' :: rest => skipSpace false rest
  | c :: rest =>
      if inComment then if isControl c then c :: rest else skipSpace true rest
      else if isBlankChar c then skipSpace false rest
      else if c == '#' then skipSpace true rest
      else c :: rest

/-- What follows the end of a line, on which nothing but a comment may be left. -/
def endLine? (text : Text) : Option Text :=
  let behindComment := match skipBlanks text with
    | '#' :: comment => comment.dropWhile fun c => !isControl c
    | rest => rest
  match behindComment with
  | [] => some []
  | '\n' :: rest | '\r' :: '\n' :: rest => some rest
  | _ => none

theorem length_skipLineEnds_le (text : Text) : (skipLineEnds text).length ≤ text.length := by
  fun_induction skipLineEnds text with
  | case1 => simp
  | case2 => simp only [List.length_cons]; omega
  | case3 => simp only [List.length_cons]; omega
  | case4 => simp only [List.length_cons]; omega
  | case5 => simp

end LenientMime.Toml
