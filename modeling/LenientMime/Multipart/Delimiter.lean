import LenientMime.Text.Utf8

namespace LenientMime.Multipart

/-! Delimiters of a multipart body.

A delimiter line starts with two dashes and the boundary, a terminator line with
two more dashes after them.  A boundary is met in two ways.  While content is read
it is recognised ahead of the reading position, together with the line break that
belongs to it.  Between parts it is recognised as the start of a whole line.
-/

def delimiter (boundary : Text) : Bytes :=
  Byte.dash :: Byte.dash :: boundary.utf8

def terminator (boundary : Text) : Bytes :=
  delimiter boundary ++ [Byte.dash, Byte.dash]

/-- The lookahead that recognising the boundary takes: a line break before the
delimiter, and two bytes after it. -/
def peekDepth (boundary : Text) : Nat :=
  boundary.utf8.length + 6

/-- Whether a delimiter may be followed by these bytes: padding, two dashes, or
nothing at all. -/
def endsDelimiter : Bytes → Bool
  | [] => true
  | Byte.dash :: Byte.dash :: _ => true
  | byte :: _ => Byte.isSpacing byte

/-- Whether the window shows the line break `lead`, the delimiter, and what may
follow it. -/
def showsDelimiter (lead delimiter window : Bytes) : Bool :=
  match (lead ++ delimiter).isPrefixOf? window with
  | some rest => endsDelimiter rest
  | none => false

/-- The line break that a delimiter after this window would start with, if one can
start here: at the start of a part no line break is needed. -/
def leadOf? (atStart : Bool) (window : Bytes) : Option Bytes :=
  match window with
  | Byte.carriageReturn :: _ => some [Byte.carriageReturn, Byte.lineFeed]
  | Byte.lineFeed :: _ => some [Byte.lineFeed]
  | _ :: _ => if atStart then some [] else none
  | [] => none

inductive LineKind where
  /-- It starts with a line break, or with the first half of one. -/
  | blank
  | terminator
  | delimiter
  /-- The source ended before the line did. -/
  | truncated
  | text
deriving DecidableEq, Repr

def LineKind.of (boundary : Text) (line : Bytes) : LineKind :=
  if line.head? == some Byte.carriageReturn || line.head? == some Byte.lineFeed then .blank
  else if (Multipart.terminator boundary).isPrefixOf line then .terminator
  else if line.getLast? != some Byte.lineFeed then .truncated
  else
    match (Multipart.delimiter boundary).isPrefixOf? line with
    | some (byte :: _) => if Byte.isSpacing byte then .delimiter else .text
    | _ => .text

theorem LineKind.of_nil (boundary : Text) : LineKind.of boundary [] = .truncated := by
  simp [LineKind.of, Multipart.terminator, Multipart.delimiter]

end LenientMime.Multipart
