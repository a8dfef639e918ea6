import LenientMime.Bytes

namespace LenientMime.QuotedPrintable

/-! Quoted-printable text as pieces.

Sloppy quoted-printable is cut into pieces, each of which has one valid spelling:
an escape as it was written, the equals sign of a soft line break, an equals sign
that means itself, a byte that may stand as it is, and a byte that may not.
`mend` spells the pieces out and breaks lines that grow too long.
-/

inductive Piece where
  | escape (high low : UInt8)
  /-- An equals sign directly before a line break; the line break is not part of
  the piece. -/
  | softBreak
  /-- An equals sign that begins nothing. -/
  | stray
  | plain (byte : UInt8)
  | octet (byte : UInt8)
deriving DecidableEq, Repr

namespace Piece

def ofEquals : Bytes → Piece
  | Byte.lineFeed :: _ => .softBreak
  | Byte.carriageReturn :: Byte.lineFeed :: _ => .softBreak
  | high :: low :: _ =>
      if Byte.isHexDigit high && Byte.isHexDigit low then .escape high low else .stray
  | _ => .stray

def ofByte (byte : UInt8) : Piece :=
  if Byte.isPrintable byte || byte == Byte.tab || byte == Byte.carriageReturn ||
      byte == Byte.lineFeed then .plain byte
  else .octet byte

/-- The bytes a piece takes after its first one. -/
def extra : Piece → Nat
  | .escape _ _ => 2
  | _ => 0

def spelling : Piece → Bytes
  | .escape high low => [Byte.equals, high, low]
  | .softBreak => [Byte.equals]
  | .stray => Byte.equals :: Byte.hexPair Byte.equals
  | .plain byte => [byte]
  | .octet byte => Byte.equals :: Byte.hexPair byte

end Piece

def pieces : Bytes → List Piece
  | [] => []
  | byte :: rest =>
      let piece := if byte == Byte.equals then Piece.ofEquals rest else Piece.ofByte byte
      piece :: pieces (rest.drop piece.extra)
termination_by bytes => bytes.length
decreasing_by
  simp only [List.length_drop, List.length_cons]
  omega

/-- The most bytes of content on a line.  With a soft line break after them the
line stays within the 998 bytes that mail transports allow. -/
def lineLimit : Nat := 995

def softLineBreak : Bytes :=
  [Byte.equals, Byte.carriageReturn, Byte.lineFeed]

/-- The spelling of a piece on a line that holds `length` bytes of content, and the
content of the line behind it.  Line breaks, and the equals sign that belongs to
one, never make a line too long. -/
def place (length : Nat) (piece : Piece) : Bytes × Nat :=
  if piece = .plain Byte.lineFeed then (piece.spelling, 0)
  else if piece = .plain Byte.carriageReturn ∨ piece = .softBreak then (piece.spelling, length)
  else if lineLimit < length + piece.spelling.length then
    (softLineBreak ++ piece.spelling, piece.spelling.length)
  else (piece.spelling, length + piece.spelling.length)

/-- Spells pieces out, starting on a line that holds `length` bytes of content. -/
def layOut : Nat → List Piece → Bytes
  | _, [] => []
  | length, piece :: later => (place length piece).1 ++ layOut (place length piece).2 later

/-- Valid quoted-printable that means what the sloppy text means. -/
def mend (bytes : Bytes) : Bytes :=
  layOut 0 (pieces bytes)

theorem Piece.length_spelling_pos (piece : Piece) : 0 < piece.spelling.length := by
  cases piece <;> simp [Piece.spelling]

theorem Piece.length_spelling_le (piece : Piece) : piece.spelling.length ≤ 3 := by
  cases piece <;> simp [Piece.spelling, Byte.hexPair]

theorem length_place_pos (length : Nat) (piece : Piece) : 0 < (place length piece).1.length := by
  have := piece.length_spelling_pos
  unfold place
  repeat' split
  all_goals first | assumption | simp [softLineBreak]

theorem length_place_le (length : Nat) (piece : Piece) : (place length piece).1.length ≤ 6 := by
  have := piece.length_spelling_le
  unfold place
  repeat' split
  all_goals simp only [softLineBreak, List.length_append, List.length_cons, List.length_nil]; omega

end LenientMime.QuotedPrintable
