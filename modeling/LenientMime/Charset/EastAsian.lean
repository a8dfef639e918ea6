import LenientMime.Text.Basic

namespace LenientMime.Charset

/-! Charsets with one or two bytes for each character.

The structure of each charset is complete: which bytes stand alone, which begin a
pair, and how a pair addresses a row and a cell.  The repertoire is the syllabic
rows, which follow the order of Unicode, and a short list of single characters.
A pair outside the repertoire is unassigned, and unassigned pairs are malformed.
-/

/-- The syllabary that starts at a code point, for the cells it fills from the
first one on. -/
def syllabary? (first cells cell : Nat) : Option Char :=
  if 1 ≤ cell && cell ≤ cells then some (Char.ofNat (first + cell - 1)) else none

def hiragana? (cell : Nat) : Option Char :=
  syllabary? 0x3041 83 cell

def katakana? (cell : Nat) : Option Char :=
  syllabary? 0x30A1 86 cell

def halfwidthKatakana? (place : Nat) : Option Char :=
  syllabary? 0xFF61 63 place

/-- The Japanese set of ninety-four rows with ninety-four cells each. -/
def japanese? (row cell : Nat) : Option Char :=
  match row with
  | 4 => hiragana? cell
  | 5 => katakana? cell
  | _ => none

def simplifiedChinese? (row cell : Nat) : Option Char :=
  match row, cell with
  | 4, cell => hiragana? cell
  | 5, cell => katakana? cell
  | 54, 48 => some '中'
  | 46, 36 => some '文'
  | _, _ => none

def korean? (row cell : Nat) : Option Char :=
  match row, cell with
  | 10, cell => hiragana? cell
  | 11, cell => katakana? cell
  | 39, 49 => some '한'
  | 17, 59 => some '글'
  | 17, 27 => some '굳'
  | _, _ => none

def traditionalChinese? (lead trail : UInt8) : Option Char :=
  match lead, trail with
  | 0xA4, 0xA4 => some '中'
  | 0xA4, 0xE5 => some '文'
  | _, _ => none

def upperPlace (byte : UInt8) : Nat :=
  byte.toNat - 0xA0

def upperPair? (set : Nat → Nat → Option Char) (lead trail : UInt8) : Option Char :=
  if 0xA1 ≤ lead && 0xA1 ≤ trail then set (upperPlace lead) (upperPlace trail) else none

def decodePairs? (single : UInt8 → Option Char) (pair : UInt8 → UInt8 → Option Char) :
    Bytes → Option Text
  | [] => some []
  | byte :: rest =>
      match single byte with
      | some c => (decodePairs? single pair rest).map (c :: ·)
      | none =>
          match rest with
          | [] => none
          | trail :: rest =>
              match pair byte trail with
              | some c => (decodePairs? single pair rest).map (c :: ·)
              | none => none

def ascii? (byte : UInt8) : Option Char :=
  if byte < 0x80 then some (Char.ofNat byte.toNat) else none

def decodeBig5? : Bytes → Option Text :=
  decodePairs? ascii? traditionalChinese?

def decodeEucKr? : Bytes → Option Text :=
  decodePairs? ascii? (upperPair? korean?)

/-- A pair of EUC-JP.  The lead 0x8E introduces half-width katakana. -/
def eucJpPair? (lead trail : UInt8) : Option Char :=
  if lead == 0x8E then halfwidthKatakana? (upperPlace trail)
  else upperPair? japanese? lead trail

def decodeEucJp? : Bytes → Option Text :=
  decodePairs? ascii? eucJpPair?

/-- Bytes of Shift_JIS that stand alone: those below 0x80, 0x80 itself, and
half-width katakana. -/
def shiftJisSingle? (byte : UInt8) : Option Char :=
  if byte ≤ 0x80 then some (Char.ofNat byte.toNat)
  else if byte < 0xE0 then halfwidthKatakana? (upperPlace byte)
  else none

/-- A pair of Shift_JIS.  Leads from 0x81 to 0x9F and from 0xE0 to 0xFC hold two rows
each; trails leave out 0x7F.  Rows past the ninety-fourth are private use. -/
def shiftJisPair? (lead trail : UInt8) : Option Char :=
  if ((0x81 ≤ lead && lead ≤ 0x9F) || (0xE0 ≤ lead && lead ≤ 0xFC)) &&
      ((0x40 ≤ trail && trail ≤ 0x7E) || (0x80 ≤ trail && trail ≤ 0xFC)) then
    let leadOffset := if lead < 0xA0 then 0x81 else 0xC1
    let trailOffset := if trail < 0x7F then 0x40 else 0x41
    let place := (lead.toNat - leadOffset) * 188 + (trail.toNat - trailOffset)
    if 8836 ≤ place && place ≤ 10715 then some (Char.ofNat (0xE000 + (place - 8836)))
    else japanese? (place / 94 + 1) (place % 94 + 1)
  else none

def decodeShiftJis? : Bytes → Option Text :=
  decodePairs? shiftJisSingle? shiftJisPair?

/-- Bytes of GB 18030 that stand alone: ASCII, and the euro sign at 0x80. -/
def gb18030Single? (byte : UInt8) : Option Char :=
  if byte == 0x80 then some '€' else ascii? byte

/-- Four bytes of GB 18030 number code points: the first range of the basic plane,
and all of the planes above it. -/
def gb18030Linear? (place : Nat) : Option Char :=
  if place < 36 then some (Char.ofNat (0x80 + place))
  else if 189000 ≤ place && place ≤ 1237575 then
    some (Char.ofNat (0x10000 + (place - 189000)))
  else none

def isSequenceDigit (byte : UInt8) : Bool :=
  0x30 ≤ byte && byte ≤ 0x39

/-- A byte that may lead a pair of GB 18030, or either half of a four-byte sequence. -/
def isSequenceLead (byte : UInt8) : Bool :=
  0x81 ≤ byte && byte ≤ 0xFE

/-- The character that four bytes of GB 18030 number. -/
def gb18030Sequence? (a b c d : UInt8) : Option Char :=
  if isSequenceLead a && isSequenceLead c && isSequenceDigit d then
    let place := (((a.toNat - 0x81) * 10 + (b.toNat - 0x30)) * 126 +
      (c.toNat - 0x81)) * 10 + (d.toNat - 0x30)
    gb18030Linear? place
  else none

def decodeGb18030? : Bytes → Option Text
  | [] => some []
  | a :: rest =>
      match gb18030Single? a with
      | some c => (decodeGb18030? rest).map (c :: ·)
      | none =>
          match rest with
          | [] => none
          | b :: rest =>
              if isSequenceDigit b then
                match rest with
                | c :: d :: rest =>
                    match gb18030Sequence? a b c d with
                    | some found => (decodeGb18030? rest).map (found :: ·)
                    | none => none
                | _ => none
              else
                match upperPair? simplifiedChinese? a b with
                | some found => (decodeGb18030? rest).map (found :: ·)
                | none => none

end LenientMime.Charset
