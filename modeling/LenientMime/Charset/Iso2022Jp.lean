import LenientMime.Charset.EastAsian

namespace LenientMime.Charset

inductive JapaneseSet where
  | ascii
  /-- ASCII with the yen sign and the overline. -/
  | roman
  | katakana
  | double
deriving DecidableEq, Repr

namespace JapaneseSet

def ofEscape? (first second : UInt8) : Option JapaneseSet :=
  match first, second with
  | 0x28, 0x42 => some .ascii
  | 0x28, 0x4A => some .roman
  | 0x28, 0x49 => some .katakana
  | 0x24, 0x40 => some .double
  | 0x24, 0x42 => some .double
  | _, _ => none

/-- Shifts and the escape are no characters in any set. -/
def isShift (byte : UInt8) : Bool :=
  byte == 0x0E || byte == 0x0F || byte == 0x1B

def single? (set : JapaneseSet) (byte : UInt8) : Option Char :=
  match set with
  | .ascii => if isShift byte then none else ascii? byte
  | .roman =>
      if isShift byte then none
      else if byte == 0x5C then some '¥'
      else if byte == 0x7E then some '‾'
      else ascii? byte
  | .katakana => if byte ≤ 0x5F then halfwidthKatakana? (byte.toNat - 0x20) else none
  | .double => none

def pair? (lead trail : UInt8) : Option Char :=
  if 0x21 ≤ lead && lead ≤ 0x7E && 0x21 ≤ trail && trail ≤ 0x7E then
    japanese? (lead.toNat - 0x20) (trail.toNat - 0x20)
  else none

end JapaneseSet

/-- Decodes in the given set.  `escaped` says that an escape sequence ends directly
before the bytes. -/
def decodeIso2022JpFrom? (set : JapaneseSet) (escaped : Bool) : Bytes → Option Text
  | [] => some []
  | 0x1B :: first :: second :: rest =>
      match JapaneseSet.ofEscape? first second with
      | some set => if escaped then none else decodeIso2022JpFrom? set true rest
      | none => none
  | byte :: rest =>
      if set = .double then
        match rest with
        | [] => none
        | trail :: rest =>
            match JapaneseSet.pair? byte trail with
            | some c => (decodeIso2022JpFrom? set false rest).map (c :: ·)
            | none => none
      else
        match set.single? byte with
        | some c => (decodeIso2022JpFrom? set false rest).map (c :: ·)
        | none => none

def decodeIso2022Jp? (bytes : Bytes) : Option Text :=
  decodeIso2022JpFrom? .ascii false bytes

end LenientMime.Charset
