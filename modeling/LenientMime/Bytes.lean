namespace LenientMime

abbrev Bytes := List UInt8

namespace Byte

@[match_pattern] abbrev tab : UInt8 := 0x09

@[match_pattern] abbrev lineFeed : UInt8 := 0x0A

@[match_pattern] abbrev carriageReturn : UInt8 := 0x0D

@[match_pattern] abbrev space : UInt8 := 0x20

@[match_pattern] abbrev percent : UInt8 := 0x25

@[match_pattern] abbrev dash : UInt8 := 0x2D

@[match_pattern] abbrev equals : UInt8 := 0x3D

@[match_pattern] abbrev underscore : UInt8 := 0x5F

/-- Space, tab and both halves of a line break: what may pad a delimiter line
and what folds an encoded body. -/
def isSpacing (byte : UInt8) : Bool :=
  byte == space || byte == tab || byte == carriageReturn || byte == lineFeed

def isPrintable (byte : UInt8) : Bool :=
  space ≤ byte && byte ≤ 0x7E

def hexValue? (byte : UInt8) : Option UInt8 :=
  if 0x30 ≤ byte && byte ≤ 0x39 then some (byte - 0x30)
  else if 0x41 ≤ byte && byte ≤ 0x46 then some (byte - 0x41 + 10)
  else if 0x61 ≤ byte && byte ≤ 0x66 then some (byte - 0x61 + 10)
  else none

def isHexDigit (byte : UInt8) : Bool :=
  (hexValue? byte).isSome

/-- The byte that two hexadecimal digits spell, the high half first. -/
def ofHexPair? (high low : UInt8) : Option UInt8 :=
  match hexValue? high, hexValue? low with
  | some upper, some lower => some (upper * 16 + lower)
  | _, _ => none

def hexDigit (value : UInt8) : UInt8 :=
  if value < 10 then 0x30 + value else 0x37 + value

def hexPair (byte : UInt8) : Bytes :=
  [hexDigit (byte / 16), hexDigit (byte % 16)]

end Byte

end LenientMime
