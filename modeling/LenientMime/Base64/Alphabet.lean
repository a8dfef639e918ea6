import LenientMime.Bytes

namespace LenientMime.Base64

def value? (byte : UInt8) : Option UInt8 :=
  if 0x41 ≤ byte && byte ≤ 0x5A then some (byte - 0x41)
  else if 0x61 ≤ byte && byte ≤ 0x7A then some (byte - 0x61 + 26)
  else if 0x30 ≤ byte && byte ≤ 0x39 then some (byte - 0x30 + 52)
  else if byte == 0x2B then some 62
  else if byte == 0x2F then some 63
  else none

def symbol (value : UInt8) : UInt8 :=
  if value < 26 then 0x41 + value
  else if value < 52 then 0x61 + (value - 26)
  else if value < 62 then 0x30 + (value - 52)
  else if value == 62 then 0x2B
  else 0x2F

def isSymbol (byte : UInt8) : Bool :=
  (value? byte).isSome

def isIgnorable (byte : UInt8) : Bool :=
  Byte.isSpacing byte || byte == Byte.equals

def isForeign (byte : UInt8) : Bool :=
  !isSymbol byte && !isIgnorable byte

def sift (bytes : Bytes) : Bytes :=
  bytes.filter isSymbol

end LenientMime.Base64
