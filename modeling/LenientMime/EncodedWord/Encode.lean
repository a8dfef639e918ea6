import LenientMime.EncodedWord.Basic

namespace LenientMime.EncodedWord

def encodeBase64 (text : Text) (codec : Codec := .standard) : Text :=
  "=?UTF-8?B?".toList ++ Text.ofAscii (codec.encodeBase64 text.utf8) ++ "?=".toList

def isSafe (byte : UInt8) : Bool :=
  (0x41 ≤ byte && byte ≤ 0x5A) || (0x61 ≤ byte && byte ≤ 0x7A) ||
    (0x30 ≤ byte && byte ≤ 0x39) || byte == 0x21 || byte == 0x2A || byte == 0x2B ||
    byte == 0x2D || byte == 0x2F

def quoteByte (byte : UInt8) : Bytes :=
  if isSafe byte then [byte]
  else if byte == Byte.space then [Byte.underscore]
  else Byte.equals :: Byte.hexPair byte

def encodeQuoted (text : Text) : Text :=
  "=?UTF-8?Q?".toList ++ Text.ofAscii (text.utf8.flatMap quoteByte) ++ "?=".toList

end LenientMime.EncodedWord
