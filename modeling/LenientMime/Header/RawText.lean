import LenientMime.Charset.SingleByte
import LenientMime.Charset.Utf16

namespace LenientMime.Header

def utf8Mark : Bytes := [0xEF, 0xBB, 0xBF]

def windows1252Char (byte : UInt8) : Char :=
  (Charset.singleByteChar? Charset.windows1252Table byte).getD replacementChar

/-- A byte order mark decides.  Without one every byte is a character of windows-1252. -/
def fallbackText : Bytes → Text
  | 0xFF :: 0xFE :: rest => Utf16.decodeLossy false rest
  | 0xFE :: 0xFF :: rest => Utf16.decodeLossy true rest
  | 0xEF :: 0xBB :: 0xBF :: rest => Utf8.decodeLossy rest
  | bytes => bytes.map windows1252Char

/-- The text of raw header bytes.  One mark of UTF-8 at the start is dropped. -/
def rawText (bytes : Bytes) : Text :=
  let bytes := (utf8Mark.isPrefixOf? bytes).getD bytes
  (Utf8.decode? bytes).getD (fallbackText bytes)

end LenientMime.Header
