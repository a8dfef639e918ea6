import LenientMime.Base64.Coding
import LenientMime.Codec.Repertoire

namespace LenientMime

/-- The codec that the library runs with when it is given no other.  Its repertoire is
a choice of the charsets that mail uses. -/
def Codec.standard : Codec where
  encodeBase64 := Base64.encode
  decodeBase64? := Base64.decode?
  charset? label := (Repertoire.ofLabel? label).map Repertoire.charset
  decode? charset bytes := (Repertoire.ofCharset? charset).bind (·.decode? bytes)

end LenientMime
