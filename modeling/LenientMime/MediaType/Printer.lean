import LenientMime.EncodedWord.Encode
import LenientMime.MediaType.Basic
import LenientMime.MediaType.Value

namespace LenientMime

/-- A parameter value.  Tokens are written bare.  What a header cannot carry as it
is, and what would be taken for an encoded word, becomes one.  The rest is quoted. -/
def Text.headerValue (codec : Codec) (value : Text) : Text :=
  if value.isToken then value
  else if Text.holds "=?".toList value || value.any fun c => c < ' ' || '~' < c then
    '"' :: EncodedWord.encodeBase64 value codec ++ ['"']
  else value.inQuotes

namespace MediaType

/-- The header value: the essence, the parameters, and the names without a value. -/
def render (media : MediaType) (codec : Codec := .standard) : Text :=
  media.essence ++
    media.params.flatMap (fun param =>
      "; ".toList ++ param.1 ++ '=' :: param.2.headerValue codec) ++
    media.bareNames.flatMap ("; ".toList ++ ·)

end MediaType

end LenientMime
