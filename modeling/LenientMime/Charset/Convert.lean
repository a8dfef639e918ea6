import LenientMime.Charset.Label
import LenientMime.Error

namespace LenientMime

/-- Bytes in a labelled charset as text.  Bytes that are malformed for their charset
give no text. -/
def Charset.convert (label : Text) (bytes : Bytes) (codec : Codec := .standard) :
    Except Error Text :=
  match ofLabel? label codec with
  | none => .error (.unsupportedCharset label)
  | some charset =>
      match codec.decode? charset bytes with
      | some text => .ok text
      | none => .error (.malformedText charset)

def Codec.convert? (codec : Codec) (label : Text) (bytes : Bytes) : Option Text :=
  (Charset.convert label bytes codec).toOption

end LenientMime
