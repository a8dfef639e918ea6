import LenientMime.Charset.Convert
import LenientMime.Text.Token

namespace LenientMime

inductive EncodedWord.Encoding where
  | base64
  /-- Bytes as characters, with underscores for spaces and escapes for the rest. -/
  | quoted
deriving DecidableEq, Repr

structure EncodedWord where
  /-- The charset label, with a language behind an asterisk if one is given. -/
  label : Text
  encoding : EncodedWord.Encoding
  payload : Text
deriving DecidableEq, Repr

namespace EncodedWord

def Encoding.ofLetter? (letter : Char) : Option Encoding :=
  match letter with
  | 'B' | 'b' => some .base64
  | 'Q' | 'q' => some .quoted
  | _ => none

/-- Characters that a payload may hold: printable ASCII, but for the question mark. -/
def isPayloadChar (c : Char) : Bool :=
  ' ' ≤ c && c ≤ '~' && c != '?'

/-- The bytes of a payload in the quoted encoding.  An equals sign that begins no
escape stands for itself. -/
def unquotePayload : Bytes → Bytes
  | [] => []
  | Byte.equals :: high :: low :: rest =>
      match Byte.ofHexPair? high low with
      | some byte => byte :: unquotePayload rest
      | none => Byte.equals :: unquotePayload (high :: low :: rest)
  | byte :: rest =>
      (if byte == Byte.underscore then Byte.space else byte) :: unquotePayload rest

def bytes? (codec : Codec) (word : EncodedWord) : Option Bytes :=
  match word.encoding with
  | .base64 => codec.decodeBase64? word.payload.utf8
  | .quoted => some (unquotePayload word.payload.utf8)

def charsetLabel (word : EncodedWord) : Text :=
  word.label.takeWhile (· != '*')

def decode? (codec : Codec) (word : EncodedWord) : Option Text :=
  (word.bytes? codec).bind (codec.convert? word.charsetLabel)

end EncodedWord

end LenientMime
