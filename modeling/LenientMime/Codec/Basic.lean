import LenientMime.Charset.Basic

namespace LenientMime

/-! What the library leaves to others.

Base64 and the charsets come from outside.  Everything that reads or writes encoded
words or extended values takes a codec, and nothing is known of a codec but what is
stated where it is used.
-/

structure Codec where
  encodeBase64 : Bytes → Bytes
  decodeBase64? : Bytes → Option Bytes
  /-- The charset of a label, which has no blanks around it. -/
  charset? : Text → Option Charset
  /-- Bytes in a charset as text, if they are well-formed.  A byte order mark is a
  character like any other. -/
  decode? : Charset → Bytes → Option Text

end LenientMime
