import LenientMime.Bytes

namespace LenientMime.Header

/-- Header and body of bytes that start at the start of a line or within one. -/
def splitFrom : Bool → Bytes → Bytes × Bytes
  | _, [] => ([], [])
  | true, Byte.lineFeed :: rest => ([], rest)
  | true, Byte.carriageReturn :: Byte.lineFeed :: rest => ([], rest)
  | _, byte :: rest =>
      let (header, body) := splitFrom (byte == Byte.lineFeed) rest
      (byte :: header, body)

/-- The header block and the offset of the body.  Without an empty line all of it is
header and the body starts at the end. -/
def splitBlock (bytes : Bytes) : Bytes × Nat :=
  let (header, body) := splitFrom true bytes
  (header, bytes.length - body.length)

end LenientMime.Header
