import LenientMime.Text.Basic

namespace LenientMime

/-- A charset, told by its canonical name. -/
structure Charset where
  name : Text
deriving DecidableEq, Repr

def Charset.utf8 : Charset :=
  { name := "UTF-8".toList }

end LenientMime
