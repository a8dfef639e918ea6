import LenientMime.MediaType.Lenient
import LenientMime.Multipart.PartReader

namespace LenientMime

structure Settings where
  /-- A log filter for the program that uses the library, which logs nothing itself. -/
  logFilter : Text := "warn".toList
  windowSize : Nat := Lookahead.defaultCapacity
  recordBareNames : Bool := true
deriving DecidableEq, Repr

namespace Settings

def readOptions (settings : Settings) : MediaType.ReadOptions :=
  { recordBareNames := settings.recordBareNames }

/-- The lookahead for a boundary: what the settings say, or more if the boundary
needs more. -/
def capacityFor (settings : Settings) (boundary : Text) : Nat :=
  max settings.windowSize (Multipart.peekDepth boundary)

def partReader {ρ : Type} [BlockReader ρ] (settings : Settings) (stream : ρ) (boundary : Text) :
    Except Error (Multipart.PartReader (Lookahead ρ)) :=
  let view := Lookahead.ofCapacity (settings.capacityFor boundary) stream
  Multipart.PartReader.ofSource view boundary

end Settings

end LenientMime
