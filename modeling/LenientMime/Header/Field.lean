import LenientMime.Text.Blank
import LenientMime.Text.Lines

namespace LenientMime.Header

structure Field where
  /-- Lower-cased, without blanks around it. -/
  name : Text
  value : Text
deriving DecidableEq, Repr

def isContinuation (line : Text) : Bool :=
  line.head? == some ' ' || line.head? == some '\t'

/-- Takes one more line into the fields read so far, which are given newest first.  A field
starts on a line with a colon and goes on over lines that start with a blank. -/
def addLine (fields : List Field) (line : Text) : List Field :=
  if isContinuation line then
    match fields with
    | [] => []
    | last :: earlier => { last with value := last.value ++ ' ' :: line.trim } :: earlier
  else
    match line.cut? ':' with
    | some (name, value) => { name := name.trim.lower, value := value.trim } :: fields
    | none => fields

def fields (text : Text) : List Field :=
  (text.lines.foldl addLine []).reverse

def value? (fields : List Field) (name : Text) : Option Text :=
  (fields.find? fun field => field.name.lower == name.lower).map Field.value

end LenientMime.Header
