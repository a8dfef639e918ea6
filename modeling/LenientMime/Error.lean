import LenientMime.Charset.Basic
import LenientMime.Stream.Fault
import LenientMime.Text.Quoted

namespace LenientMime

inductive TypeProblem where
  | missingSlash (main whole : Text)
  | missingSubtype (whole : Text)
  | trailing (rest whole : Text)
deriving DecidableEq, Repr

inductive ParameterProblem where
  /-- No parameter can be read at the start of the rest. -/
  | malformed (rest : Text)
  /-- The name occurs twice with different values. -/
  | conflicting (name : Text)
deriving DecidableEq, Repr

inductive Error where
  | stream (fault : Fault)
  /-- After a part, a line that is neither blank nor a delimiter. -/
  | noTerminator (delimiter line : Text)
  /-- The source cannot be looked into far enough to recognise the boundary. -/
  | windowTooSmall (needed capacity : Nat)
  | noMediaType
  | invalidMediaType (problem : TypeProblem)
  | invalidParameter (problem : ParameterProblem)
  | unsupportedCharset (label : Text)
  | malformedText (charset : Charset)
  | invalidSettings
deriving DecidableEq, Repr

namespace TypeProblem

def message : TypeProblem → Text
  | .missingSlash main whole =>
      "expected slash after ".toList ++ main.quoted ++ " in ".toList ++ whole.quoted
  | .missingSubtype whole => "expected token after slash in ".toList ++ whole.quoted
  | .trailing rest whole =>
      "unexpected ".toList ++ rest.quoted ++ " after subtype in ".toList ++ whole.quoted

end TypeProblem

namespace ParameterProblem

def message : ParameterProblem → Text
  | .malformed rest => rest
  | .conflicting name => "duplicate parameter name ".toList ++ name.quoted

end ParameterProblem

namespace Error

def message : Error → Text
  | .stream fault => "I/O error: ".toList ++ fault.message
  | .noTerminator delimiter line =>
      "expecting boundary ".toList ++ delimiter.quoted ++ ", got ".toList ++ line.quoted
  | .windowTooSmall needed capacity =>
      "peek capacity ".toList ++ Text.ofNat capacity ++ " is below the ".toList ++
        Text.ofNat needed ++ " bytes the boundary needs".toList
  | .noMediaType => "no media type".toList
  | .invalidMediaType problem => "invalid media type: ".toList ++ problem.message
  | .invalidParameter problem => "invalid media parameter: ".toList ++ problem.message
  | .unsupportedCharset label => "Unsupported encoding: ".toList ++ label
  | .malformedText charset => "malformed ".toList ++ charset.name ++ " text".toList
  | .invalidSettings => "invalid settings".toList

def isMediaTypeError : Error → Bool
  | .noMediaType | .invalidMediaType _ | .invalidParameter _ => true
  | _ => false

end Error

end LenientMime
