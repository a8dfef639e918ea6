import LenientMime.Toml.Basic
import LenientMime.Toml.Decimal

namespace LenientMime.Toml

def smallestInteger : Int := -9223372036854775808

def greatestInteger : Int := 9223372036854775807

def integer? (text : Text) : Option Int :=
  let value? : Option Int :=
    match text with
    | '0' :: 'x' :: rest => (digits? isHexDigit rest).map fun found => ofDigits 16 found
    | '0' :: 'o' :: rest =>
        (digits? (fun c => '0' ≤ c && c ≤ '7') rest).map fun found => ofDigits 8 found
    | '0' :: 'b' :: rest =>
        (digits? (fun c => c == '0' || c == '1') rest).map fun found => ofDigits 2 found
    | _ =>
        let (negative, magnitude) := cutSign text
        (whole? magnitude).map (withSign negative)
  value?.filter fun value => smallestInteger ≤ value && value ≤ greatestInteger

/-- Whether a text is a float.  Infinity has a word of its own, so a number may not
be so large that it becomes infinity; below zero nothing is too large. -/
def isFloat (text : Text) : Bool :=
  let magnitude := (cutSign text).2
  magnitude == "inf".toList || magnitude == "nan".toList ||
    match Decimal.ofText? text with
    | some number => number.negative || !number.isHuge
    | none => false

def isScalarChar (c : Char) : Bool :=
  c.isAlphanum || c == '_' || c == '+' || c == '-' || c == '.'

def scalar? (text : Text) : Option Value :=
  if text = "true".toList then some (.bool true)
  else if text = "false".toList then some (.bool false)
  else
    match integer? text with
    | some value => some (.integer value)
    | none => if isFloat text then some .float else none

end LenientMime.Toml
