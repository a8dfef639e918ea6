import LenientMime.Text.Basic

namespace LenientMime.Toml

/-- The digits of a number with underscores between some of them, if the form is
right. -/
def digits? (isDigit : Char → Bool) (text : Text) : Option Text :=
  let groups := Text.pieces '_' text
  if groups.all (fun group => !group.isEmpty && group.all isDigit) then some groups.flatten
  else none

def digitValue (c : Char) : Nat :=
  if c.isDigit then c.toNat - '0'.toNat
  else if 'a' ≤ c then c.toNat - 'a'.toNat + 10
  else c.toNat - 'A'.toNat + 10

def isHexDigit (c : Char) : Bool :=
  c.isDigit || ('a' ≤ c && c ≤ 'f') || ('A' ≤ c && c ≤ 'F')

def ofDigits (base : Nat) (digits : Text) : Nat :=
  digits.foldl (fun n c => n * base + digitValue c) 0

/-- A sign and what follows it; no sign is a plus. -/
def cutSign : Text → Bool × Text
  | '-' :: rest => (true, rest)
  | '+' :: rest => (false, rest)
  | rest => (false, rest)

def withSign (negative : Bool) (magnitude : Nat) : Int :=
  if negative then -(magnitude : Int) else magnitude

def whole? (text : Text) : Option Nat :=
  match digits? Char.isDigit text with
  | some ('0' :: _ :: _) => none
  | found => found.map (ofDigits 10)

/-- A number times a power of ten. -/
structure Decimal where
  negative : Bool
  significand : Nat
  exponent : Int
deriving DecidableEq, Repr

namespace Decimal

/-- The significand before an exponent, and the power of ten that its fraction
asks for. -/
def significand? (text : Text) : Option (Nat × Int) :=
  match Text.cut? '.' text with
  | none => (whole? text).map (·, 0)
  | some (whole, fraction) =>
      match whole? whole, digits? Char.isDigit fraction with
      | some whole, some fraction =>
          some (whole * Nat.pow 10 fraction.length + ofDigits 10 fraction, -fraction.length)
      | _, _ => none

/-- The power of ten that is written behind a significand; none is written as
nothing at all. -/
def exponent? : Text → Option Int
  | [] => some 0
  | _ :: text =>
      let (negative, magnitude) := cutSign text
      (digits? Char.isDigit magnitude).map fun found => withSign negative (ofDigits 10 found)

def ofText? (text : Text) : Option Decimal :=
  let (negative, magnitude) := cutSign text
  let (front, back) := magnitude.span fun c => c != 'e' && c != 'E'
  match significand? front, exponent? back with
  | some (significand, scale), some exponent =>
      if front.contains '.' || !back.isEmpty then
        some { negative, significand, exponent := scale + exponent }
      else none
  | _, _ => none

/-- The least magnitude that rounds away from the finite doubles: half a unit in the
last place above the greatest of them. -/
def overflowBound : Nat :=
  Nat.pow 2 1024 - Nat.pow 2 970

/-- Whether the magnitude reaches the bound.  The number of digits before the point
decides this but for numbers with three hundred and nine of them. -/
def isHuge (number : Decimal) : Bool :=
  let wholeDigits := (Nat.toDigits 10 number.significand).length + number.exponent
  if number.significand = 0 ∨ wholeDigits < 309 then false
  else if 309 < wholeDigits then true
  else if 0 ≤ number.exponent then
    overflowBound ≤ number.significand * Nat.pow 10 number.exponent.toNat
  else overflowBound * Nat.pow 10 (-number.exponent).toNat ≤ number.significand

end Decimal

end LenientMime.Toml
