import LenientMime.Toml.Decimal

namespace LenientMime.Toml

/-- What follows a number of exactly `count` digits within a range. -/
def skipNumber? (count least greatest : Nat) (text : Text) : Option Text :=
  let digits := text.take count
  let value := ofDigits 10 digits
  if digits.length = count ∧ digits.all Char.isDigit ∧ least ≤ value ∧ value ≤ greatest then
    some (text.drop count)
  else none

def skipChar? (wanted : Char) : Text → Option Text
  | [] => none
  | c :: rest => if c = wanted then some rest else none

def isLeapYear (year : Nat) : Bool :=
  year % 4 = 0 && (year % 100 != 0 || year % 400 = 0)

def daysInMonth (year month : Nat) : Nat :=
  match month with
  | 2 => if isLeapYear year then 29 else 28
  | 4 | 6 | 9 | 11 => 30
  | _ => 31

def skipDate? (text : Text) : Option Text := do
  let year := ofDigits 10 (text.take 4)
  let text ← skipNumber? 4 0 9999 text
  let text ← skipChar? '-' text
  let month := ofDigits 10 (text.take 2)
  let text ← skipNumber? 2 1 12 text
  let text ← skipChar? '-' text
  skipNumber? 2 1 (daysInMonth year month) text

def skipFraction : Text → Text
  | '.' :: c :: rest => if c.isDigit then rest.dropWhile Char.isDigit else '.' :: c :: rest
  | text => text

def skipClock? (text : Text) : Option Text := do
  let text ← skipNumber? 2 0 23 text
  let text ← skipChar? ':' text
  skipNumber? 2 0 59 text

/-- What follows a time of day, which may be a leap second. -/
def skipTime? (text : Text) : Option Text := do
  let text ← skipClock? text
  let text ← skipChar? ':' text
  let text ← skipNumber? 2 0 60 text
  return skipFraction text

def skipOffset (text : Text) : Text :=
  match text with
  | 'Z' :: rest | 'z' :: rest => rest
  | '+' :: rest | '-' :: rest => (skipClock? rest).getD text
  | text => text

def skipTimeOfDate (text : Text) : Text :=
  match text with
  | 'T' :: rest | 't' :: rest | ' ' :: rest =>
      match skipTime? rest with
      | some rest => skipOffset rest
      | none => text
  | text => text

def skipDateTime? (text : Text) : Option Text :=
  match skipDate? text with
  | some rest => some (skipTimeOfDate rest)
  | none => skipTime? text

end LenientMime.Toml
