import LenientMime.Text.Utf8

namespace LenientMime.Utf16

def units (bigEndian : Bool) : Bytes → List Nat × Bool
  | [] => ([], false)
  | [_] => ([], true)
  | a :: b :: rest =>
      let (later, odd) := units bigEndian rest
      let unit := if bigEndian then a.toNat * 256 + b.toNat else b.toNat * 256 + a.toNat
      (unit :: later, odd)

def isHighSurrogate (unit : Nat) : Bool :=
  0xD800 ≤ unit && unit < 0xDC00

def isLowSurrogate (unit : Nat) : Bool :=
  0xDC00 ≤ unit && unit < 0xE000

def pair (high low : Nat) : Char :=
  Char.ofNat (0x10000 + (high - 0xD800) * 0x400 + (low - 0xDC00))

/-- The text that the units encode, if every surrogate has its partner. -/
def ofUnits? : List Nat → Option Text
  | [] => some []
  | unit :: rest =>
      if isHighSurrogate unit then
        match rest with
        | low :: rest =>
            if isLowSurrogate low then (ofUnits? rest).map (pair unit low :: ·) else none
        | [] => none
      else if isLowSurrogate unit then none
      else (ofUnits? rest).map (Char.ofNat unit :: ·)

/-- The text with a replacement character for every surrogate without a partner
and one for an unfinished end. -/
def ofUnitsLossy (odd : Bool) : List Nat → Text
  | [] => if odd then [replacementChar] else []
  | unit :: rest =>
      if isHighSurrogate unit then
        match rest with
        | low :: after =>
            if isLowSurrogate low then pair unit low :: ofUnitsLossy odd after
            else replacementChar :: ofUnitsLossy odd (low :: after)
        | [] => [replacementChar]
      else if isLowSurrogate unit then replacementChar :: ofUnitsLossy odd rest
      else Char.ofNat unit :: ofUnitsLossy odd rest

def decode? (bigEndian : Bool) (bytes : Bytes) : Option Text :=
  match units bigEndian bytes with
  | (units, false) => ofUnits? units
  | (_, true) => none

def decodeLossy (bigEndian : Bool) (bytes : Bytes) : Text :=
  let (units, odd) := units bigEndian bytes
  ofUnitsLossy odd units

end LenientMime.Utf16
