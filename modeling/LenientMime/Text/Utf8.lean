import LenientMime.Text.Basic

namespace LenientMime

def replacementChar : Char := '\uFFFD'

namespace Utf8

def encodeChar (c : Char) : Bytes :=
  let n := c.toNat
  if n < 0x80 then [UInt8.ofNat n]
  else if n < 0x800 then
    [UInt8.ofNat (0xC0 + n / 64), UInt8.ofNat (0x80 + n % 64)]
  else if n < 0x10000 then
    [UInt8.ofNat (0xE0 + n / 4096), UInt8.ofNat (0x80 + n / 64 % 64),
      UInt8.ofNat (0x80 + n % 64)]
  else
    [UInt8.ofNat (0xF0 + n / 262144), UInt8.ofNat (0x80 + n / 4096 % 64),
      UInt8.ofNat (0x80 + n / 64 % 64), UInt8.ofNat (0x80 + n % 64)]

/-- A character of which some bytes were read: `missing` more are to come, the
next of them between `low` and `high`. -/
structure Pending where
  missing : Nat
  value : Nat
  low : UInt8 := 0x80
  high : UInt8 := 0xBF
deriving DecidableEq, Repr

inductive Step where
  | char (c : Char)
  | more (pending : Pending)
  | malformed
deriving DecidableEq, Repr

def lead (byte : UInt8) : Step :=
  if byte < 0x80 then .char (Char.ofNat byte.toNat)
  else if byte < 0xC2 then .malformed
  else if byte < 0xE0 then .more { missing := 1, value := byte.toNat % 32 }
  else if byte < 0xF0 then
    .more {
      missing := 2, value := byte.toNat % 16
      low := if byte == 0xE0 then 0xA0 else 0x80
      high := if byte == 0xED then 0x9F else 0xBF }
  else if byte < 0xF5 then
    .more {
      missing := 3, value := byte.toNat % 8
      low := if byte == 0xF0 then 0x90 else 0x80
      high := if byte == 0xF4 then 0x8F else 0xBF }
  else .malformed

def Pending.next (pending : Pending) (byte : UInt8) : Step :=
  if pending.low ≤ byte && byte ≤ pending.high then
    let value := pending.value * 64 + byte.toNat % 64
    if pending.missing ≤ 1 then .char (Char.ofNat value)
    else .more { missing := pending.missing - 1, value }
  else .malformed

def step : Option Pending → UInt8 → Step
  | none, byte => lead byte
  | some pending, byte => pending.next byte

def decodeFrom? : Option Pending → Bytes → Option Text
  | none, [] => some []
  | some _, [] => none
  | pending, byte :: rest =>
      match step pending byte with
      | .char c => (decodeFrom? none rest).map (c :: ·)
      | .more pending => decodeFrom? (some pending) rest
      | .malformed => none

def decodeLossyFrom : Option Pending → Bytes → Text
  | none, [] => []
  | some _, [] => [replacementChar]
  | none, byte :: rest =>
      match lead byte with
      | .char c => c :: decodeLossyFrom none rest
      | .more pending => decodeLossyFrom (some pending) rest
      | .malformed => replacementChar :: decodeLossyFrom none rest
  | some pending, byte :: rest =>
      match pending.next byte with
      | .char c => c :: decodeLossyFrom none rest
      | .more pending => decodeLossyFrom (some pending) rest
      | .malformed =>
          -- The byte that broke the character may begin another one.
          replacementChar ::
            match lead byte with
            | .char c => c :: decodeLossyFrom none rest
            | .more pending => decodeLossyFrom (some pending) rest
            | .malformed => replacementChar :: decodeLossyFrom none rest

def decode? (bytes : Bytes) : Option Text :=
  decodeFrom? none bytes

/-- The text with one replacement character for each maximal run of bytes that
begins a character and does not complete it, and for each byte that begins none. -/
def decodeLossy (bytes : Bytes) : Text :=
  decodeLossyFrom none bytes

end Utf8

def Text.utf8 (text : Text) : Bytes :=
  text.flatMap Utf8.encodeChar

end LenientMime
