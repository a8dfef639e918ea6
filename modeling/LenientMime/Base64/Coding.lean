import LenientMime.Base64.Alphabet

namespace LenientMime.Base64

def firstByte (first second : UInt8) : UInt8 :=
  first * 4 + second / 16

def secondByte (second third : UInt8) : UInt8 :=
  second % 16 * 16 + third / 4

def thirdByte (third fourth : UInt8) : UInt8 :=
  third % 4 * 64 + fourth

def encode : Bytes → Bytes
  | [] => []
  | [a] => [symbol (a / 4), symbol (a % 4 * 16), Byte.equals, Byte.equals]
  | [a, b] => [symbol (a / 4), symbol (a % 4 * 16 + b / 16), symbol (b % 16 * 4), Byte.equals]
  | a :: b :: c :: rest =>
      symbol (a / 4) :: symbol (a % 4 * 16 + b / 16) :: symbol (b % 16 * 4 + c / 64) ::
        symbol (c % 64) :: encode rest

def isPadding (most : Nat) (rest : Bytes) : Bool :=
  rest.length ≤ most && rest.all (· == Byte.equals)

/-- Padding may be missing or short, and bits beyond the last whole byte are dropped.  Nothing
else is forgiven. -/
def decode? : Bytes → Option Bytes
  | [] => some []
  | [_] => none
  | a :: b :: rest =>
      match value? a, value? b with
      | some first, some second =>
          if isPadding 2 rest then some [firstByte first second]
          else
            match rest with
            | [] => none
            | c :: rest =>
                match value? c with
                | none => none
                | some third =>
                    if isPadding 1 rest then
                      some [firstByte first second, secondByte second third]
                    else
                      match rest with
                      | [] => none
                      | d :: rest =>
                          match value? d with
                          | none => none
                          | some fourth =>
                              (decode? rest).map fun later =>
                                firstByte first second :: secondByte second third ::
                                  thirdByte third fourth :: later
      | _, _ => none

end LenientMime.Base64
