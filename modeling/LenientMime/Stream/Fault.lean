import LenientMime.Text.Basic

namespace LenientMime

inductive Fault where
  | failed (reason : Text)
  /-- The stream was interrupted; the same request may be made again. -/
  | interrupted
  | peekTooDeep (wanted capacity : Nat)
  | missing
  | notText
deriving DecidableEq, Repr

namespace Fault

def message : Fault → Text
  | .failed reason => reason
  | .interrupted => "interrupted".toList
  | .peekTooDeep wanted capacity =>
      "peek of ".toList ++ Text.ofNat wanted ++ " bytes exceeds capacity ".toList ++
        Text.ofNat capacity
  | .missing => "no such file".toList
  | .notText => "stream did not contain valid UTF-8".toList

end Fault

end LenientMime
