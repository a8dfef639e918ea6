import LenientMime.Codec.Standard
import LenientMime.Text.Blank

namespace LenientMime.Charset

def aliases : List (Text × Text) := [
  ("cp932".toList, "shift_jis".toList),
  ("cp936".toList, "gbk".toList),
  ("cp949".toList, "euc-kr".toList),
  ("cp950".toList, "big5".toList),
  ("utf8mb4".toList, "utf-8".toList),
  ("unknown".toList, "windows-1252".toList),
  ("unknown-8bit".toList, "windows-1252".toList),
  ("x-unknown".toList, "windows-1252".toList)]

def unquoteLabel (label : Text) : Text :=
  ((label.dropWhile (· == '"')).reverse.dropWhile (· == '"')).reverse

/-- Blanks and double quotes around a label do not count. -/
def ofLabel? (label : Text) (codec : Codec := .standard) : Option Charset :=
  let label := (unquoteLabel label.trim).trim
  if label.isEmpty then none
  else (codec.charset? label).or ((aliases.lookup label.lower).bind codec.charset?)

end LenientMime.Charset
