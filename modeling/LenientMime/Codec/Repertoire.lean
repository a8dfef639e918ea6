import LenientMime.Charset.EastAsian
import LenientMime.Charset.Iso2022Jp
import LenientMime.Charset.SingleByte
import LenientMime.Charset.Utf16
import LenientMime.Codec.Basic

namespace LenientMime

/-- The charsets that the standard codec knows. -/
inductive Repertoire where
  | utf8
  | utf16be
  | utf16le
  | windows1251
  | windows1252
  | iso88592
  | iso88597
  | iso885915
  | koi8r
  | macintosh
  | userDefined
  | big5
  | eucJp
  | eucKr
  | gbk
  | gb18030
  | iso2022Jp
  | shiftJis
  /-- Labels of encodings that are unsafe to decode; it reads nothing but the
  empty string. -/
  | replacement
deriving DecidableEq, Repr

namespace Repertoire

def names : List (Repertoire × Text) := [
  (.utf8, "UTF-8".toList), (.utf16be, "UTF-16BE".toList), (.utf16le, "UTF-16LE".toList),
  (.windows1251, "windows-1251".toList), (.windows1252, "windows-1252".toList),
  (.iso88592, "ISO-8859-2".toList), (.iso88597, "ISO-8859-7".toList),
  (.iso885915, "ISO-8859-15".toList), (.koi8r, "KOI8-R".toList),
  (.macintosh, "macintosh".toList), (.userDefined, "x-user-defined".toList),
  (.big5, "Big5".toList), (.eucJp, "EUC-JP".toList), (.eucKr, "EUC-KR".toList),
  (.gbk, "GBK".toList), (.gb18030, "gb18030".toList), (.iso2022Jp, "ISO-2022-JP".toList),
  (.shiftJis, "Shift_JIS".toList), (.replacement, "replacement".toList)]

def charset (known : Repertoire) : Charset :=
  { name := (names.lookup known).getD [] }

/-- The labels of each charset, in lower case. -/
def labels : List (Repertoire × List Text) := [
  (.utf8, ["utf-8".toList, "utf8".toList, "unicode-1-1-utf-8".toList, "unicode11utf8".toList,
    "x-unicode20utf8".toList]),
  (.utf16be, ["utf-16be".toList]),
  (.utf16le, ["ucs-2".toList, "unicode".toList, "utf-16".toList, "utf-16le".toList]),
  (.windows1252, ["ansi_x3.4-1968".toList, "ascii".toList, "cp1252".toList, "iso-8859-1".toList,
    "iso8859-1".toList, "iso_8859-1:1987".toList, "l1".toList, "latin1".toList,
    "us-ascii".toList, "windows-1252".toList, "x-cp1252".toList]),
  (.windows1251, ["cp1251".toList, "windows-1251".toList]),
  (.iso88592, ["iso-8859-2".toList, "latin2".toList]),
  (.iso88597, ["greek".toList, "iso-8859-7".toList]),
  (.iso885915, ["iso-8859-15".toList, "l9".toList]),
  (.koi8r, ["koi".toList, "koi8".toList, "koi8-r".toList]),
  (.macintosh, ["mac".toList, "macintosh".toList, "x-mac-roman".toList]),
  (.userDefined, ["x-user-defined".toList]),
  (.big5, ["big5".toList, "big5-hkscs".toList]),
  (.eucJp, ["euc-jp".toList]),
  (.eucKr, ["euc-kr".toList, "ks_c_5601-1987".toList]),
  (.gbk, ["gb2312".toList, "gbk".toList]),
  (.gb18030, ["gb18030".toList]),
  (.iso2022Jp, ["iso-2022-jp".toList]),
  (.shiftJis, ["ms932".toList, "shift_jis".toList, "sjis".toList, "windows-31j".toList]),
  (.replacement, ["hz-gb-2312".toList, "iso-2022-cn".toList, "iso-2022-kr".toList,
    "replacement".toList])]

def ofLabel? (label : Text) : Option Repertoire :=
  (labels.find? fun entry => entry.2.contains label.lower).map Prod.fst

def ofCharset? (charset : Charset) : Option Repertoire :=
  (names.find? fun entry => entry.2 == charset.name).map Prod.fst

open Charset

def decode? : Repertoire → Bytes → Option Text
  | .utf8 => Utf8.decode?
  | .utf16be => Utf16.decode? true
  | .utf16le => Utf16.decode? false
  | .windows1251 => decodeSingleByte? windows1251Table
  | .windows1252 => decodeSingleByte? windows1252Table
  | .iso88592 => decodeSingleByte? iso88592Table
  | .iso88597 => decodeSingleByte? iso88597Table
  | .iso885915 => decodeSingleByte? iso885915Table
  | .koi8r => decodeSingleByte? koi8rTable
  | .macintosh => decodeSingleByte? macintoshTable
  | .userDefined => decodeSingleByte? userDefinedTable
  | .big5 => decodeBig5?
  | .eucJp => decodeEucJp?
  | .eucKr => decodeEucKr?
  | .gbk | .gb18030 => decodeGb18030?
  | .iso2022Jp => decodeIso2022Jp?
  | .shiftJis => decodeShiftJis?
  | .replacement => fun bytes => if bytes.isEmpty then some [] else none

end Repertoire

end LenientMime
