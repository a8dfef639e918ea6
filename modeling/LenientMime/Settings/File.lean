import LenientMime.Settings.Basic
import LenientMime.Toml.Parser
import LenientMime.Toml.Printer

namespace LenientMime.Settings

/-- The members of a section with one known key; a missing section has none.  A
section is a table.  It is also understood as an array, which starts with the value
of the key, and a date says nothing about the key. -/
def section? (name key : Text) (document : Toml.Members) : Option Toml.Members :=
  match document.get? name with
  | none | some .dateTime | some (.array []) => some []
  | some (.table _ members) => some members
  | some (.array (value :: _)) => some [(key, value)]
  | some _ => none

def keyOr? {α : Type} (ofValue? : Toml.Value → Option α) (default : α) (key : Text)
    (members : Toml.Members) : Option α :=
  match members.get? key with
  | none => some default
  | some value => ofValue? value

def text? : Toml.Value → Option Text
  | .string text => some text
  | _ => none

/-- An integer that is not negative. -/
def size? : Toml.Value → Option Nat
  | .integer value => if 0 ≤ value then some value.toNat else none
  | _ => none

def flag? : Toml.Value → Option Bool
  | .bool value => some value
  | _ => none

def generalSection : Text := "general".toList

def readerSection : Text := "reader".toList

def mediaTypeSection : Text := "media_type".toList

def logFilterKey : Text := "log_level".toList

def windowSizeKey : Text := "peek_buffer_size".toList

def recordBareNamesKey : Text := "record_valueless_params".toList

def ofDocument? (document : Toml.Members) : Option Settings := do
  let general ← section? generalSection logFilterKey document
  let reader ← section? readerSection windowSizeKey document
  let mediaType ← section? mediaTypeSection recordBareNamesKey document
  let defaults : Settings := {}
  let logFilter ← keyOr? text? defaults.logFilter logFilterKey general
  let windowSize ← keyOr? size? defaults.windowSize windowSizeKey reader
  let recordBareNames ← keyOr? flag? defaults.recordBareNames recordBareNamesKey mediaType
  return { logFilter, windowSize, recordBareNames }

def load : Option Bytes → Except Error Settings
  | none => .error (.stream .missing)
  | some bytes =>
      match Utf8.decode? bytes with
      | none => .error (.stream .notText)
      | some text =>
          match (Toml.parse? text).bind ofDocument? with
          | some settings => .ok settings
          | none => .error .invalidSettings

/-- The same, with the defaults in place of every failure. -/
def loadOrDefault (file : Option Bytes) : Settings :=
  match load file with
  | .ok settings => settings
  | .error _ => {}

private def renderSection (name key value : Text) : Text :=
  '[' :: name ++ "]\n".toList ++ key ++ " = ".toList ++ value ++ ['\n']

private def renderFlag (flag : Bool) : Text :=
  if flag then "true".toList else "false".toList

/-- The settings as a document.  A size that no TOML integer can hold cannot be
written. -/
def render? (settings : Settings) : Option Text :=
  if settings.windowSize ≤ Toml.greatestInteger then
    some (['\n'].intercalate [
      renderSection generalSection logFilterKey (Toml.renderString settings.logFilter),
      renderSection readerSection windowSizeKey (Text.ofNat settings.windowSize),
      renderSection mediaTypeSection recordBareNamesKey (renderFlag settings.recordBareNames)])
  else none

/-- Saves settings into a file, given whether the file can be written. -/
def save? (writable : Bool) (settings : Settings) : Option Text :=
  if writable then settings.render? else none

end LenientMime.Settings
