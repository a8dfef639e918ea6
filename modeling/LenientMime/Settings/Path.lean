import LenientMime.Text.Basic

namespace LenientMime.Settings

def join (path component : Text) : Text :=
  if path.isEmpty || path.getLast? == some '/' then path ++ component
  else path ++ '/' :: component

/-- The directory for the settings of a user: the one that the environment names, if
it is an absolute path, and one below the home directory otherwise. -/
def userDirectory (named : Option Text) (home : Text) : Text :=
  match named with
  | some ('/' :: rest) => '/' :: rest
  | _ => join home ".config".toList

/-- The path of the settings file.  A path given outright is taken as it is. -/
def filePath (given named : Option Text) (home : Text) : Text :=
  match given with
  | some path => path
  | none => join (join (userDirectory named home) "mimesift".toList) "config.toml".toList

end LenientMime.Settings
