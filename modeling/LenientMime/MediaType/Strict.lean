import LenientMime.MediaType.Extended
import LenientMime.MediaType.Value

namespace LenientMime

/-- What is wrong with an essence that has been lower-cased, if anything is. -/
def essenceError? (essence : Text) : Option Error :=
  match essence.token with
  | ([], _) => some .noMediaType
  | (_, []) => none
  | (main, c :: rest) =>
      if c != '/' then some (.invalidMediaType (.missingSlash main essence))
      else
        match Text.token rest with
        | ([], _) => some (.invalidMediaType (.missingSubtype essence))
        | (_, []) => none
        | (_, rest) => some (.invalidMediaType (.trailing rest essence))

/-- A parameter as it was read: its lower-cased name and its value. -/
structure Param where
  name : Text
  value : Text
deriving DecidableEq, Repr

namespace Param

def skip? (separator : Char) : Text → Option Text
  | [] => none
  | c :: rest => if c == separator then some (Text.trimStart rest) else none

def read? (text : Text) : Option (Param × Text) :=
  match skip? ';' text.trimStart with
  | none => none
  | some text =>
      match text.token with
      | ([], _) => none
      | (c :: name, rest) =>
          match skip? '=' rest.trimStart with
          | none => none
          | some rest =>
              (Text.readValue? rest).map fun found =>
                ({ name := Text.lower (c :: name), value := found.1 }, found.2)

theorem length_of_skip {separator : Char} {text rest : Text}
    (skipped : skip? separator text = some rest) : rest.length < text.length := by
  cases text with
  | nil => simp [skip?] at skipped
  | cons c after =>
      simp only [skip?] at skipped
      split at skipped
      · obtain rfl := by simpa using skipped
        exact Nat.lt_succ_of_le (Text.length_trimStart_le after)
      · simp at skipped

theorem length_of_read {text rest : Text} {param : Param}
    (found : read? text = some (param, rest)) : rest.length < text.length := by
  simp only [read?] at found
  split at found
  · simp at found
  · next afterSemicolon semicolon =>
    have := length_of_skip semicolon
    have := text.length_trimStart_le
    split at found
    · simp at found
    · next c name afterName token =>
      have named := afterSemicolon.length_of_token_le
      rw [token] at named
      split at found
      · simp at found
      · next afterEquals equals =>
        have := length_of_skip equals
        have := afterName.length_trimStart_le
        obtain ⟨_, value, -, rfl⟩ := by simpa using found
        have := Text.length_of_readValue value
        simp only at named
        omega

end Param

namespace Params

/-- Reads parameters to the end of a text, after those that were read before.  A
name may occur again with the value it has. -/
def readFrom (seen : Params) (text : Text) : Except Error Params :=
  if text.trimStart.isEmpty then .ok seen
  else
    match _ : Param.read? text.trimStart with
    | none =>
        if text.trim == [';'] then .ok seen
        else .error (.invalidParameter (.malformed text.trimStart))
    | some (param, rest) =>
        match seen.get? param.name with
        | none => readFrom (seen.insert param.name param.value) rest
        | some value =>
            if value = param.value then readFrom seen rest
            else .error (.invalidParameter (.conflicting param.name))
termination_by text.length
decreasing_by
  all_goals exact Nat.lt_of_lt_of_le (Param.length_of_read ‹_›) text.length_trimStart_le

end Params

namespace MediaType

def readStrict (text : Text) (codec : Codec := .standard) : Except Error MediaType :=
  let essence := (Text.trim (text.takeWhile (· != ';'))).lower
  match essenceError? essence with
  | some error => .error error
  | none =>
      match Params.readFrom [] (text.dropWhile (· != ';')) with
      | .error error => .error error
      | .ok params => .ok { essence, params := params.assemble codec }

end MediaType

end LenientMime
