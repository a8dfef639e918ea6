import LenientMime.MediaType.Repair
import LenientMime.MediaType.Strict

namespace LenientMime.MediaType

structure ReadOptions where
  /-- Report names that stand without a value.  They are dropped otherwise. -/
  recordBareNames : Bool := true
deriving DecidableEq, Repr

def placeholderEssence : Text :=
  "application/octet-stream".toList

def strictEssence : TypeSlot → Text
  | .given essence => essence
  | .missing => placeholderEssence

def resultEssence (strict : Text) : TypeSlot → Text
  | .given _ => strict
  | .missing => []

/-- A repaired parameter as text that the grammar can read.  A bare name gives none. -/
def repairedParam (codec : Codec) (param : RawParam) : Text :=
  match param.value with
  | some value => "; ".toList ++ param.name ++ '=' :: value.repairValue codec
  | none => []

def repairedText (codec : Codec) (raw : RawMediaType) : Text :=
  Text.joinLines (strictEssence raw.slot ++ raw.params.flatMap (repairedParam codec))

def bareNamesOf (raw : RawMediaType) : List Text :=
  (raw.params.filter (·.value.isNone)).map RawParam.name

def readWith (options : ReadOptions) (text : Text) (codec : Codec := .standard) :
    Except Error MediaType :=
  let raw := RawMediaType.ofText codec text.withoutTags
  match readStrict (repairedText codec raw) codec with
  | .error .noMediaType => .ok {}
  | .error error => .error error
  | .ok strict =>
      let params := strict.params.map fun param => (param.1, param.2.decodeWords codec)
      let bareNames := if options.recordBareNames then bareNamesOf raw else []
      .ok {
        essence := resultEssence strict.essence raw.slot
        params
        bareNames := bareNames.filter fun name => (Params.get? params name).isNone }

def read (text : Text) (codec : Codec := .standard) : Except Error MediaType :=
  readWith {} text codec

end LenientMime.MediaType
