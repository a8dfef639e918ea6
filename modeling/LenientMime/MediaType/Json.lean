import LenientMime.Json.Parser
import LenientMime.Json.Printer
import LenientMime.MediaType.Basic

namespace LenientMime.MediaType

def essenceKey : Text := "essence".toList

def paramsKey : Text := "params".toList

def bareNamesKey : Text := "rejected".toList

private def text? : Json → Option Text
  | .string text => text
  | _ => none

private def texts? : Json → Option (List Text)
  | .array elements => elements.mapM text?
  | _ => none

private def pairs? : Json → Option (List (Text × Text))
  | .object members => members.mapM fun member =>
      match member.1, text? member.2 with
      | some name, some value => some (name, value)
      | _, _ => none
  | _ => none

private def ofFields? (essence params bareNames : Json) : Option MediaType :=
  match text? essence, pairs? params, texts? bareNames with
  | some essence, some params, some bareNames =>
      some { essence, params := Params.ofList params, bareNames }
  | _, _, _ => none

private def onlyMember? (name : Text) (members : List (Option Text × Json)) : Option Json :=
  match members.filter (·.1 == some name) with
  | [member] => some member.2
  | _ => none

def ofJson? : Json → Option MediaType
  | .array [essence, params, bareNames] => ofFields? essence params bareNames
  | .object members =>
      if members.all (·.1.isSome) then
        match onlyMember? essenceKey members, onlyMember? paramsKey members,
            onlyMember? bareNamesKey members with
        | some essence, some params, some bareNames => ofFields? essence params bareNames
        | _, _, _ => none
      else none
  | _ => none

def readJson? (text : Text) : Option MediaType :=
  (Json.parse? text).bind ofJson?

def renderJson (media : MediaType) : Text :=
  Json.renderObject [
    (essenceKey, Json.renderString media.essence),
    (paramsKey, Json.renderObject (media.params.map fun param =>
      (param.1, Json.renderString param.2))),
    (bareNamesKey, Json.renderArray (media.bareNames.map Json.renderString))]

end LenientMime.MediaType
