import LenientMime.Text.Basic

namespace LenientMime

inductive Json where
  | null
  | bool (value : Bool)
  | number
  | string (text : Option Text)
  | array (elements : List Json)
  | object (members : List (Option Text × Json))
deriving Repr

end LenientMime
