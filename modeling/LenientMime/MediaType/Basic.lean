import LenientMime.Text.Token

namespace LenientMime

/-- Named values, in ascending order of the names and with each name once. -/
abbrev Params := List (Text × Text)

namespace Params

def get? (params : Params) (name : Text) : Option Text :=
  params.lookup name

def insert (name value : Text) : Params → Params
  | [] => [(name, value)]
  | (key, old) :: later =>
      if name = key then (name, value) :: later
      else if name < key then (name, value) :: (key, old) :: later
      else (key, old) :: insert name value later

/-- The pairs in order of their names; of two with one name the later stays. -/
def ofList (pairs : List (Text × Text)) : Params :=
  pairs.foldl (fun params pair => params.insert pair.1 pair.2) []

@[simp] theorem get?_insert_self (name value : Text) (params : Params) :
    (params.insert name value).get? name = some value := by
  fun_induction insert name value params with
  | case1 => simp [get?]
  | case2 => simp [get?]
  | case3 => simp [get?]
  | case4 key old later distinct _ ih =>
      have passed : (name == key) = false := by simpa using distinct
      simpa [get?, List.lookup_cons, passed] using ih

theorem get?_insert_of_ne {name other : Text} (value : Text) (params : Params)
    (distinct : other ≠ name) : (params.insert name value).get? other = params.get? other := by
  have passed : (other == name) = false := by simpa using distinct
  fun_induction insert name value params with
  | case1 => simp [get?, List.lookup_cons, passed]
  | case2 => simp [get?, List.lookup_cons, passed]
  | case3 => simp [get?, List.lookup_cons, passed]
  | case4 key old later _ _ ih =>
      simp only [get?, List.lookup_cons] at ih ⊢
      rw [ih]

end Params

/-- A type, or a disposition, with parameters. -/
structure MediaType where
  /-- Empty when the header carried no usable type. -/
  essence : Text := []
  params : Params := []
  /-- Names that stood without a value, in the order of the header. -/
  bareNames : List Text := []
deriving DecidableEq, Repr

namespace MediaType

def ofEssence (essence : Text) : MediaType :=
  { essence := essence.lower }

def withParam (name value : Text) (media : MediaType) : MediaType :=
  { media with params := Params.insert name.lower value media.params }

def mainType (media : MediaType) : Text :=
  media.essence.takeWhile (· != '/')

def subType? (media : MediaType) : Option Text :=
  (Text.cut? '/' media.essence).map Prod.snd

def param? (media : MediaType) (name : Text) : Option Text :=
  media.params.get? name.lower

/-- The boundary of a multipart body.  An empty one counts as none. -/
def boundary? (media : MediaType) : Option Text :=
  (media.param? "boundary".toList).filter fun boundary => !boundary.isEmpty

def charset? (media : MediaType) : Option Text :=
  media.param? "charset".toList

/-- The file name, under its own name or an older one. -/
def filename? (media : MediaType) : Option Text :=
  (media.param? "filename".toList).or (media.param? "name".toList)

def isMultipart (media : MediaType) : Bool :=
  media.mainType == "multipart".toList

def isEmpty (media : MediaType) : Bool :=
  media.essence.isEmpty && media.params.isEmpty && media.bareNames.isEmpty

end MediaType

end LenientMime
