import LenientMime.Text.Basic

namespace LenientMime.Toml

inductive Origin where
  /-- It stands in the path of a header. -/
  | path
  | header
  /-- It stands in a dotted key. -/
  | dotted
  | inlined
deriving DecidableEq, Repr

inductive Value where
  | string (text : Text)
  | integer (value : Int)
  | float
  | bool (value : Bool)
  | dateTime
  | array (elements : List Value)
  | table (origin : Origin) (members : List (Text × Value))
  /-- Tables that were added by header, one after the other. -/
  | tables (newest : List (Text × Value)) (earlier : List (List (Text × Value)))
deriving Repr

abbrev Members := List (Text × Value)

namespace Members

def get? (key : Text) (members : Members) : Option Value :=
  members.lookup key

def replace (key : Text) (value : Value) (members : Members) : Members :=
  members.map fun member => if member.1 = key then (key, value) else member

def push (key : Text) (value : Value) (members : Members) : Members :=
  members ++ [(key, value)]

/-- Opens the table of a key.  It must not have been opened before. -/
def openTable? (key : Text) (members : Members) : Option Members :=
  match members.get? key with
  | none => some (members.push key (.table .header []))
  | some (.table .path inner) => some (members.replace key (.table .header inner))
  | some _ => none

def addTable? (key : Text) (members : Members) : Option Members :=
  match members.get? key with
  | none => some (members.push key (.tables [] []))
  | some (.tables newest earlier) =>
      some (members.replace key (.tables [] (newest :: earlier)))
  | some _ => none

/-- Changes, at the last key of a header's path, the members that hold it.  Tables
that the path passes through are made where they are missing. -/
def atHeader? (change : Text → Members → Option Members) : List Text → Members → Option Members
  | [], _ => none
  | [key], members => change key members
  | key :: path, members =>
      match members.get? key with
      | none =>
          (atHeader? change path []).map fun inner => members.push key (.table .path inner)
      | some (.table .inlined _) => none
      | some (.table origin inner) =>
          (atHeader? change path inner).map fun inner =>
            members.replace key (.table origin inner)
      | some (.tables newest earlier) =>
          (atHeader? change path newest).map fun newest =>
            members.replace key (.tables newest earlier)
      | some _ => none

/-- Adds a value under a dotted key.  `allowed` says whether a key may be added to
these members themselves: behind a dot, only to a table made by dotted keys. -/
def assign? (value : Value) (allowed : Bool) : List Text → Members → Option Members
  | [], _ => none
  | [key], members =>
      match members.get? key with
      | none => if allowed then some (members.push key value) else none
      | some _ => none
  | key :: path, members =>
      match members.get? key with
      | none =>
          (assign? value true path []).map fun inner => members.push key (.table .dotted inner)
      | some (.table .dotted inner) =>
          (assign? value true path inner).map fun inner =>
            members.replace key (.table .dotted inner)
      | some (.table .path inner) =>
          (assign? value false path inner).map fun inner =>
            members.replace key (.table .path inner)
      | some (.tables newest earlier) =>
          (assign? value false path newest).map fun newest =>
            members.replace key (.tables newest earlier)
      | some _ => none

def within? (change : Members → Option Members) : List Text → Members → Option Members
  | [], members => change members
  | key :: path, members =>
      match members.get? key with
      | some (.table origin inner) =>
          (within? change path inner).map fun inner => members.replace key (.table origin inner)
      | some (.tables newest earlier) =>
          (within? change path newest).map fun newest =>
            members.replace key (.tables newest earlier)
      | _ => none

end Members

inductive Statement where
  | header (path : List Text)
  | element (path : List Text)
  | assignment (path : List Text) (value : Value)
deriving Repr

/-- Carries out statements, starting with the tables built so far and with the table
whose header came last. -/
def build? : List Text → Members → List Statement → Option Members
  | _, members, [] => some members
  | _, members, .header path :: later =>
      (members.atHeader? Members.openTable? path).bind fun members => build? path members later
  | _, members, .element path :: later =>
      (members.atHeader? Members.addTable? path).bind fun members => build? path members later
  | current, members, .assignment path value :: later =>
      (members.within? (Members.assign? value true path) current).bind fun members =>
        build? current members later

end LenientMime.Toml
