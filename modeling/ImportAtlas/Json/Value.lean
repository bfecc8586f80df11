/-!
# JSON values

Values as a JSON text gives them: whole numbers are kept exactly and apart from the others, and
the fields of an object keep the order in which their keys first appeared.
-/

namespace ImportAtlas

/-- A JSON value. -/
inductive Json where
  | null
  | bool (b : Bool)
  | int (n : Int)
  | float (x : Float)
  | str (s : String)
  | arr (items : List Json)
  | obj (fields : List (String × Json))
deriving Inhabited

namespace Json

/-- Set a field: a new key goes to the end, a known one keeps its place. -/
def setField {α : Type} (fields : List (String × α)) (key : String) (value : α) :
    List (String × α) :=
  match fields with
  | [] => [(key, value)]
  | (k, v) :: rest => if k = key then (k, value) :: rest else (k, v) :: setField rest key value

/-- The fields that setting one after the other leaves: each key at its first place with its
last value. -/
def mergeFields {α : Type} (fields : List (String × α)) : List (String × α) :=
  fields.foldl (fun merged field => setField merged field.1 field.2) []

/-- The value of a key in an object, none in any other value. -/
def get? (v : Json) (key : String) : Option Json :=
  match v with
  | .obj fields => fields.lookup key
  | _ => none

/-- The text of a string value. -/
def str? : Json → Option String
  | .str s => some s
  | _ => none

/-- The fields of an object value. -/
def obj? : Json → Option (List (String × Json))
  | .obj fields => some fields
  | _ => none

/-- The items of an array value. -/
def arr? : Json → Option (List Json)
  | .arr items => some items
  | _ => none

/-- An array of strings. -/
def strings (items : List String) : Json := .arr (items.map .str)

end Json

end ImportAtlas
