import ImportAtlas.Search.RecordStream
import ImportAtlas.Search.Window
import ImportAtlas.Text.Base64

/-!
# Match records

The record of a match names a file, gives its lines and counts the matched bytes in them. Texts
that are not UTF-8 come in base64. A record of another type, or without one of these, is no
match; a submatch that is not as it should be adds no span. A truth value counts as a number.
-/

namespace ImportAtlas

/-- A whole number of a record. -/
inductive RecordNumber where
  | number (n : Int)
  | truth (b : Bool)
deriving DecidableEq, Repr

namespace RecordNumber

/-- The number itself. -/
def toInt : RecordNumber → Int
  | .number n => n
  | .truth b => if b then 1 else 0

/-- The number that a value is, if it is one. -/
def ofJson? : Json → Option RecordNumber
  | .int n => some (.number n)
  | .bool b => some (.truth b)
  | _ => none

/-- The value of a number. -/
def toJson : RecordNumber → Json
  | .number n => .int n
  | .truth b => .bool b

end RecordNumber

/-- Why a stream of records cannot be read on. -/
inductive RecordError where
  /-- The submatches of a match are a number. -/
  | submatchesNotAList
deriving DecidableEq, Repr

/-- What the error is. -/
def RecordError.message : RecordError → String
  | .submatchesNotAList => "the submatches of a match are not a list"

/-- The record of a match. -/
structure MatchRecord where
  path : Path
  text : List Char
  line : RecordNumber
  /-- The starts and ends of the matches, in bytes. -/
  spans : List (RecordNumber × RecordNumber)
deriving DecidableEq, Repr

namespace MatchRecord

/-- The text of a field that is given as text or as bytes. -/
def textField? (v : Option Json) : Option (List Char) :=
  match v with
  | some (.obj fields) =>
    match fields.lookup "text" with
    | some (.str text) => some text.toList
    | _ =>
      match fields.lookup "bytes" with
      | some (.str encoded) => (Text.base64? encoded.toList).map Text.decodeLossy
      | _ => none
  | _ => none

/-- The span of a submatch, if it has one. -/
def span? (v : Json) : Option (RecordNumber × RecordNumber) :=
  match (v.get? "start").bind RecordNumber.ofJson?, (v.get? "end").bind RecordNumber.ofJson? with
  | some start, some stop => some (start, stop)
  | _, _ => none

/-- The spans of all submatches. What is no list has none, unless it is a number other than
zero or true. -/
def spansOf (v : Option Json) : Except RecordError (List (RecordNumber × RecordNumber)) :=
  match v with
  | some (.arr items) => .ok (items.filterMap span?)
  | some (.int n) => if n = 0 then .ok [] else .error .submatchesNotAList
  | some (.float x) => if x == 0.0 then .ok [] else .error .submatchesNotAList
  | some (.bool true) => .error .submatchesNotAList
  | _ => .ok []

/-- Read a record: none if it is no match. -/
def ofRecord (record : JsonRecord) : Except RecordError (Option MatchRecord) :=
  match record.lookup "type", record.lookup "data" with
  | some (.str "match"), some (.obj data) =>
    match textField? (data.lookup "path"), textField? (data.lookup "lines"),
      (data.lookup "line_number").bind RecordNumber.ofJson? with
    | some path, some text, some line =>
      (spansOf (data.lookup "submatches")).map fun spans =>
        some ⟨Path.ofString (String.ofList path), text, line, spans⟩
    | _, _, _ => .ok none
  | _, _ => .ok none

/-- The window of a match. -/
def window (r : MatchRecord) : Window :=
  { path := r.path
    line := r.line.toInt
    text := r.text
    spans := r.spans.map fun (start, stop) => (start.toInt, stop.toInt)
    unit := .bytes }

end MatchRecord

end ImportAtlas
