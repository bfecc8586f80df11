import ImportAtlas.Decimal.Shortest
import ImportAtlas.Json.Value
import ImportAtlas.Text.Digit

/-!
# Printing JSON

A value is printed on one line, or with each item and each field on a line of its own and
indented by its depth. Characters outside ASCII are written as they are or escaped as units of
UTF-16.
-/

namespace ImportAtlas.Json

/-- How values are laid out. -/
structure Style where
  /-- The blanks per level, none for everything on one line. -/
  indent : Option Nat
  /-- Whether characters outside ASCII are escaped. -/
  asciiOnly : Bool := false

/-- The escape of a unit of UTF-16. -/
def unitEscape (n : Nat) : List Char := '\\' :: 'u' :: Text.hexDigits 4 n

/-- A character as it is written in a string. -/
def escapeChar (asciiOnly : Bool) (c : Char) : List Char :=
  if c = '\x22' then ['\\', '\x22']
  else if c = '\\' then ['\\', '\\']
  else if c = '\n' then ['\\', 'n']
  else if c = '\r' then ['\\', 'r']
  else if c = '\t' then ['\\', 't']
  else if c = '\x08' then ['\\', 'b']
  else if c = '\x0c' then ['\\', 'f']
  else if c.toNat < 32 then unitEscape c.toNat
  else if asciiOnly && 127 ≤ c.toNat then
    if c.toNat < 0x10000 then unitEscape c.toNat
    else unitEscape (0xD800 + (c.toNat - 0x10000) / 0x400) ++
      unitEscape (0xDC00 + (c.toNat - 0x10000) % 0x400)
  else [c]

/-- A string in its quotes. -/
def quote (asciiOnly : Bool) (s : String) : List Char :=
  '\x22' :: s.toList.flatMap (escapeChar asciiOnly) ++ ['\x22']

/-- The text of a double. -/
def floatText (x : Float) : String :=
  if x.isNaN then "NaN"
  else if x.isInf then (if x < 0.0 then "-Infinity" else "Infinity")
  else Decimal.text x

namespace Style

/-- What stands before an item or a closing bracket at a depth. -/
def lineBreak (style : Style) (depth : Nat) : List Char :=
  match style.indent with
  | none => []
  | some width => '\n' :: List.replicate (width * depth) ' '

/-- What stands between two items at a depth. -/
def separator (style : Style) (depth : Nat) : List Char :=
  match style.indent with
  | none => [',', ' ']
  | some _ => ',' :: style.lineBreak depth

end Style

mutual

/-- The text of a value at a depth. -/
def writeValue (style : Style) (depth : Nat) : Json → List Char
  | .null => "null".toList
  | .bool true => "true".toList
  | .bool false => "false".toList
  | .int n => (toString n).toList
  | .float x => (floatText x).toList
  | .str s => quote style.asciiOnly s
  | .arr [] => ['[', ']']
  | .arr (item :: items) =>
    '[' :: style.lineBreak (depth + 1) ++ writeValue style (depth + 1) item ++
      writeItems style (depth + 1) items ++ style.lineBreak depth ++ [']']
  | .obj [] => ['\x7b', '\x7d']
  | .obj (field :: fields) =>
    '\x7b' :: style.lineBreak (depth + 1) ++ writeField style (depth + 1) field ++
      writeFields style (depth + 1) fields ++ style.lineBreak depth ++ ['\x7d']
termination_by structural v => v

/-- The texts of the items after the first. -/
def writeItems (style : Style) (depth : Nat) : List Json → List Char
  | [] => []
  | item :: items =>
    style.separator depth ++ writeValue style depth item ++ writeItems style depth items
termination_by structural items => items

/-- The text of a field. -/
def writeField (style : Style) (depth : Nat) : String × Json → List Char
  | (key, value) => quote style.asciiOnly key ++ [':', ' '] ++ writeValue style depth value
termination_by structural field => field

/-- The texts of the fields after the first. -/
def writeFields (style : Style) (depth : Nat) : List (String × Json) → List Char
  | [] => []
  | field :: fields =>
    style.separator depth ++ writeField style depth field ++ writeFields style depth fields
termination_by structural fields => fields

end

/-- The text of a value. -/
def print (style : Style) (v : Json) : String := String.ofList (writeValue style 0 v)

end ImportAtlas.Json
