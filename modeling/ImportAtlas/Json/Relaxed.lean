import ImportAtlas.Json.Reader
import ImportAtlas.Text.Blank

/-!
# JSON with comments

Configuration files may hold comments, and a comma before a closing bracket. Comments are cut
out first and such commas next, wherever they stand; what is left must be strict JSON.
-/

namespace ImportAtlas.Json

/-- What a reader of a commented text is inside of. -/
inductive Region where
  /-- Outside strings and comments. -/
  | plain
  /-- In a string. -/
  | string
  /-- In a comment to the end of the line. -/
  | line
  /-- In a comment between slash and star. -/
  | block
deriving DecidableEq, Repr

/-- The text without its comments, from inside a region. The newline that ends a comment stays;
a comment that is left open goes to the end. -/
def stripFrom : Region → List Char → List Char
  | _, [] => []
  | .plain, '/' :: '/' :: rest => stripFrom .line rest
  | .plain, '/' :: '*' :: rest => stripFrom .block rest
  | .plain, c :: rest => c :: stripFrom (if c = '\x22' then .string else .plain) rest
  | .string, '\\' :: c :: rest => '\\' :: c :: stripFrom .string rest
  | .string, c :: rest => c :: stripFrom (if c = '\x22' then .plain else .string) rest
  | .line, c :: rest => if c = '\n' then c :: stripFrom .plain rest else stripFrom .line rest
  | .block, '*' :: '/' :: rest => stripFrom .plain rest
  | .block, _ :: rest => stripFrom .block rest

/-- The text without its comments. -/
def stripComments (s : List Char) : List Char := stripFrom .plain s

/-- Whether a text goes on, after blanks, with a closing bracket. -/
def closesNext (s : List Char) : Bool :=
  match Text.stripLeft s with
  | c :: _ => c == ']' || c == '\x7d'
  | [] => false

/-- The text without the commas that only blanks part from a closing bracket. -/
def dropTrailingCommas : List Char → List Char
  | [] => []
  | c :: rest =>
    if c = ',' && closesNext rest then dropTrailingCommas rest else c :: dropTrailingCommas rest

/-- The value of a text with comments and trailing commas, none if the rest is no JSON. -/
def readRelaxed? (s : List Char) : Option Json := read? (dropTrailingCommas (stripComments s))

end ImportAtlas.Json
