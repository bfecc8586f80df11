/-!
# Faults in YAML texts

Why a text has no value. Most faults are of the form of the text; the others are scalars whose
tag asks for a value that their text does not give.
-/

namespace ImportAtlas

/-- Why a YAML text has no value. -/
inductive YamlError where
  /-- The text is not well formed, or uses what is not known. -/
  | malformed
  /-- An escape stands for no character. -/
  | noCharacter
  /-- The number of an escape is larger than any that is looked at. -/
  | hugeEscape
  /-- A number or a date is not one. -/
  | badValue
  /-- A number has no digits at all. -/
  | emptyNumber
  /-- A truth value is none of the known words. -/
  | unknownTruth (word : String)
  /-- A point in time has another form. -/
  | badMoment
deriving DecidableEq, Repr

/-- What the error is. -/
def YamlError.message : YamlError → String
  | .malformed => "not well-formed YAML"
  | .noCharacter => "an escape stands for no character"
  | .hugeEscape => "an escape is out of range"
  | .badValue => "a number or a date is not one"
  | .emptyNumber => "a number has no digits"
  | .unknownTruth word => word
  | .badMoment => "a point in time has another form"

end ImportAtlas
