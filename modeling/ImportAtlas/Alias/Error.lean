/-!
# Faults in alias configurations

Why a configuration that is there gives no aliases.
-/

namespace ImportAtlas

/-- Why a configuration cannot be used. -/
inductive AliasConfigError where
  /-- It is not UTF-8. -/
  | notText
  /-- It is not JSON, comments and trailing commas apart. -/
  | notJson
  /-- Its value is no object. -/
  | notObject (name : String)
  /-- It holds a path that cannot be looked up. -/
  | unsoundPath
  /-- It extends the root folder, which has no name to put an ending to. -/
  | unnamedBase
  /-- It extends a path that is too long to be looked up. -/
  | tooLongBase
deriving DecidableEq, Repr

/-- What the error is. -/
def AliasConfigError.message : AliasConfigError → String
  | .notText => "not valid UTF-8"
  | .notJson => "not valid JSON"
  | .notObject name => name ++ ": expected a JSON object"
  | .unsoundPath => "embedded null byte"
  | .unnamedBase => "empty name"
  | .tooLongBase => "file name too long"

end ImportAtlas
