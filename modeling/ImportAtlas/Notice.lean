import ImportAtlas.Alias.Error
import ImportAtlas.Path

/-!
# Notices

What a run tells about itself beside its result. Each notice has a level, a channel by the part
of the program that it comes from, and a text.
-/

namespace ImportAtlas

/-- How much a notice matters. -/
inductive NoticeLevel where
  | info
  | warning
deriving DecidableEq, Repr

/-- The word for a level. -/
def NoticeLevel.name : NoticeLevel → String
  | .info => "INFO"
  | .warning => "WARNING"

/-- Something worth telling. -/
inductive Notice where
  /-- A configuration extends itself through others. -/
  | circularExtends (config : Path)
  /-- There is no configuration where one was named. -/
  | aliasConfigMissing (config : Path)
  /-- A configuration cannot be used. -/
  | aliasConfigUnusable (config : Path) (cause : AliasConfigError)
  /-- Aliases were read. -/
  | aliasesLoaded (count : Nat) (config : Path)
  /-- There is nothing where a search should take place. -/
  | searchTargetMissing (target : Path)
  /-- The search tool cannot be started. -/
  | toolUnavailable (tool : String) (reason : String)
  /-- The search tool reports a failure. -/
  | toolFailed (tool : String) (status : Int) (errors : String)
  /-- A root was scanned. -/
  | scanned (root : Path) (modules imports : Nat)
  /-- There is no file where an entry should be. -/
  | entryMissing (entry : String)
  /-- An entry was scanned by itself. -/
  | entryScanned (path : String) (imports : Nat)
deriving DecidableEq, Repr

namespace Notice

/-- How much a notice matters. -/
def level : Notice → NoticeLevel
  | .aliasesLoaded .. | .scanned .. | .entryScanned .. => .info
  | _ => .warning

/-- The part of the program that a notice comes from. -/
def channel : Notice → String
  | .circularExtends .. | .aliasConfigMissing .. | .aliasConfigUnusable .. | .aliasesLoaded .. =>
    "modgraph.scanner.aliases"
  | .searchTargetMissing .. | .toolUnavailable .. | .toolFailed .. => "modgraph.scanner.search"
  | .scanned .. | .entryMissing .. | .entryScanned .. => "modgraph.scanner.builder"

/-- The text of a notice. -/
def message : Notice → String
  | .circularExtends config => "Circular 'extends' in " ++ config.toString
  | .aliasConfigMissing config => "Alias config not found: " ++ config.toString
  | .aliasConfigUnusable config cause =>
    "Failed to parse " ++ config.toString ++ ": " ++ cause.message
  | .aliasesLoaded count config =>
    "Loaded " ++ toString count ++ " path aliases from " ++ config.toString
  | .searchTargetMissing target => "Search target not found: " ++ target.toString
  | .toolUnavailable tool reason => "Cannot run " ++ tool ++ ": " ++ reason
  | .toolFailed tool status errors =>
    tool ++ " exited with status " ++ toString status ++
      if errors.isEmpty then "" else ": " ++ errors
  | .scanned root modules imports =>
    "Scanned " ++ root.toString ++ ": " ++ toString modules ++ " modules, " ++ toString imports ++
      " imports"
  | .entryMissing entry => "Entry point not found: " ++ entry
  | .entryScanned path imports =>
    "Scanned entry point " ++ path ++ " directly: " ++ toString imports ++ " imports"

/-- A notice as a line for a reader of logs. -/
def line (n : Notice) : String := n.level.name ++ " " ++ n.channel ++ ": " ++ n.message

end Notice

end ImportAtlas
