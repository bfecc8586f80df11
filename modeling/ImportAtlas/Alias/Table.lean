import ImportAtlas.FileTree.Basic
import ImportAtlas.Json.Relaxed
import ImportAtlas.Notice

/-!
# Alias tables

A configuration maps aliases to templates of paths. It may extend another one beside it, whose
options it inherits and overrides one by one; a chain of configurations is followed to its end,
or to a configuration that was read before. Paths count from the folder of the configuration
that names them.
-/

namespace ImportAtlas

/-- The aliases of a project. -/
structure AliasTable where
  /-- The folder that templates count from. -/
  baseFolder : Option Path
  /-- The templates of each alias, in the order of their declaration. -/
  paths : List (String × List String)
  /-- The configuration that the aliases were read from. -/
  source : Option Path
deriving DecidableEq, Repr

/-- The options of a configuration. -/
abbrev CompilerOptions := List (String × Json)

namespace AliasTable

/-- The names of the configurations that are looked for, in this order. -/
def configNames : List String := ["tsconfig.json", "jsconfig.json"]

/-- The configuration in a folder. -/
def findConfig (tree : FileTree) (root : Path) : Except TooLong (Option Path) :=
  tree.firstFile (configNames.map fun name => root.join ⟨.relative, [name]⟩)

/-- The configuration of a project: a given one, or else the one in its root. -/
def chosenConfig (tree : FileTree) (root : Path) : Option Path → Except TooLong (Option Path)
  | some config => .ok (some config)
  | none => findConfig tree root

/-- The object in a configuration. -/
def readConfig (tree : FileTree) (config : Path) : Except AliasConfigError (List (String × Json)) :=
  match tree.text? config with
  | none => .error .notText
  | some text =>
    match Json.readRelaxed? text with
    | none => .error .notJson
    | some (.obj fields) => .ok fields
    | some _ => .error (.notObject config.name)

/-- The path of a configuration that is named without its ending or with it. -/
def configPath (named : Path) : Path :=
  if named.hasEnding then named else named.withEnding ".json"

/-- The configuration that another extends: one named relative to it, with its ending or
without, that is there. It is an error if it has no name at all, or one too long to look for. -/
def extended? (tree : FileTree) (config : Path) (fields : List (String × Json)) :
    Except AliasConfigError (Option Path) :=
  match fields.lookup "extends" with
  | some (.str named) =>
    if named.toList.head? = some '.' then
      let base := config.parent.join (Path.ofString named)
      if base.names = [] then .error .unnamedBase
      else if tree.isTooLong (configPath base) then .error .tooLongBase
      else if tree.isFile (configPath base) then .ok (some (configPath base))
      else .ok none
    else .ok none
  | _ => .ok none

/-- The options that a configuration declares itself, the base folder made absolute. -/
def ownOptions (config : Path) (fields : List (String × Json)) :
    Except AliasConfigError CompilerOptions :=
  match fields.lookup "compilerOptions" with
  | some (.obj options) =>
    match options.lookup "baseUrl" with
    | some (.str folder) =>
      match Path.resolve? config.parent (Path.ofString folder) with
      | some absolute => .ok (Json.setField options "baseUrl" (.str absolute.toString))
      | none => .error .unsoundPath
    | _ => .ok options
  | _ => .ok []

/-- The options that hold for a configuration, inherited ones included, and what there is to
tell. Given are the configurations read before; the number bounds how many more there are. -/
def optionsFrom (tree : FileTree) :
    Nat → List Path → Path → Except AliasConfigError CompilerOptions × List Notice
  | 0, _, _ => (.ok [], [])
  | more + 1, seen, config =>
    let config := config.resolved
    if config ∈ seen then (.ok [], [.circularExtends config])
    else
      match readConfig tree config with
      | .error cause => (.error cause, [])
      | .ok fields =>
        let (inherited, notices) : Except AliasConfigError CompilerOptions × List Notice :=
          match extended? tree config fields with
          | .error cause => (.error cause, [])
          | .ok (some base) => optionsFrom tree more (config :: seen) base
          | .ok none => (.ok [], [])
        let options := do
          let inherited ← inherited
          let own ← ownOptions config fields
          return own.foldl (fun options option => Json.setField options option.1 option.2) inherited
        (options, notices)

/-- The templates of an alias as declared: one string or the strings of a list, none for any
other value. -/
def templates? (v : Json) : Option (List String) :=
  match v with
  | .str template => some [template]
  | .arr items => some (items.filterMap Json.str?)
  | _ => none

/-- The table that options declare, none without aliases. -/
def ofOptions (options : CompilerOptions) (config : Path) : Option AliasTable :=
  match options.lookup "paths" with
  | some (.obj (first :: rest)) =>
    some {
      baseFolder := ((options.lookup "baseUrl").bind Json.str?).map Path.ofString
      paths := (first :: rest).filterMap fun (pattern, value) => (templates? value).map (pattern, ·)
      source := some config }
  | _ => none

/-- The table of a configuration that is a file, and what there is to tell. -/
def loadFile (tree : FileTree) (config : Path) : Option AliasTable × List Notice :=
  match optionsFrom tree (tree.root.fileCount + 1) [] config with
  | (.error cause, notices) => (none, notices ++ [.aliasConfigUnusable config cause])
  | (.ok options, notices) =>
    match ofOptions options config with
    | none => (none, notices)
    | some table => (some table, notices ++ [.aliasesLoaded table.paths.length config])

/-- The aliases of a project, from a given configuration or the one in its root, and what there
is to tell. -/
def load (tree : FileTree) (root : Path) (given : Option Path) :
    Except TooLong (Option AliasTable × List Notice) := do
  match ← chosenConfig tree root given with
  | none => return (none, [])
  | some config =>
    if ← tree.ask FileTree.isFile config then return loadFile tree config
    else return (none, [.aliasConfigMissing config])

end AliasTable

end ImportAtlas
