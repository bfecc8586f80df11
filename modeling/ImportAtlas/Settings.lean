import ImportAtlas.Defaults
import ImportAtlas.FileTree.Basic
import ImportAtlas.Search.Backend
import ImportAtlas.Yaml.Value

/-!
# Settings

A project may hold a YAML file that says what to scan and how. Each of its keys may be left out
and then keeps its default; keys that are not known are passed over.
-/

namespace ImportAtlas

/-- What is wrong with a settings file. -/
inductive SettingsFault where
  /-- It cannot be read as a text. -/
  | unreadable
  /-- The text is not YAML. -/
  | notYaml (cause : YamlError)
  /-- The value of the text is not a mapping. -/
  | notMapping
  /-- The value of a key is neither a text nor a list of texts. -/
  | notTexts (key : String)
  /-- The value of a key is not a text. -/
  | notText (key : String)
  /-- The backend is none of the known ones. -/
  | unknownBackend
deriving DecidableEq, Repr

/-- Why there are no settings. -/
inductive SettingsError where
  /-- A file is refused. -/
  | refused (file : Path) (fault : SettingsFault)
  /-- A scalar has a tag that its text does not fit. -/
  | unfitScalar (cause : YamlError)
  /-- A path cannot be looked up. -/
  | unsoundPath
  /-- A path is too long to be looked up. -/
  | tooLong (cause : TooLong)
deriving DecidableEq, Repr

/-- What the error is. -/
def SettingsError.message : SettingsError → String
  | .refused file .unreadable =>
    "cannot read settings file " ++ file.toString ++ ": not a file of UTF-8 text"
  | .refused file (.notYaml cause) => "invalid YAML in " ++ file.toString ++ ": " ++ cause.message
  | .refused file .notMapping => file.toString ++ ": expected a mapping at the top level"
  | .refused file (.notTexts key) =>
    file.toString ++ ": '" ++ key ++ "' must be a string or a list of strings"
  | .refused file (.notText key) => file.toString ++ ": '" ++ key ++ "' must be a string"
  | .refused file .unknownBackend =>
    file.toString ++ ": 'backend' must be one of " ++ ", ".intercalate (Backend.all.map Backend.name)
  | .unfitScalar cause => cause.message
  | .unsoundPath => "embedded null byte"
  | .tooLong cause => cause.message

/-- What to scan and how, as far as a project says so. -/
structure Settings where
  /-- The root of the project. -/
  root : Path
  /-- The files to start from, none for all. -/
  entryPoints : List String := []
  /-- The configuration of aliases. -/
  aliasConfig : Option Path := none
  includes : List String := defaultIncludes
  excludes : List String := defaultExcludes
  backend : Backend := .auto
  /-- The file that the settings were read from. -/
  source : Option Path := none
deriving DecidableEq, Repr

namespace Settings

/-- The names of the settings files that are looked for, in this order. -/
def fileNames : List String := [".modgraph.yml", ".modgraph.yaml"]

/-- The settings file in a folder. -/
def findFile (tree : FileTree) (root : Path) : Except TooLong (Option Path) :=
  tree.firstFile (fileNames.map fun name => root.join ⟨.relative, [name]⟩)

/-- The settings file of a project: a given one, or else the one in its root. -/
def chosenFile (tree : FileTree) (root : Path) : Option Path → Except TooLong (Option Path)
  | some file => .ok (some file)
  | none => findFile tree root

/-- The texts of a value: one text stands for a list of it alone. -/
def texts? : Yaml → Option (List String)
  | .str s => some [s]
  | .list items => items.mapM fun item =>
    match item with
    | .str s => some s
    | _ => none
  | _ => none

/-- The texts of a key, or what holds without the key. -/
def textsAt (file : Path) (entries : List (Yaml × Yaml)) (key : String) (default : List String) :
    Except SettingsError (List String) :=
  match Yaml.get? entries key with
  | none => .ok default
  | some value =>
    match texts? value with
    | some texts => .ok texts
    | none => .error (.refused file (.notTexts key))

/-- The configuration of aliases, whose path counts from the folder of the settings file. -/
def aliasConfigAt (file : Path) (entries : List (Yaml × Yaml)) :
    Except SettingsError (Option Path) :=
  match Yaml.get? entries "tsconfig" with
  | none | some .null => .ok none
  | some (.str config) =>
    match Path.resolve? file.parent (Path.ofString config) with
    | some path => .ok (some path)
    | none => .error .unsoundPath
  | some _ => .error (.refused file (.notText "tsconfig"))

/-- The backend. -/
def backendAt (file : Path) (entries : List (Yaml × Yaml)) : Except SettingsError Backend :=
  match Yaml.get? entries "backend" with
  | none | some .null => .ok .auto
  | some (.str name) =>
    match Backend.ofName? name with
    | some backend => .ok backend
    | none => .error (.refused file .unknownBackend)
  | some _ => .error (.refused file .unknownBackend)

/-- The settings that the entries of a file give. -/
def ofEntries (root file : Path) (entries : List (Yaml × Yaml)) : Except SettingsError Settings := do
  return {
    root
    entryPoints := ← textsAt file entries "entry_points" []
    includes := ← textsAt file entries "include" defaultIncludes
    excludes := ← textsAt file entries "exclude" defaultExcludes
    aliasConfig := ← aliasConfigAt file entries
    backend := ← backendAt file entries
    source := some file }

/-- The entries of a settings text. An empty text has none. -/
def entriesOf (file : Path) (text : List Char) : Except SettingsError (List (Yaml × Yaml)) :=
  match Yaml.read text with
  | .error .malformed => .error (.refused file (.notYaml .malformed))
  | .error cause => .error (.unfitScalar cause)
  | .ok .null => .ok []
  | .ok (.mapping entries) => .ok entries
  | .ok _ => .error (.refused file .notMapping)

/-- Read a settings file. -/
def readFile (tree : FileTree) (root file : Path) : Except SettingsError Settings := do
  if file.isSound then
    match tree.text? file with
    | none => .error (.refused file .unreadable)
    | some text => ofEntries root file (← entriesOf file text)
  else .error .unsoundPath

/-- The settings of a project, from a given file or the one in its root. Without a file they are
the defaults. -/
def load (tree : FileTree) (root : Path) (given : Option Path) : Except SettingsError Settings := do
  match ← (chosenFile tree root given).mapError .tooLong with
  | none => return { root }
  | some file => readFile tree root file

end Settings

end ImportAtlas
