import ImportAtlas.Alias.Pattern
import ImportAtlas.Alias.Table
import ImportAtlas.Defaults
import ImportAtlas.Import.Find

/-!
# Resolving specifiers

A specifier leads to the first file among its candidates: the path as it stands if it has an
ending, the path with each ending of source files, and the index file of a folder. Answers are
paths relative to the root, so that each file has one name. A resolver remembers which paths it
found to be files, and does not look again.
-/

namespace ImportAtlas

/-- Whether a path text has an ending: a dot in its last name after a character that is no
dot. -/
def hasTextEnding (path : List Char) : Bool :=
  let name := (path.reverse.takeWhile (· != '/')).reverse
  (name.dropWhile (· == '.')).contains '.'

/-- A name put behind a folder text. -/
def inFolder (folder : String) (name : String) : String :=
  if folder.isEmpty || folder.toList.getLast? == some '/' then folder ++ name
  else folder ++ "/" ++ name

/-- The files that a path may mean, in the order in which they are tried. -/
def candidatePaths (base : String) : List String :=
  (if hasTextEnding base.toList then [base] else []) ++
    sourceEndings.map (base ++ ·) ++ sourceEndings.map fun ending => inFolder base ("index" ++ ending)

/-- What is needed to resolve specifiers, and what was learnt so far. -/
structure Resolver where
  /-- The root, absolute and normal. -/
  root : Path
  table : Option AliasTable
  /-- For each path that was looked up, whether it was a file then. -/
  known : List (String × Bool)

namespace Resolver

/-- A resolver that has looked nothing up. -/
def new (root : Path) (table : Option AliasTable) : Resolver := ⟨root, table, []⟩

/-- The name of a file in a graph: its path relative to the root. -/
def keyIn (root : Path) (path : Path) : String := (root.wayFrom (root.join path).normal).toString

/-- The name of a file in a graph. -/
def key (r : Resolver) (path : Path) : String := keyIn r.root path

/-- Whether there is a file, as far as the resolver knows; it looks at most once. -/
def probe (r : Resolver) (tree : FileTree) (path : String) : Bool × Resolver :=
  match r.known.lookup path with
  | some answer => (answer, r)
  | none =>
    let answer := tree.isFile (Path.ofString path)
    (answer, { r with known := (path, answer) :: r.known })

/-- The first of several paths that is a file. -/
def firstFile (r : Resolver) (tree : FileTree) : List String → Option String × Resolver
  | [] => (none, r)
  | path :: rest =>
    match r.probe tree path with
    | (true, r) => (some path, r)
    | (false, r) => r.firstFile tree rest

/-- The first file among the candidates of several paths. -/
def firstCandidate (r : Resolver) (tree : FileTree) : List Path → Option String × Resolver
  | [] => (none, r)
  | base :: rest =>
    match r.firstFile tree (candidatePaths base.toString) with
    | (some path, r) => (some path, r)
    | (none, r) => r.firstCandidate tree rest

/-- The folder that the templates of aliases count from. -/
def templateFolder (r : Resolver) : Path := (r.table.bind AliasTable.baseFolder).getD r.root

/-- The paths that aliases map a specifier to: the templates of all aliases that match it, in
their order. -/
def aliasTargets (r : Resolver) (specifier : String) : List Path :=
  ((r.table.map AliasTable.paths).getD []).flatMap fun (pattern, templates) =>
    match aliasMatch? pattern.toList specifier.toList with
    | none => []
    | some groups =>
      templates.map fun template =>
        let path := substituteStar (groups.head?.getD []) template.toList
        (r.templateFolder.join (Path.ofString (String.ofList path))).normal

/-- Resolve a specifier that an importing file holds. A relative one always has an answer, the
bare path if there is no file; any other has one only if an alias leads to a file. -/
def resolve (r : Resolver) (tree : FileTree) (specifier : String) (importer : Path) :
    Option String × Resolver :=
  if specifier.isEmpty then (none, r)
  else if isRelativeSpecifier specifier.toList then
    let base := ((r.root.join importer).parent.join (Path.ofString specifier)).normal
    match r.firstCandidate tree [base] with
    | (some path, r) => (some (r.key (Path.ofString path)), r)
    | (none, r) => (some (r.key base), r)
  else
    match r.firstCandidate tree (r.aliasTargets specifier) with
    | (some path, r) => (some (r.key (Path.ofString path)), r)
    | (none, r) => (none, r)

end Resolver

end ImportAtlas
