import ImportAtlas.Defaults
import ImportAtlas.FileTree.Basic
import ImportAtlas.Glob.Match

/-!
# Listing the files to scan

A walk over a folder in ascending order of names. Hidden entries are passed over; a folder that
the exclude globs select is not entered; a file is listed if the include globs select it and the
exclude globs do not. Globs are compiled when they are first needed, so that a fault in them
shows only where there is something to match.
-/

namespace ImportAtlas

/-- Why files cannot be listed. -/
inductive ListingError where
  /-- A list of globs is at fault. -/
  | glob (cause : GlobError)
  /-- What should be a folder is a file, or lies in one. -/
  | notFolder
deriving DecidableEq, Repr

/-- What the error is. -/
def ListingError.message : ListingError → String
  | .glob cause => cause.message
  | .notFolder => "not a directory"

/-- The globs of a scan. -/
structure ScanGlobs where
  includes : List String
  excludes : List String
deriving DecidableEq, Repr

namespace ScanGlobs

/-- The globs to use where some may be left out. -/
def ofOptions (includes excludes : Option (List String)) : ScanGlobs :=
  ⟨includesOrDefault includes, excludesOrDefault excludes⟩

/-- Whether a folder is passed over, given the path below the root. -/
def prunes (globs : ScanGlobs) (folder : String) : Except GlobError Bool :=
  matchesAny globs.excludes (folder ++ "/").toList

/-- Whether a file is listed, given the path below the root. -/
def lists (globs : ScanGlobs) (file : String) : Except GlobError Bool := do
  if ← matchesAny globs.includes file.toList then
    return !(← matchesAny globs.excludes file.toList)
  else return false

end ScanGlobs

/-- Whether a name is that of a hidden entry. -/
def isHidden (name : String) : Bool := name.toList.head? == some '.'

namespace Entry

mutual

/-- The files to list at or below an entry, each as the names that lead from the entry to it.
Given is the path of the entry below the root. -/
def listFrom (globs : ScanGlobs) (path : String) : Entry → Except GlobError (List (List String))
  | .file _ => do return if ← globs.lists path then [[]] else []
  | .folder entries => do
    if ← globs.prunes path then return [] else listEntries globs (path ++ "/") entries
termination_by structural e => e

/-- The files to list at or below a named entry of a folder, unless it is hidden. -/
def listNamed (globs : ScanGlobs) (base : String) :
    String × Entry → Except GlobError (List (List String))
  | (name, e) => do
    if isHidden name then return []
    else return (← listFrom globs (base ++ name) e).map (name :: ·)
termination_by structural named => named

/-- The files to list among the entries of a folder and below them, each as the names that lead
from the folder to it. Given is what the paths of the entries begin with. -/
def listEntries (globs : ScanGlobs) (base : String) :
    List (String × Entry) → Except GlobError (List (List String))
  | [] => .ok []
  | named :: rest => do
    let first ← listNamed globs base named
    let others ← listEntries globs base rest
    return first ++ others
termination_by structural entries => entries

end

end Entry

/-- The files to scan below a root, in ascending order of the names on their paths. A root that
does not exist has none. -/
def FileTree.list (tree : FileTree) (root : Path) (globs : ScanGlobs) :
    Except ListingError (List Path) :=
  match tree.find? root with
  | some (.folder entries) =>
    match Entry.listEntries globs "" entries with
    | .ok files => .ok (files.map fun names => ⟨root.anchor, root.names ++ names⟩)
    | .error cause => .error (.glob cause)
  | some (.file _) => .error .notFolder
  | none =>
    if (List.range root.names.length).any fun n => tree.isFile ⟨root.anchor, root.names.take n⟩ then
      .error .notFolder
    else .ok []

end ImportAtlas
