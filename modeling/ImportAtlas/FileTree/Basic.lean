import ImportAtlas.Path
import ImportAtlas.Text.Quoted
import ImportAtlas.Text.Utf8

/-!
# Trees of files

A tree holds folders, whose entries are kept in ascending order of their names, and files with
their bytes. A path is followed name by name: what comes before a name or a double dot must be a
folder. A path that is not absolute leads nowhere. Asking about a path that is too long to be looked
up is an error.
-/

namespace ImportAtlas

/-- A file or a folder. -/
inductive Entry where
  | file (content : List UInt8)
  | folder (entries : List (String × Entry))
deriving Inhabited

namespace Entry

/-- A folder without entries. -/
def empty : Entry := .folder []

/-- Whether an entry is a folder. -/
def isFolder : Entry → Bool
  | .folder _ => true
  | .file _ => false

/-- The entry of a name in a folder. -/
def child? (e : Entry) (name : String) : Option Entry :=
  match e with
  | .folder entries => entries.lookup name
  | .file _ => none

/-- The entry that names lead to. -/
def find? : Entry → List String → Option Entry
  | e, [] => some e
  | e, name :: rest => (e.child? name).bind fun e => e.find? rest

/-- Set the entry of a name, in order. -/
def setChild (name : String) (e : Entry) : List (String × Entry) → List (String × Entry)
  | [] => [(name, e)]
  | (n, old) :: rest =>
    if name = n then (name, e) :: rest
    else if name < n then (name, e) :: (n, old) :: rest
    else (n, old) :: setChild name e rest

/-- Put an entry where names lead to, with the folders on the way. A file in the way stays. -/
def put (new : Entry) : List String → Entry → Entry
  | [], _ => new
  | name :: rest, .folder entries =>
    .folder (setChild name (put new rest ((entries.lookup name).getD empty)) entries)
  | _ :: _, .file content => .file content

/-- Remove the entry that names lead to. -/
def remove : List String → Entry → Entry
  | [], e => e
  | _, .file content => .file content
  | [name], .folder entries => .folder (entries.filter fun entry => entry.1 != name)
  | name :: rest, .folder entries =>
    match entries.lookup name with
    | some e => .folder (setChild name (remove rest e) entries)
    | none => .folder entries

mutual

/-- The number of files at or below an entry. -/
def fileCount : Entry → Nat
  | .file _ => 1
  | .folder entries => fileCountIn entries
termination_by structural e => e

/-- The number of files at or below a named entry. -/
def fileCountAt : String × Entry → Nat
  | (_, e) => fileCount e
termination_by structural named => named

/-- The number of files among entries and below them. -/
def fileCountIn : List (String × Entry) → Nat
  | [] => 0
  | named :: rest => fileCountAt named + fileCountIn rest
termination_by structural entries => entries

end

end Entry

/-- A path is too long to be looked up. -/
structure TooLong where
  path : Path
deriving DecidableEq, Repr

/-- What the error is. -/
def TooLong.message (cause : TooLong) : String :=
  "[Errno 36] File name too long: " ++ Text.quoted cause.path.toString

/-- All files, from the root folder on. -/
structure FileTree where
  root : Entry
deriving Inhabited

namespace FileTree

/-- The tree without any file. -/
def empty : FileTree := ⟨.empty⟩

/-- Follow names from a place, which is given by its own names, to the place they lead to. -/
def follow (tree : FileTree) : (place names : List String) → Option (List String)
  | place, [] => if (tree.root.find? place).isSome then some place else none
  | place, name :: rest =>
    if ((tree.root.find? place).map Entry.isFolder).getD false then
      if name = ".." then tree.follow place.dropLast rest else tree.follow (place ++ [name]) rest
    else none

/-- The entry at a path. -/
def find? (tree : FileTree) (p : Path) : Option Entry :=
  if p.isAbsolute then (tree.follow [] p.names).bind tree.root.find? else none

/-- Whether there is a file at a path. -/
def isFile (tree : FileTree) (p : Path) : Bool := ((tree.find? p).map fun e => !e.isFolder).getD false

/-- Whether there is a folder at a path. -/
def isFolder (tree : FileTree) (p : Path) : Bool := ((tree.find? p).map Entry.isFolder).getD false

/-- Whether there is anything at a path. -/
def exists? (tree : FileTree) (p : Path) : Bool := (tree.find? p).isSome

/-- The bytes that the longest possible name has. -/
def longestName : Nat := 255

/-- The bytes that the text of the longest possible path has. -/
def longestPath : Nat := 4095

/-- Whether names lead from a place through folders to a name that is too long to be looked up. -/
def meetsLongName (tree : FileTree) : (place names : List String) → Bool
  | _, [] => false
  | place, name :: rest =>
    if ((tree.root.find? place).map Entry.isFolder).getD false then
      if name = ".." then tree.meetsLongName place.dropLast rest
      else longestName < (Text.encode name.toList).length || tree.meetsLongName (place ++ [name]) rest
    else false

/-- Whether a path is too long to be looked up. Before its length counts it must be sound. -/
def isTooLong (tree : FileTree) (p : Path) : Bool :=
  p.isSound &&
    (longestPath < (Text.encode p.toString.toList).length || tree.meetsLongName [] p.names)

/-- The answer to a question about a path, none but an error if it is too long to be looked up. -/
def ask (tree : FileTree) (question : FileTree → Path → Bool) (p : Path) : Except TooLong Bool :=
  if tree.isTooLong p then .error ⟨p⟩ else .ok (question tree p)

/-- The first path that is a file, none if there is no file among them. -/
def firstFile (tree : FileTree) : List Path → Except TooLong (Option Path)
  | [] => .ok none
  | p :: rest => do
    if ← tree.ask isFile p then return some p else tree.firstFile rest

/-- The bytes of the file at a path, none if there is no file or the path is too long to be looked
up. -/
def content? (tree : FileTree) (p : Path) : Option (List UInt8) :=
  if tree.isTooLong p then none
  else
    match tree.find? p with
    | some (.file content) => some content
    | _ => none

/-- The text of the file at a path with every line break as a newline, none if it cannot be read
or is not UTF-8. -/
def text? (tree : FileTree) (p : Path) : Option (List Char) :=
  (tree.content? p).bind fun bytes => (Text.decode? bytes).map Text.universalNewlines

/-- Whether a file can be written at a path: its folder is there, no folder is in its place, and the
path can be looked up. -/
def canWrite (tree : FileTree) (p : Path) : Bool :=
  tree.isFolder p.parent && !tree.isFolder p && !tree.isTooLong p

/-- Write a file, with the folders on the way. -/
def write (tree : FileTree) (p : Path) (content : List UInt8) : FileTree :=
  ⟨Entry.put (.file content) p.normal.names tree.root⟩

/-- Make a folder, with the folders on the way; one that is there stays. -/
def addFolder (tree : FileTree) (p : Path) : FileTree :=
  if tree.isFolder p then tree else ⟨Entry.put .empty p.normal.names tree.root⟩

/-- Remove a file. -/
def remove (tree : FileTree) (p : Path) : FileTree := ⟨Entry.remove p.normal.names tree.root⟩

end FileTree

end ImportAtlas
