import ImportAtlas.Graph.Draft
import ImportAtlas.Graph.Reach
import ImportAtlas.Resolver
import ImportAtlas.Search.Tool
import ImportAtlas.Search.Walk

/-!
# Scanning a project

A search finds passages with imports, their specifiers are resolved, and each answer becomes an
edge of the graph. With entries given, those that the search over the root did not come across
are searched by themselves, and the graph is cut down to what the entries reach.
-/

namespace ImportAtlas

/-- Lines of a file that a search found. -/
structure Passage where
  path : Path
  text : List Char
deriving DecidableEq, Repr

/-- Why a project cannot be scanned. -/
inductive ScanError where
  | listing (cause : ListingError)
  | record (cause : RecordError)
  | tooLong (cause : TooLong)
deriving DecidableEq, Repr

/-- What the error is. -/
def ScanError.message : ScanError → String
  | .listing cause => cause.message
  | .record cause => cause.message
  | .tooLong cause => cause.message

/-- A scan that came to an end before its time, and what there was to tell until then. -/
structure ScanFailure where
  cause : ScanError
  notices : List Notice
deriving DecidableEq, Repr

/-- The ways to search. -/
inductive SearchMethod where
  /-- Walk over the tree. -/
  | walk
  /-- Start the tool, once per search; the runs are given in their order, and then what every
  further one gives. -/
  | tool (runs : List ToolRun) (further : ToolRun)
  /-- Take passages found before, one list per search. -/
  | found (passages : List (List Passage))

/-- Whether a search looks its target up. -/
def SearchMethod.looksUp : SearchMethod → Bool
  | .found _ => false
  | _ => true

/-- What a scan has come to so far. -/
structure ScanState where
  method : SearchMethod
  resolver : Resolver
  draft : GraphDraft := {}
  /-- The edges added so far. -/
  processed : List (String × String) := []
  /-- The targets searched so far, where a search was asked for. -/
  targets : List Path := []
  notices : List Notice := []

namespace ScanState

/-- Ask a question about a path; without an answer the scan comes to an end. -/
def ask (s : ScanState) (tree : FileTree) (question : FileTree → Path → Bool) (p : Path) :
    Except ScanFailure Bool :=
  (tree.ask question p).mapError fun cause => ⟨.tooLong cause, s.notices⟩

/-- Search a target with the method of the scan. -/
def search (s : ScanState) (tree : FileTree) (target : Path) (globs : ScanGlobs) :
    Except ScanFailure (List Passage × ScanState) :=
  match s.method with
  | .walk =>
    match tree.search importSearchPattern target globs with
    | (.error cause, _) => .error ⟨.listing cause, s.notices⟩
    | (.ok windows, notices) =>
      .ok (windows.map fun w => ⟨w.path, w.text⟩, { s with notices := s.notices ++ notices })
  | .tool runs further =>
    let search := (runs.head?.getD further).search tree target
    match search.found with
    | .error cause => .error ⟨.record cause, s.notices ++ search.notices⟩
    | .ok records =>
      let s := { s with notices := s.notices ++ search.notices }
      let s := if search.asked then
          { s with method := .tool runs.tail further, targets := s.targets ++ [target] }
        else s
      .ok (records.map fun r => ⟨r.path, r.text⟩, s)
  | .found passages =>
    .ok (passages.head?.getD [],
      { s with method := .found passages.tail, targets := s.targets ++ [target] })

end ScanState

/-- What reading passages adds to: the resolver learns, the draft grows, and new edges are
remembered and counted. -/
structure Ingest where
  resolver : Resolver
  draft : GraphDraft := {}
  /-- The edges added during a scan, in this call or an earlier one. -/
  processed : List (String × String) := []
  /-- The number of edges added in this call. -/
  added : Nat := 0

namespace Ingest

/-- Add the edge of one specifier of a file, if it leads anywhere. -/
def addSpecifier (tree : FileTree) (importer : Path) (i : Ingest) (specifier : String) : Ingest :=
  let (target, resolver) := i.resolver.resolve tree specifier importer
  let i := { i with resolver }
  match target with
  | none => i
  | some target =>
    let source := resolver.key importer
    if (source, target) ∈ i.processed then i
    else
      { i with
        draft := i.draft.addEdge source target
        processed := (source, target) :: i.processed
        added := i.added + 1 }

/-- Add the edges of a passage. One whose constructs are all skipped is passed over. -/
def addPassage (tree : FileTree) (i : Ingest) (passage : Passage) : Ingest :=
  if allSkipped passage.text then i
  else
    ((extractImports passage.text).map ImportMatch.specifier).foldl
      (addSpecifier tree passage.path) i

/-- Add the edges of passages one after the other. -/
def addPassages (tree : FileTree) (i : Ingest) (passages : List Passage) : Ingest :=
  passages.foldl (addPassage tree) i

end Ingest

namespace ScanState

/-- Search a target and add what is found; the number of new edges comes with the result. -/
def scan (s : ScanState) (tree : FileTree) (target : Path) (globs : ScanGlobs) :
    Except ScanFailure (Nat × ScanState) := do
  let (passages, s) ← s.search tree target globs
  let i := Ingest.addPassages tree ⟨s.resolver, s.draft, s.processed, 0⟩ passages
  return (i.added,
    { s with resolver := i.resolver, draft := i.draft, processed := i.processed })

/-- Tell something. -/
def tell (s : ScanState) (notice : Notice) : ScanState := { s with notices := s.notices ++ [notice] }

/-- Scan the entries that are there and not yet modules; the names of those that are there come
with the result. An entry whose path is too long to be looked up ends the scan. -/
def scanEntries (s : ScanState) (tree : FileTree) (root : Path) (globs : ScanGlobs) :
    List String → Except ScanFailure (List String × ScanState)
  | [] => .ok ([], s)
  | entry :: rest => do
    let path := root.join (Path.ofString entry)
    if ← s.ask tree FileTree.isFile path then
      let path := path.resolved
      let key := s.resolver.key path
      let s ← if s.draft.contains key then pure s
        else do
          let (added, s) ← s.scan tree path globs
          pure (s.tell (.entryScanned key added))
      let s := { s with draft := s.draft.addNode key }
      let (keys, s) ← s.scanEntries tree root globs rest
      return (key :: keys, s)
    else (s.tell (.entryMissing entry)).scanEntries tree root globs rest

end ScanState

/-- What to scan, and how. -/
structure ScanRequest where
  /-- The root, absolute and normal. -/
  root : Path
  entries : List String := []
  aliasConfig : Option Path := none
  globs : ScanGlobs
  method : SearchMethod := .walk
  /-- The time to be noted in the graph. -/
  generatedAt : String

/-- What a scan starts with: the aliases of the project, and a root that can be looked up if it is
searched at all. -/
def ScanRequest.start (tree : FileTree) (request : ScanRequest) : Except ScanFailure ScanState := do
  let (table, notices) ← (AliasTable.load tree request.root request.aliasConfig).mapError
    fun cause => ⟨.tooLong cause, []⟩
  if request.method.looksUp ∧ tree.isTooLong request.root then
    .error ⟨.tooLong ⟨request.root⟩, notices⟩
  else return { method := request.method, resolver := .new request.root table, notices }

/-- The graph of a project, and the scan that it came from. -/
def scanProject (tree : FileTree) (request : ScanRequest) :
    Except ScanFailure (ImportGraph × ScanState) := do
  let root := request.root
  let s ← request.start tree
  let (added, s) ← s.scan tree root request.globs
  let s := s.tell (.scanned root s.draft.nodes.length added)
  if request.entries.isEmpty then return (s.draft.build root.toString request.generatedAt, s)
  else
    let (keys, s) ← s.scanEntries tree root request.globs request.entries
    return ((s.draft.build root.toString request.generatedAt).scopedTo keys, s)

end ImportAtlas
