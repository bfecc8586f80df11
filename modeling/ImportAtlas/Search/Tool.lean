import ImportAtlas.Defaults
import ImportAtlas.FileTree.Basic
import ImportAtlas.Notice
import ImportAtlas.Search.MatchRecord

/-!
# Searching with a tool

The command that starts the search tool, and what a run of it comes to. A tool that cannot be
started finds nothing; one that fails keeps the matches it gave before.
-/

namespace ImportAtlas

/-- What a run of the tool gives. -/
structure ToolRun where
  /-- What successive reads of its output give; an empty one is the end. -/
  chunks : List (List UInt8) := []
  status : Int := 0
  errors : List UInt8 := []
  /-- Whether it can be started. -/
  starts : Bool := true
deriving DecidableEq, Repr

namespace ToolRun

/-- The name of the tool. -/
def toolName : String := "rg"

/-- The status of a run that matched nothing. -/
def nothingMatched : Int := 1

/-- The command of a search. A single file is searched whatever its name. -/
def command (tool : String) (folder : Bool) (target : Path) (includes excludes : List String)
    (pattern : String) : List String :=
  [tool, "--json", "--no-config", "--no-ignore-vcs", "--multiline"] ++
    (if folder then
      includes.flatMap (fun glob => ["--glob", glob]) ++
        excludes.flatMap fun glob => ["--glob", "!" ++ glob]
    else []) ++
    ["-e", pattern, "--", target.toString]

/-- The records of a run. -/
def records (run : ToolRun) : List JsonRecord :=
  let (records, stream) := RecordStream.feedAll {} (run.chunks.takeWhile fun c => !c.isEmpty)
  records ++ stream.flush.1

/-- The matches among records. -/
def matchesOf (records : List JsonRecord) : Except RecordError (List MatchRecord) := do
  return (← records.mapM MatchRecord.ofRecord).filterMap id

/-- What a run found, and what there is to tell. -/
def outcome (run : ToolRun) : Except RecordError (List MatchRecord) × List Notice :=
  if run.starts then
    let errors := String.ofList (Text.strip (Text.decodeLossy run.errors))
    let notices :=
      if run.status = 0 ∨ run.status = nothingMatched then []
      else [Notice.toolFailed toolName run.status errors]
    (matchesOf run.records, notices)
  else (.ok [], [.toolUnavailable toolName "it cannot be started"])

/-- What a search with the tool comes to. -/
structure Search where
  /-- Whether the tool was asked at all. -/
  asked : Bool
  found : Except RecordError (List MatchRecord)
  notices : List Notice

/-- Search a target, given what the tool comes to if it is asked. A target that is not there is
not searched. -/
def search (run : ToolRun) (tree : FileTree) (target : Path) : Search :=
  if tree.exists? target then
    let (found, notices) := run.outcome
    ⟨true, found, notices⟩
  else ⟨false, .ok [], [.searchTargetMissing target]⟩

end ToolRun

end ImportAtlas
