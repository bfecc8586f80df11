import ImportAtlas.CommandLine.Options
import ImportAtlas.Graph.Cycle
import ImportAtlas.Graph.Drawing
import ImportAtlas.Graph.Export
import ImportAtlas.Graph.Reach
import ImportAtlas.Json.Printer
import ImportAtlas.Scan
import ImportAtlas.Settings

/-!
# Running a command line

What a command line asks for is settled against the settings of the project, the project is
scanned, and the graph, or an answer about it, is written. Paths on the command line count from
the current folder, those of the settings from the root.
-/

namespace ImportAtlas.CommandLine

/-- Where and when a command line is run. -/
structure Setting where
  tree : FileTree
  /-- The current folder, absolute and normal. -/
  folder : Path
  /-- The time to be noted in the graph. -/
  generatedAt : String

/-- A line beside the answer. -/
inductive Report where
  | notice (n : Notice)
  /-- The root is no folder. -/
  | notFolder (root : String)
  | settings (cause : SettingsError)
  | scan (cause : ScanError)
  /-- The answer was written to a file. -/
  | written (file : Path)
  /-- The answer cannot be written to a file. -/
  | notWritten (file : Path)
  /-- How long the scan took. -/
  | elapsed
deriving DecidableEq, Repr

/-- The text of a report, given the time that the scan took in milliseconds. -/
def Report.text (milliseconds : String) : Report → String
  | .notice n => n.line
  | .notFolder root => "Error: '" ++ root ++ "' is not a directory"
  | .settings cause => "Error: " ++ cause.message
  | .scan cause => "Error generating dependency graph: " ++ cause.message
  | .written file => "Dependency graph written to: " ++ file.toString
  | .notWritten file => "Error writing output: cannot write " ++ file.toString
  | .elapsed => "Module graph generated in " ++ milliseconds ++ "ms"

/-- What a run comes to. -/
structure Outcome where
  status : Nat := 0
  /-- The answer, unless it is written to a file. -/
  output : String := ""
  reports : List Report := []
  /-- The file that is written, and its text. -/
  written : Option (Path × String) := none
deriving DecidableEq, Repr

/-- Why a run breaks off without an outcome. -/
inductive RunFault where
  /-- A path on the command line or in the settings cannot be looked up. -/
  | unsoundPath
  /-- A path that is asked about is too long to be looked up. -/
  | tooLong (cause : TooLong)
  /-- A scalar of the settings has a tag that its text does not fit. -/
  | unfitScalar (cause : YamlError)
deriving DecidableEq, Repr

/-- What the fault is. -/
def RunFault.message : RunFault → String
  | .unsoundPath => "embedded null byte"
  | .tooLong cause => cause.message
  | .unfitScalar cause => cause.message

/-- A run that has failed. -/
def Outcome.failed (reports : List Report) : Outcome := { status := 1, reports }

namespace Setting

/-- The path that a text names. -/
def locate (s : Setting) (text : String) : Except RunFault Path :=
  match Path.resolve? s.folder (Path.ofString text) with
  | some path => .ok path
  | none => .error .unsoundPath

/-- The path that a text names, if there is a text and it is not empty. -/
def locateIfGiven (s : Setting) (text : Option String) : Except RunFault (Option Path) :=
  match text with
  | none | some "" => .ok none
  | some text => (s.locate text).map some

/-- The name in the graph of a file on the command line: its path below the root, or else the
text as it stands, with slashes. -/
def graphKey (s : Setting) (root : Path) (text : String) : Except RunFault String := do
  match Path.below? root (← s.locate text) with
  | some path => return path.toString
  | none => return String.ofList (text.toList.map fun c => if c = '\\' then '/' else c)

/-- What to scan, where the command line goes before the settings; further globs of what is left
out are added to those of the settings. -/
def request (s : Setting) (options : Options) (settings : Settings) :
    Except RunFault ScanRequest := do
  let files ← options.files.mapM s.locate
  let config ← s.locateIfGiven options.config
  return {
    root := settings.root
    entries := if files.isEmpty then settings.entryPoints else files.map Path.toString
    aliasConfig := config.orElse fun _ => settings.aliasConfig
    globs := .ofOptions (options.includes.getD settings.includes)
      (some (settings.excludes ++ options.excludes.getD []))
    method :=
      match (options.backend.getD settings.backend).choose false with
      | .tool => .tool [] { starts := false }
      | _ => .walk
    generatedAt := s.generatedAt }

/-- The answer about a graph. -/
def answer (s : Setting) (options : Options) (root : Path) (graph : ImportGraph) :
    Except RunFault String := do
  match options.entryPointsFor, options.format with
  | some files, _ =>
    let keys ← files.mapM (s.graphKey root)
    return Json.print ⟨some 2, true⟩ (.strings (graph.entryPointsFor keys))
  | none, .json => return graph.jsonText (some 2) (if options.cycles then some graph.cycles else none)
  | none, .tree => return graph.drawnText .box
  | none, .ascii => return graph.drawnText .ascii

/-- Write an answer to where it is asked for. -/
def deliver (s : Setting) (options : Options) (reports : List Report) (answer : String) :
    Except RunFault Outcome := do
  let text := answer ++ "\n"
  let last := if options.debug then [Report.elapsed] else []
  match options.output with
  | none | some "" => return { output := text, reports := reports ++ last }
  | some named =>
    let file := Path.ofString named
    let place := s.folder.join file
    if !place.isSound then .error .unsoundPath
    else if s.tree.canWrite place then
      return { reports := reports ++ .written file :: last, written := some (place.normal, text) }
    else return .failed (reports ++ [.notWritten file])

/-- The reports of what there is to tell: all of it if asked for, else what matters. -/
def reportsOf (options : Options) (notices : List Notice) : List Report :=
  (notices.filter fun n => options.debug || n.level == .warning).map .notice

/-- Run with given settings. -/
def runWith (s : Setting) (options : Options) (settings : Settings) : Except RunFault Outcome := do
  match scanProject s.tree (← s.request options settings) with
  | .error failure =>
    return .failed (reportsOf options failure.notices ++ [.scan failure.cause])
  | .ok (graph, state) =>
    s.deliver options (reportsOf options state.notices) (← s.answer options settings.root graph)

/-- Run what a command line asks for. -/
def run (s : Setting) (options : Options) : Except RunFault Outcome := do
  let root ← s.locate options.root
  if ← (s.tree.ask FileTree.isFolder root).mapError .tooLong then
    match Settings.load s.tree root (← s.locateIfGiven options.settings) with
    | .ok settings => s.runWith options settings
    | .error .unsoundPath => .error .unsoundPath
    | .error (.tooLong cause) => .error (.tooLong cause)
    | .error (.unfitScalar cause) => .error (.unfitScalar cause)
    | .error cause => return .failed [.settings cause]
  else return .failed [.notFolder options.root]

end Setting

end ImportAtlas.CommandLine
