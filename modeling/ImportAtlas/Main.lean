import ImportAtlas.Calendar
import ImportAtlas.CommandLine.Run
import Std.Time.DateTime

/-!
# The program

The outer layer of the command line: it reads the files below the current folder and below the
root, runs the command line on them, and prints the answer or writes it to a file. Nothing is
decided here.
-/

namespace ImportAtlas.CommandLine

/-- How many folders deep files are read. -/
def readingDepth : Nat := 64

/-- Add what is at a place of the disk to a tree. What cannot be read is left out. -/
def readPlace : Nat → FileTree → Path → IO FileTree
  | 0, tree, _ => pure tree
  | depth + 1, tree, place => do
    let location := (← IO.currentDir) / place.toString
    try
      if ← location.isDir then
        (← location.readDir).foldlM (fun tree entry =>
          readPlace depth tree (place.join (Path.ofString entry.fileName))) (tree.addFolder place)
      else if ← location.pathExists then
        return tree.write place (← IO.FS.readBinFile location).toList
      else return tree
    catch _ => return tree

/-- The texts of the paths that have to be read for a command line. -/
def readPlaces (options : Options) : List String :=
  [".", options.root] ++ options.settings.toList ++ options.config.toList ++ options.files

/-- The tree of the files that a command line may need. -/
def readTree (folder : Path) (options : Options) : IO FileTree :=
  (readPlaces options).foldlM (fun tree text =>
    match Path.resolve? folder (Path.ofString text) with
    | some place => if tree.exists? place then pure tree else readPlace readingDepth tree place
    | none => pure tree) FileTree.empty

/-- Run what a command line asks for, and give the status to end with. -/
def perform (options : Options) : IO UInt32 := do
  let folder := Path.ofString (← IO.currentDir).toString
  let tree ← readTree folder options
  let now := (← Std.Time.Timestamp.now).toMillisecondsSinceUnixEpoch.toInt.toNat
  let started ← IO.monoMsNow
  match Setting.run ⟨tree, folder, Calendar.timeText now⟩ options with
  | .error fault =>
    IO.eprintln ("Error: " ++ fault.message)
    return 1
  | .ok outcome =>
    if let some (file, text) := outcome.written then
      IO.FS.writeFile file.toString text
    IO.print outcome.output
    let elapsed := toString ((← IO.monoMsNow) - started)
    outcome.reports.forM fun report => IO.eprintln (report.text elapsed)
    return outcome.status.toUInt32

end ImportAtlas.CommandLine

open ImportAtlas.CommandLine in
/-- Read the command line, and run it unless there is nothing to run. -/
def main (arguments : List String) : IO UInt32 := do
  match Options.read arguments with
  | .ok options => perform options
  | .error stop =>
    IO.print stop.output
    IO.eprint stop.complaint
    return stop.status.toUInt32
