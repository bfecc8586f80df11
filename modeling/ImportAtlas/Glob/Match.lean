import ImportAtlas.Glob.Compile

/-!
# Matching globs

A list of globs selects path names: the last glob that matches decides, but one that matches
only because a directory above is selected gives way to any that matches the name itself.
Directories are passed with a slash at their end.
-/

namespace ImportAtlas

/-- Globs that are used together. -/
structure GlobSet where
  globs : List Glob.Compiled

namespace Glob

/-- How a glob matches a name. -/
inductive Strength where
  /-- Through a directory. -/
  | directory
  /-- By itself. -/
  | itself
deriving DecidableEq, Repr

/-- Whether, and how, a glob matches a name. -/
def Compiled.strength (g : Compiled) (name : List Char) : Option Strength :=
  (g.pattern.search name).map fun m => if m.groups.isEmpty then .itself else .directory

/-- A name without the mark of the root at its start. -/
def relativeName (name : List Char) : List Char :=
  match name with
  | '/' :: rest => rest
  | '.' :: '/' :: rest => rest
  | _ => name

end Glob

namespace GlobSet

/-- Compile a list of globs after expanding their braces; the first that fails decides. -/
def ofPatterns (patterns : List String) : Except GlobError GlobSet := do
  let texts := patterns.flatMap fun p => Glob.expandBraces p.toList
  let compiled ← texts.mapM Glob.compile
  return ⟨compiled.filterMap id⟩

/-- The last glob that matches with a given strength. -/
def last? (set : GlobSet) (strength : Glob.Strength) (name : List Char) : Option Glob.Compiled :=
  set.globs.reverse.find? fun g => g.strength name == some strength

/-- Whether the globs select a name. -/
def selects (set : GlobSet) (name : List Char) : Bool :=
  let name := Glob.relativeName name
  match (set.last? .itself name).orElse fun _ => set.last? .directory name with
  | some g => !g.negated
  | none => false

end GlobSet

/-- Whether a list of globs selects a path name; no glob selects none. -/
def matchesAny (patterns : List String) (name : List Char) : Except GlobError Bool :=
  if patterns.isEmpty then .ok false else (GlobSet.ofPatterns patterns).map (·.selects name)

end ImportAtlas
