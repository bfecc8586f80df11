/-!
# Backends

The ways to search, which are asked for by name: with the external line-search tool, with a walk
over the tree, or with whichever of them can be used.
-/

namespace ImportAtlas

/-- The ways to search by their names. -/
inductive Backend where
  /-- The tool if there is one, else a walk. -/
  | auto
  /-- The tool. -/
  | tool
  /-- A walk over the tree. -/
  | walk
deriving DecidableEq, Repr

namespace Backend

/-- The name of a backend. -/
def name : Backend → String
  | .auto => "auto"
  | .tool => "ripgrep"
  | .walk => "python"

/-- All backends. -/
def all : List Backend := [.auto, .tool, .walk]

/-- The backend of a name. -/
def ofName? (name : String) : Option Backend := all.find? fun b => b.name == name

/-- Each backend is found by its name. -/
theorem ofName?_name (b : Backend) : ofName? b.name = some b := by
  cases b <;> decide

/-- The backend to use, given whether the tool is there. -/
def choose (b : Backend) (toolThere : Bool) : Backend :=
  match b with
  | .auto => if toolThere then .tool else .walk
  | _ => b

end Backend

end ImportAtlas
