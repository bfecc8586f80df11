/-!
# Import graphs

A graph is a snapshot: its modules in ascending order of their paths, each with the modules it
imports and the modules that import it, and a few facts about the whole.
-/

namespace ImportAtlas

/-- The modules beside one module. -/
structure Neighbours where
  /-- What the module imports. -/
  dependencies : List String
  /-- What imports the module. -/
  dependents : List String
deriving DecidableEq, Repr

/-- How and when a graph was made. -/
structure GraphFacts where
  root : String
  totalFiles : Int
  totalDependencies : Int
  generatedAt : String
deriving DecidableEq, Repr

/-- A graph of modules named by their paths. -/
structure ImportGraph where
  modules : List (String × Neighbours)
  facts : GraphFacts
deriving DecidableEq, Repr

/-- Paths in ascending order. -/
def sortPaths (paths : List String) : List String := paths.mergeSort fun a b => a ≤ b

namespace ImportGraph

/-- The graph with given modules, put in order. -/
def ofModules (modules : List (String × Neighbours)) (facts : GraphFacts) : ImportGraph :=
  ⟨modules.mergeSort fun a b => a.1 ≤ b.1, facts⟩

/-- The paths of the modules in ascending order. -/
def paths (g : ImportGraph) : List String := g.modules.map Prod.fst

/-- What stands beside a module, none for a path that is no module. -/
def find? (g : ImportGraph) (path : String) : Option Neighbours := g.modules.lookup path

/-- Whether a path is a module. -/
def contains (g : ImportGraph) (path : String) : Bool := (g.find? path).isSome

/-- What a module imports, nothing for a path that is no module. -/
def dependencies (g : ImportGraph) (path : String) : List String :=
  ((g.find? path).map Neighbours.dependencies).getD []

/-- What imports a module, nothing for a path that is no module. -/
def dependents (g : ImportGraph) (path : String) : List String :=
  ((g.find? path).map Neighbours.dependents).getD []

/-- The modules that nothing imports. -/
def rootPaths (g : ImportGraph) : List String :=
  (g.modules.filter fun m => m.2.dependents.isEmpty).map Prod.fst

/-- The edges, ordered by their sources and then as the dependencies are. -/
def edges (g : ImportGraph) : List (String × String) :=
  g.modules.flatMap fun m => m.2.dependencies.map fun target => (m.1, target)

/-- One line about a graph. -/
def summary (g : ImportGraph) : String :=
  "DependencyGraph(modules=" ++ toString g.modules.length ++ ", dependencies=" ++
    toString g.facts.totalDependencies ++ ", roots=" ++ toString g.rootPaths.length ++ ")"

end ImportGraph

end ImportAtlas
