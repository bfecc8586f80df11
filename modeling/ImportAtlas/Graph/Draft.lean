import ImportAtlas.Graph.Basic

/-!
# Collecting a graph

A draft collects modules and edges one at a time, each once. It keeps every edge twice, under the
module that imports and under the module that is imported, so that either side can be asked
for.
-/

namespace ImportAtlas

/-- Modules with a set of modules for each, every set without repetition. -/
abbrev ModuleMap := List (String × List String)

namespace ModuleMap

/-- The set of a module, empty for a path that is no key. -/
def get (m : ModuleMap) (path : String) : List String := (m.lookup path).getD []

/-- Put a module into the set of a key. -/
def insertAt (key member : String) (m : ModuleMap) : ModuleMap :=
  m.map fun entry => (entry.1, if entry.1 = key then entry.2.insert member else entry.2)

end ModuleMap

/-- A graph in the making. The keys of both maps are the modules, in the order of their first
mention. -/
structure GraphDraft where
  /-- What each module imports. -/
  importsOf : ModuleMap := []
  /-- What imports each module. -/
  importersOf : ModuleMap := []
deriving DecidableEq, Repr

namespace GraphDraft

/-- The modules in the order of their first mention. -/
def nodes (d : GraphDraft) : List String := d.importsOf.map Prod.fst

/-- Whether a path is a module. -/
def contains (d : GraphDraft) (path : String) : Bool := d.nodes.contains path

/-- What a module imports so far. -/
def dependencies (d : GraphDraft) (path : String) : List String := d.importsOf.get path

/-- What imports a module so far. -/
def dependents (d : GraphDraft) (path : String) : List String := d.importersOf.get path

/-- Whether an edge is there. -/
def hasEdge (d : GraphDraft) (source target : String) : Bool :=
  (d.dependencies source).contains target

/-- Add a module, if it is new. -/
def addNode (d : GraphDraft) (path : String) : GraphDraft :=
  if d.contains path then d else ⟨d.importsOf ++ [(path, [])], d.importersOf ++ [(path, [])]⟩

/-- Add an edge and both its ends, as far as they are new. Whether the edge was new comes with
the result. -/
def recordEdge (d : GraphDraft) (source target : String) : Bool × GraphDraft :=
  let d := (d.addNode source).addNode target
  if d.hasEdge source target then (false, d)
  else
    (true, ⟨d.importsOf.insertAt source target, d.importersOf.insertAt target source⟩)

/-- Add an edge and both its ends, as far as they are new. -/
def addEdge (d : GraphDraft) (source target : String) : GraphDraft :=
  (d.recordEdge source target).2

/-- The modules with what they import so far. -/
def adjacency (d : GraphDraft) : List (String × List String) := d.importsOf

/-- The number of edges added so far. -/
def edgeCount (d : GraphDraft) : Nat := (d.importsOf.flatMap Prod.snd).length

/-- The graph of all that was added. -/
def build (d : GraphDraft) (root generatedAt : String) : ImportGraph :=
  let modules := d.nodes.map fun path =>
    (path, Neighbours.mk (sortPaths (d.dependencies path)) (sortPaths (d.dependents path)))
  .ofModules modules
    ⟨root, modules.length, (modules.flatMap fun m => m.2.dependencies).length, generatedAt⟩

/-- One line about a draft. -/
def summary (d : GraphDraft) : String :=
  "GraphBuilder(modules=" ++ toString d.nodes.length ++ ", edges=" ++ toString d.edgeCount ++ ")"

end GraphDraft

end ImportAtlas
