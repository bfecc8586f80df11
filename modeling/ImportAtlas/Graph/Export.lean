import ImportAtlas.Graph.Basic
import ImportAtlas.Json.Printer

/-!
# A graph as JSON

The roots, the modules with their neighbours and the facts of a graph as one object, and on
request the cycles beside them.
-/

namespace ImportAtlas

/-- The neighbours of a module as an object. -/
def Neighbours.toJson (n : Neighbours) : Json :=
  .obj [("dependencies", .strings n.dependencies), ("dependents", .strings n.dependents)]

/-- The facts of a graph as an object. -/
def GraphFacts.toJson (f : GraphFacts) : Json :=
  .obj [("root", .str f.root), ("totalFiles", .int f.totalFiles),
    ("totalDependencies", .int f.totalDependencies), ("generatedAt", .str f.generatedAt)]

namespace ImportGraph

/-- The fields of the object of a graph. -/
def jsonFields (g : ImportGraph) : List (String × Json) :=
  [("rootNodes", .strings g.rootPaths),
    ("modules", .obj (g.modules.map fun m => (m.1, m.2.toJson))),
    ("metadata", g.facts.toJson)]

/-- A graph as an object. -/
def toJson (g : ImportGraph) : Json := .obj g.jsonFields

/-- A graph, with cycles if some are given, as an object. -/
def toJsonWith (g : ImportGraph) (cycles : Option (List (List String))) : Json :=
  .obj (g.jsonFields ++ (cycles.map fun cs => ("cycles", Json.arr (cs.map .strings))).toList)

/-- The text of a graph. A negative indentation counts as none of a line's own. -/
def jsonText (g : ImportGraph) (indent : Option Int) (cycles : Option (List (List String))) :
    String :=
  (g.toJsonWith cycles).print { indent := indent.map Int.toNat }

end ImportGraph

end ImportAtlas
