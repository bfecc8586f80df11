import ImportAtlas.Graph.Basic

/-!
# Reachability

The modules that can be reached from given ones along dependencies, the part of a graph that
they span, and the other way round: the modules that nothing imports and from which given ones
can be reached.
-/

namespace ImportAtlas

/-- Visit a queue of nodes and all that follows from them. Each round takes one node from the
queue, and a node enters it once; the number bounds the rounds. -/
def closeUnder (next : String → List String) :
    Nat → (queue seen : List String) → List String
  | 0, _, seen => seen
  | _ + 1, [], seen => seen
  | rounds + 1, node :: queue, seen =>
    let fresh := ((next node).filter fun n => !seen.contains n).eraseDups
    closeUnder next rounds (queue ++ fresh) (seen ++ fresh)

namespace ImportGraph

/-- The modules reached from those of the given paths that are modules, along a relation. -/
def closure (g : ImportGraph) (next : String → List String) (starts : List String) :
    List String :=
  let starts := (starts.filter g.contains).eraseDups
  closeUnder (fun node => (next node).filter g.contains) g.modules.length starts starts

/-- The modules that given entries import, directly or not, with the entries themselves. Paths
that are no modules are ignored. -/
def reachableFrom (g : ImportGraph) (entries : List String) : List String :=
  g.closure g.dependencies entries

/-- The part of a graph that given entries reach. Its numbers are counted anew. -/
def scopedTo (g : ImportGraph) (entries : List String) : ImportGraph :=
  let kept := g.reachableFrom entries
  let modules := (g.modules.filter fun m => kept.contains m.1).map fun m =>
    (m.1, Neighbours.mk (m.2.dependencies.filter kept.contains) (m.2.dependents.filter kept.contains))
  ⟨modules, g.facts.root, modules.length,
    (modules.flatMap fun m => m.2.dependencies).length, g.facts.generatedAt⟩

/-- The modules that nothing imports among those from which given files are reached, in ascending
order. -/
def entryPointsFor (g : ImportGraph) (files : List String) : List String :=
  sortPaths ((g.closure g.dependents files).filter fun path => (g.dependents path).isEmpty)

end ImportGraph

end ImportAtlas
