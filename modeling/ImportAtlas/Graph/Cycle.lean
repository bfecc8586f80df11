import ImportAtlas.Graph.Draft

/-!
# Finding cycles

A depth-first search over a directed graph, from every node not yet visited and to the
successors of a node in ascending order. An edge to a node on the current path closes a cycle,
which is reported as the path from that node on; a node that was left is not entered again.
-/

namespace ImportAtlas

/-- Nodes with their successors; a successor need not be listed as a node. -/
abbrev Adjacency := List (String × List String)

namespace Adjacency

/-- The successors of a node in ascending order. -/
def successors (adjacency : Adjacency) (node : String) : List String :=
  sortPaths ((adjacency.lookup node).getD [])

/-- The nodes in ascending order. -/
def nodes (adjacency : Adjacency) : List String := sortPaths (adjacency.map Prod.fst)

/-- A number that no path without repetition is longer than. -/
def bound (adjacency : Adjacency) : Nat :=
  adjacency.length + (adjacency.flatMap Prod.snd).length

/-- What a search has seen and found. -/
structure Progress where
  visited : List String := []
  /-- The cycles in the order in which they were closed. -/
  cycles : List (List String) := []
deriving DecidableEq, Repr

/-- The cycle that an edge from the end of a path to a node on it closes. The path is given from
its end back to its start. -/
def closedBy (path : List String) (target : String) : List String :=
  target :: (path.takeWhile (· != target)).reverse

/-- Follow the edges from the end of a path, which is given from its end back to its start. The
number bounds how much longer the path can grow. -/
def explore (adjacency : Adjacency) : Nat → List String → Progress → Progress
  | 0, _, progress => progress
  | _ + 1, [], progress => progress
  | fuel + 1, node :: path, progress =>
    (adjacency.successors node).foldl (fun progress child =>
      if child ∈ node :: path then
        { progress with cycles := progress.cycles ++ [closedBy (node :: path) child] }
      else if child ∈ progress.visited then progress
      else
        explore adjacency fuel (child :: node :: path)
          { progress with visited := child :: progress.visited }) progress

/-- Search from a node, unless it was visited before. -/
def exploreFrom (adjacency : Adjacency) (progress : Progress) (start : String) : Progress :=
  if start ∈ progress.visited then progress
  else
    explore adjacency (adjacency.bound + 1) [start]
      { progress with visited := start :: progress.visited }

/-- The cycles that a search over the whole graph closes. -/
def cycles (adjacency : Adjacency) : List (List String) :=
  (adjacency.nodes.foldl adjacency.exploreFrom {}).cycles

end Adjacency

/-- The cycles among the edges added so far. -/
def GraphDraft.cycles (d : GraphDraft) : List (List String) := Adjacency.cycles d.adjacency

/-- The cycles of a graph. -/
def ImportGraph.cycles (g : ImportGraph) : List (List String) :=
  Adjacency.cycles (g.modules.map fun m => (m.1, m.2.dependencies))

end ImportAtlas
