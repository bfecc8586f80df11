import Mathlib.Data.List.Nodup
import ImportAtlas.Graph.Cycle
import ImportAtlas.Proofs.Graph.Canonical

/-!
# The steps of a depth-first search

A search goes along a path and looks at the successors of its end one after the other. Each of them
closes a cycle, is passed over, or is entered and searched before the next one. `Explores` tells
these steps without any bound on their number. Paths do not repeat a node, so the bound that the
search for cycles carries never runs out: it comes to the end that the steps come to, and they come
to no other.
-/

namespace ImportAtlas.Adjacency

/-- A search from the end of a path through some of its successors, and what it comes to. The path
is given from its end back to its start; without a path, nodes are looked at as starts. -/
inductive Explores (next : String → List String) :
    List String → List String → Progress → Progress → Prop
  | done (path : List String) (p : Progress) : Explores next path [] p p
  /-- A child on the path closes a cycle. -/
  | close {path rest : List String} {child : String} {p q : Progress} (hpath : child ∈ path)
    (hrest : Explores next path rest
      { p with cycles := p.cycles ++ [closedBy path child] } q) :
    Explores next path (child :: rest) p q
  /-- A child that was left before is passed over. -/
  | skip {path rest : List String} {child : String} {p q : Progress} (hpath : child ∉ path)
    (hvisited : child ∈ p.visited) (hrest : Explores next path rest p q) :
    Explores next path (child :: rest) p q
  /-- Any other child is entered. -/
  | enter {path rest : List String} {child : String} {p m q : Progress} (hpath : child ∉ path)
    (hvisited : child ∉ p.visited)
    (hchild : Explores next (child :: path) (next child)
      { p with visited := child :: p.visited } m)
    (hrest : Explores next path rest m q) :
    Explores next path (child :: rest) p q

namespace Explores

variable {next : String → List String} {path children : List String} {p q q' : Progress}

/-- The steps come to one end alone. -/
theorem unique (h : Explores next path children p q) (h' : Explores next path children p q') :
    q = q' := by
  induction h generalizing q' with
  | done => cases h'; rfl
  | close hpath _ ih =>
    cases h' with
    | close _ hrest => exact ih hrest
    | skip hpath' => exact absurd hpath hpath'
    | enter hpath' => exact absurd hpath hpath'
  | skip hpath hvisited _ ih =>
    cases h' with
    | close hpath' => exact absurd hpath' hpath
    | skip _ _ hrest => exact ih hrest
    | enter _ hvisited' => exact absurd hvisited hvisited'
  | enter hpath hvisited _ _ ihchild ihrest =>
    cases h' with
    | close hpath' => exact absurd hpath' hpath
    | skip _ hvisited' => exact absurd hvisited' hvisited
    | enter _ _ hchild hrest =>
      obtain rfl := ihchild hchild
      exact ihrest hrest

/-- Looking at children in turn takes these steps, if entering each of them does. -/
theorem foldl {enter : String → Progress → Progress}
    (henter : ∀ child ∈ children, child ∉ path → ∀ p : Progress,
      Explores next (child :: path) (next child) p (enter child p)) :
    Explores next path children p
      (children.foldl (fun p child =>
        if child ∈ path then { p with cycles := p.cycles ++ [closedBy path child] }
        else if child ∈ p.visited then p
        else enter child { p with visited := child :: p.visited }) p) := by
  induction children generalizing p with
  | nil => exact .done path p
  | cons child rest ih =>
    have hrest (p : Progress) := ih (p := p) fun c hc => henter c (List.mem_cons_of_mem _ hc)
    rw [List.foldl_cons]
    by_cases hpath : child ∈ path
    · rw [if_pos hpath]
      exact .close hpath (hrest _)
    · rw [if_neg hpath]
      by_cases hvisited : child ∈ p.visited
      · rw [if_pos hvisited]
        exact .skip hpath hvisited (hrest p)
      · rw [if_neg hvisited]
        exact .enter hpath hvisited (henter child List.mem_cons_self hpath _) (hrest _)

end Explores

/-- The nodes that a graph mentions, as nodes or as successors. -/
def mentioned (adjacency : Adjacency) : List String :=
  adjacency.map Prod.fst ++ adjacency.flatMap Prod.snd

/-- The bound counts the nodes that are mentioned. -/
theorem length_mentioned (adjacency : Adjacency) : adjacency.mentioned.length = adjacency.bound := by
  rw [mentioned, List.length_append, List.length_map, bound]

/-- A node is a node with its successors. -/
theorem mem_nodes {adjacency : Adjacency} {node : String} :
    node ∈ adjacency.nodes ↔ node ∈ adjacency.map Prod.fst := mem_sortPaths

/-- A successor stands among those that are listed with a node. -/
theorem exists_mem_of_mem_successors {adjacency : Adjacency} {node child : String}
    (h : child ∈ adjacency.successors node) :
    ∃ members, (node, members) ∈ adjacency ∧ child ∈ members := by
  rw [successors, mem_sortPaths] at h
  cases hlookup : adjacency.lookup node with
  | none => simp [hlookup] at h
  | some members =>
    rw [hlookup, Option.getD_some] at h
    obtain ⟨before, after, rfl, -⟩ := List.lookup_eq_some_iff.mp hlookup
    exact ⟨members, by simp, h⟩

/-- A successor is mentioned. -/
theorem mem_mentioned_of_mem_successors {adjacency : Adjacency} {node child : String}
    (h : child ∈ adjacency.successors node) : child ∈ adjacency.mentioned := by
  obtain ⟨members, hmembers, hchild⟩ := exists_mem_of_mem_successors h
  exact List.mem_append_right _ (List.mem_flatMap.mpr ⟨_, hmembers, hchild⟩)

/-- The search from the end of a path takes all its steps: the bound exceeds what is mentioned and
not yet on the path. -/
theorem explores_explore {adjacency : Adjacency} {fuel : ℕ} {node : String} {path : List String}
    (hnodup : (node :: path).Nodup) (hmentioned : ∀ v ∈ node :: path, v ∈ adjacency.mentioned)
    (hfuel : adjacency.bound < fuel + (node :: path).length) (p : Progress) :
    Explores adjacency.successors (node :: path) (adjacency.successors node) p
      (explore adjacency fuel (node :: path) p) := by
  induction fuel generalizing node path p with
  | zero =>
    have hlength := (hnodup.subperm hmentioned).length_le
    rw [length_mentioned] at hlength
    omega
  | succ fuel ih =>
    rw [explore]
    refine Explores.foldl fun child hchild hpath p => ih (hnodup.cons hpath) ?_ ?_ p
    · intro v hv
      rcases List.mem_cons.mp hv with rfl | hv
      · exact mem_mentioned_of_mem_successors hchild
      · exact hmentioned v hv
    · rw [List.length_cons]
      omega

/-- The search over a whole graph takes its steps from the nodes as starts. -/
theorem explores_nodes (adjacency : Adjacency) :
    Explores adjacency.successors [] adjacency.nodes {}
      (adjacency.nodes.foldl adjacency.exploreFrom {}) := by
  have hstep : adjacency.exploreFrom = fun p child =>
      if child ∈ [] then { p with cycles := p.cycles ++ [closedBy [] child] }
      else if child ∈ p.visited then p
      else explore adjacency (adjacency.bound + 1) [child]
        { p with visited := child :: p.visited } := by
    funext p child
    simp [exploreFrom]
  rw [hstep]
  refine Explores.foldl fun start hstart _ p => explores_explore (List.nodup_singleton start) ?_ ?_ p
  · intro v hv
    rw [List.mem_singleton.mp hv]
    exact List.mem_append_left _ (mem_nodes.mp hstart)
  · rw [List.length_singleton]
    omega

/-- The search over graphs with the same nodes and the same successors closes the same cycles. -/
theorem cycles_congr {adjacency other : Adjacency} (hnodes : other.nodes = adjacency.nodes)
    (hsuccessors : other.successors = adjacency.successors) : other.cycles = adjacency.cycles := by
  have hother := explores_nodes other
  rw [hnodes, hsuccessors] at hother
  have hend := hother.unique (explores_nodes adjacency)
  rw [cycles, cycles, hnodes, hend]

end ImportAtlas.Adjacency
