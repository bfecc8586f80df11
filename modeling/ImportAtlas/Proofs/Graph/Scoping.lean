import ImportAtlas.Proofs.Graph.Building
import ImportAtlas.Proofs.Graph.Reachability

/-!
# The part of a graph that entries reach

Scoping a graph to entries gives the subgraph that the reached modules induce: the edges among
them, and all numbers counted anew. What an entry imports is reached, so an entry keeps all its
dependencies.
-/

namespace ImportAtlas.ImportGraph

variable {g : ImportGraph} {nodes : Finset String} {edges : Finset (String × String)}

/-- The modules reached are those that edges lead to from an entry. -/
theorem Represents.mem_reachableFrom (h : g.Represents nodes edges) (entries : List String)
    (path : String) :
    path ∈ g.reachableFrom entries ↔
      ∃ entry ∈ entries, entry ∈ nodes ∧
        Relation.ReflTransGen (fun a b => (a, b) ∈ edges) entry path := by
  have hstep : (StepsTo fun node => (g.dependencies node).filter g.contains) =
      fun a b => (a, b) ∈ edges := by
    funext a b
    rw [StepsTo, List.mem_filter, contains_iff, h.mem_dependencies, h.mem_paths]
    exact propext (and_iff_left_of_imp fun he => (h.ends_mem _ he).2)
  rw [reachableFrom, mem_closure_iff, hstep]
  simp only [h.mem_paths]

/-- What a reached module imports is reached. -/
theorem Represents.reachableFrom_closed (h : g.Represents nodes edges) {entries : List String}
    {source target : String} (hsource : source ∈ g.reachableFrom entries)
    (hedge : (source, target) ∈ edges) : target ∈ g.reachableFrom entries := by
  obtain ⟨entry, hentry, hmodule, hsteps⟩ := (h.mem_reachableFrom entries source).mp hsource
  exact (h.mem_reachableFrom entries target).mpr ⟨entry, hentry, hmodule, hsteps.tail hedge⟩

/-- What stands beside a path in a list of paths is found by the path. -/
theorem lookup_map_pair {β : Type*} (paths : List String) (value : String → β) (path : String) :
    (paths.map fun p => (p, value p)).lookup path =
      if path ∈ paths then some (value path) else none := by
  induction paths with
  | nil => simp
  | cons p paths ih =>
    rw [List.map_cons, List.lookup_cons]
    by_cases hp : path = p
    · subst hp
      simp
    · rw [beq_false_of_ne hp, ih]
      simp [hp]

section Scoped

variable (entries : List String)

/-- The modules of the scoped graph are the reached ones, their neighbours cut down to these. -/
theorem modules_scopedTo (hnodup : g.paths.Nodup) :
    (g.scopedTo entries).modules =
      (g.paths.filter (g.reachableFrom entries).contains).map fun path =>
        (path, ⟨(g.dependencies path).filter (g.reachableFrom entries).contains,
          (g.dependents path).filter (g.reachableFrom entries).contains⟩) := by
  rw [scopedTo, modules_eq_map_paths hnodup, List.filter_map, List.map_map]
  rfl

/-- What stands beside a module of the scoped graph. -/
theorem find?_scopedTo (hnodup : g.paths.Nodup) (path : String) :
    (g.scopedTo entries).find? path =
      if path ∈ g.paths ∧ path ∈ g.reachableFrom entries then
        some ⟨(g.dependencies path).filter (g.reachableFrom entries).contains,
          (g.dependents path).filter (g.reachableFrom entries).contains⟩
      else none := by
  rw [find?, modules_scopedTo entries hnodup, lookup_map_pair]
  simp only [List.mem_filter, List.contains_iff_mem]

/-- The dependencies in the scoped graph. -/
theorem dependencies_scopedTo (hnodup : g.paths.Nodup) (path : String) :
    (g.scopedTo entries).dependencies path =
      if path ∈ g.paths ∧ path ∈ g.reachableFrom entries then
        (g.dependencies path).filter (g.reachableFrom entries).contains
      else [] := by
  rw [dependencies, find?_scopedTo entries hnodup]
  split <;> rfl

/-- The dependents in the scoped graph. -/
theorem dependents_scopedTo (hnodup : g.paths.Nodup) (path : String) :
    (g.scopedTo entries).dependents path =
      if path ∈ g.paths ∧ path ∈ g.reachableFrom entries then
        (g.dependents path).filter (g.reachableFrom entries).contains
      else [] := by
  rw [dependents, find?_scopedTo entries hnodup]
  split <;> rfl

/-- The paths of the scoped graph are the reached ones. -/
theorem paths_scopedTo (hnodup : g.paths.Nodup) :
    (g.scopedTo entries).paths = g.paths.filter (g.reachableFrom entries).contains := by
  rw [paths, modules_scopedTo entries hnodup, List.map_map]
  exact List.map_id _

/-- The modules among some that entries reach. -/
def reachedAmong (g : ImportGraph) (nodes : Finset String) : Finset String :=
  nodes.filter (· ∈ g.reachableFrom entries)

/-- The edges among some that join modules which entries reach. -/
def edgesAmongReached (g : ImportGraph) (edges : Finset (String × String)) :
    Finset (String × String) :=
  edges.filter fun e => e.1 ∈ g.reachableFrom entries ∧ e.2 ∈ g.reachableFrom entries

namespace Represents

/-- A module of the scoped graph is one that entries reach. -/
theorem mem_paths_scopedTo (h : g.Represents nodes edges) (path : String) :
    path ∈ (g.scopedTo entries).paths ↔ path ∈ reachedAmong entries g nodes := by
  rw [paths_scopedTo entries (nodup_of_ascending id h.paths_ascending), List.mem_filter,
    List.contains_iff_mem, h.mem_paths, reachedAmong, Finset.mem_filter]

/-- The paths of the scoped graph ascend strictly. -/
theorem paths_scopedTo_ascending (h : g.Represents nodes edges) :
    (g.scopedTo entries).paths.Pairwise (· < ·) := by
  rw [paths_scopedTo entries (nodup_of_ascending id h.paths_ascending)]
  exact h.paths_ascending.filter _

/-- The dependencies in the scoped graph ascend strictly. -/
theorem dependencies_scopedTo_ascending (h : g.Represents nodes edges) (path : String) :
    ((g.scopedTo entries).dependencies path).Pairwise (· < ·) := by
  rw [dependencies_scopedTo entries (nodup_of_ascending id h.paths_ascending)]
  split
  · exact (h.dependencies_ascending path).filter _
  · exact List.Pairwise.nil

/-- The dependents in the scoped graph ascend strictly. -/
theorem dependents_scopedTo_ascending (h : g.Represents nodes edges) (path : String) :
    ((g.scopedTo entries).dependents path).Pairwise (· < ·) := by
  rw [dependents_scopedTo entries (nodup_of_ascending id h.paths_ascending)]
  split
  · exact (h.dependents_ascending path).filter _
  · exact List.Pairwise.nil

/-- A dependency in the scoped graph is an edge among reached modules. -/
theorem mem_dependencies_scopedTo (h : g.Represents nodes edges) (source target : String) :
    target ∈ (g.scopedTo entries).dependencies source ↔
      (source, target) ∈ edgesAmongReached entries g edges := by
  rw [dependencies_scopedTo entries (nodup_of_ascending id h.paths_ascending), edgesAmongReached,
    Finset.mem_filter]
  split
  · next hsource => simp [h.mem_dependencies, hsource.2]
  · next hsource =>
    rw [iff_false_left List.not_mem_nil]
    exact fun he => hsource ⟨(h.mem_paths source).mpr (h.ends_mem _ he.1).1, he.2.1⟩

/-- A dependent in the scoped graph is an edge among reached modules. -/
theorem mem_dependents_scopedTo (h : g.Represents nodes edges) (source target : String) :
    source ∈ (g.scopedTo entries).dependents target ↔
      (source, target) ∈ edgesAmongReached entries g edges := by
  rw [dependents_scopedTo entries (nodup_of_ascending id h.paths_ascending), edgesAmongReached,
    Finset.mem_filter]
  split
  · next htarget => simp [h.mem_dependents, htarget.2, and_comm]
  · next htarget =>
    rw [iff_false_left List.not_mem_nil]
    exact fun he => htarget ⟨(h.mem_paths target).mpr (h.ends_mem _ he.1).2, he.2.2⟩

/-- Edges among reached modules join reached modules. -/
theorem ends_mem_reachedAmong (h : g.Represents nodes edges) :
    ∀ e ∈ edgesAmongReached entries g edges,
      e.1 ∈ reachedAmong entries g nodes ∧ e.2 ∈ reachedAmong entries g nodes := by
  intro e he
  obtain ⟨he, hsource, htarget⟩ := Finset.mem_filter.mp he
  exact ⟨Finset.mem_filter.mpr ⟨(h.ends_mem e he).1, hsource⟩,
    Finset.mem_filter.mpr ⟨(h.ends_mem e he).2, htarget⟩⟩

/-- The number of modules of the scoped graph is counted anew. -/
theorem totalFiles_scopedTo (h : g.Represents nodes edges) :
    (g.scopedTo entries).facts.totalFiles = (reachedAmong entries g nodes).card := by
  rw [← length_eq_card (nodup_of_ascending id (h.paths_scopedTo_ascending entries))
    (h.mem_paths_scopedTo entries), paths, List.length_map]
  rfl

/-- The number of dependencies of the scoped graph is counted anew. -/
theorem totalDependencies_scopedTo (h : g.Represents nodes edges) :
    (g.scopedTo entries).facts.totalDependencies = (edgesAmongReached entries g edges).card := by
  have hnodup := nodup_of_ascending id (h.paths_scopedTo_ascending entries)
  have hcount : (g.scopedTo entries).facts.totalDependencies =
      (((g.scopedTo entries).modules.map fun m => m.2.dependencies.length).sum : ℕ) := by
    rw [← List.length_flatMap]
    rfl
  rw [card_edges_eq_sum hnodup
      (fun path => nodup_of_ascending id (h.dependencies_scopedTo_ascending entries path))
      (fun e he => (h.mem_paths_scopedTo entries e.1).mpr (h.ends_mem_reachedAmong entries e he).1)
      (h.mem_dependencies_scopedTo entries),
    hcount, modules_eq_map_paths hnodup, List.map_map]
  rfl

/-- Scoping gives the graph that the reached modules induce. -/
theorem scopedTo (h : g.Represents nodes edges) :
    (g.scopedTo entries).Represents (reachedAmong entries g nodes)
      (edgesAmongReached entries g edges) where
  ends_mem := h.ends_mem_reachedAmong entries
  paths_ascending := h.paths_scopedTo_ascending entries
  mem_paths := h.mem_paths_scopedTo entries
  dependencies_ascending := h.dependencies_scopedTo_ascending entries
  mem_dependencies := h.mem_dependencies_scopedTo entries
  dependents_ascending := h.dependents_scopedTo_ascending entries
  mem_dependents := h.mem_dependents_scopedTo entries
  totalFiles_eq := h.totalFiles_scopedTo entries
  totalDependencies_eq := h.totalDependencies_scopedTo entries

/-- An entry that is a module is one of the scoped graph, and keeps its dependencies. -/
theorem dependencies_scopedTo_of_mem (h : g.Represents nodes edges) {entry : String}
    (hentry : entry ∈ entries) (hmodule : entry ∈ nodes) :
    (g.scopedTo entries).contains entry ∧
      (g.scopedTo entries).dependencies entry = g.dependencies entry := by
  have hreached : entry ∈ g.reachableFrom entries :=
    (h.mem_reachableFrom entries entry).mpr ⟨entry, hentry, hmodule, .refl⟩
  have hscoped := h.scopedTo entries
  refine ⟨contains_iff.mpr ((hscoped.mem_paths entry).mpr ?_), ?_⟩
  · exact Finset.mem_filter.mpr ⟨hmodule, hreached⟩
  · refine ascending_ext id (hscoped.dependencies_ascending entry) (h.dependencies_ascending entry)
      fun target => ?_
    rw [hscoped.mem_dependencies, h.mem_dependencies, edgesAmongReached, Finset.mem_filter]
    exact and_iff_left_of_imp fun he => ⟨hreached, h.reachableFrom_closed hreached he⟩

end Represents

end Scoped

/-- A graph that was built from a draft, and perhaps scoped to entries after that. -/
inductive Arises : ImportGraph → Prop
  | build (calls : List GraphDraft.Call) (root generatedAt : String) :
    Arises ((GraphDraft.ofCalls calls).build root generatedAt)
  | scopedTo {g : ImportGraph} (h : g.Arises) (entries : List String) : (g.scopedTo entries).Arises

/-- Such a graph is the graph of its modules and its edges. -/
theorem Arises.represents (h : g.Arises) : ∃ nodes edges, g.Represents nodes edges := by
  induction h with
  | build calls root generatedAt =>
    exact ⟨_, _, (GraphDraft.holds_ofCalls calls).build root generatedAt⟩
  | scopedTo _ entries ih =>
    obtain ⟨nodes, edges, hg⟩ := ih
    exact ⟨_, _, hg.scopedTo entries⟩

end ImportAtlas.ImportGraph
