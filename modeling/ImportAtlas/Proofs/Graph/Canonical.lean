import Mathlib.Data.Finset.Card
import Mathlib.Data.List.Lookmap
import Mathlib.Data.String.Basic
import ImportAtlas.Graph.Basic
import ImportAtlas.Proofs.Ascending

/-!
# Graphs as sets of modules and edges

A graph lists its modules and their neighbours in strictly ascending order. Such a list is fixed
by its members, so a graph is fixed, its root and time apart, by the set of its modules and the
set of its edges. `ImportGraph.Represents` states that a graph is the one of two given sets.
-/

namespace ImportAtlas

/-- Sorting keeps the paths. -/
@[simp] theorem mem_sortPaths {paths : List String} {path : String} :
    path ∈ sortPaths paths ↔ path ∈ paths := List.mem_mergeSort

/-- Distinct paths ascend strictly once they are sorted. -/
theorem sortPaths_ascending {paths : List String} (hnodup : paths.Nodup) :
    (sortPaths paths).Pairwise (· < ·) := mergeSort_ascending id hnodup

/-- Sorting gives the strictly ascending paths among the orders of the given ones. -/
theorem sortPaths_eq {paths sorted : List String} (hperm : sorted.Perm paths)
    (hsorted : sorted.Pairwise (· < ·)) : sortPaths paths = sorted := by
  have hnodup : paths.Nodup := hperm.nodup_iff.mp (nodup_of_ascending id hsorted)
  exact ascending_ext id (sortPaths_ascending hnodup) hsorted fun path => by
    rw [mem_sortPaths, hperm.mem_iff]

/-- Distinct paths are as many as there are in the set of them. -/
theorem length_eq_card {paths : List String} {nodes : Finset String} (hnodup : paths.Nodup)
    (hmem : ∀ path, path ∈ paths ↔ path ∈ nodes) : paths.length = nodes.card := by
  have hset : paths.toFinset = nodes := by
    ext path
    rw [List.mem_toFinset, hmem]
  rw [← hset, List.toFinset_card_of_nodup hnodup]

/-- Among entries with distinct keys each is found by its key. -/
theorem lookup_eq_some_of_mem {β : Type*} {entries : List (String × β)} {key : String} {value : β}
    (hnodup : (entries.map Prod.fst).Nodup) (hmem : (key, value) ∈ entries) :
    entries.lookup key = some value := by
  induction entries with
  | nil => simp at hmem
  | cons entry entries ih =>
    rw [List.map_cons, List.nodup_cons] at hnodup
    rcases List.mem_cons.mp hmem with rfl | hmem
    · exact List.lookup_cons_self
    · have hne : key ≠ entry.1 := by
        rintro rfl
        exact hnodup.1 (List.mem_map.mpr ⟨_, hmem, rfl⟩)
      rw [List.lookup_cons, beq_false_of_ne hne]
      exact ih hnodup.2 hmem

/-- Something is found exactly by the keys. -/
theorem lookup_isSome_iff {β : Type*} {entries : List (String × β)} {key : String} :
    (entries.lookup key).isSome ↔ key ∈ entries.map Prod.fst := by
  induction entries with
  | nil => simp
  | cons entry entries ih =>
    rw [List.lookup_cons, List.map_cons, List.mem_cons]
    by_cases h : key = entry.1
    · simp [h]
    · rw [beq_false_of_ne h, ih, or_iff_right h]

namespace ImportGraph

/-- The graph of a set of modules and a set of edges between them, its root and time apart. -/
structure Represents (g : ImportGraph) (nodes : Finset String) (edges : Finset (String × String)) :
    Prop where
  /-- Edges join modules. -/
  ends_mem : ∀ e ∈ edges, e.1 ∈ nodes ∧ e.2 ∈ nodes
  paths_ascending : g.paths.Pairwise (· < ·)
  mem_paths : ∀ path, path ∈ g.paths ↔ path ∈ nodes
  dependencies_ascending : ∀ path, (g.dependencies path).Pairwise (· < ·)
  mem_dependencies : ∀ source target, target ∈ g.dependencies source ↔ (source, target) ∈ edges
  dependents_ascending : ∀ path, (g.dependents path).Pairwise (· < ·)
  mem_dependents : ∀ source target, source ∈ g.dependents target ↔ (source, target) ∈ edges
  totalFiles_eq : g.facts.totalFiles = nodes.card
  totalDependencies_eq : g.facts.totalDependencies = edges.card

/-- With distinct paths, the modules are the paths with what is found by them. -/
theorem modules_eq_map_paths {g : ImportGraph} (hnodup : g.paths.Nodup) :
    g.modules = g.paths.map fun path => (path, ⟨g.dependencies path, g.dependents path⟩) := by
  rw [paths, List.map_map]
  refine (List.map_id g.modules).symm.trans (List.map_congr_left fun m hm => ?_)
  have hfind : g.find? m.1 = some m.2 := lookup_eq_some_of_mem hnodup hm
  simp [dependencies, dependents, hfind]

/-- With distinct paths, the roots are the paths without dependents. -/
theorem rootPaths_eq_filter {g : ImportGraph} (hnodup : g.paths.Nodup) :
    g.rootPaths = g.paths.filter fun path => (g.dependents path).isEmpty := by
  rw [rootPaths, modules_eq_map_paths hnodup, List.filter_map, List.map_map]
  simp [Function.comp_def]

/-- A path is a module exactly if it is among the paths. -/
theorem contains_iff {g : ImportGraph} {path : String} : g.contains path ↔ path ∈ g.paths :=
  lookup_isSome_iff

namespace Represents

variable {g : ImportGraph} {nodes : Finset String} {edges : Finset (String × String)}

/-- The neighbours on both sides agree about every edge. -/
theorem mem_dependencies_iff_mem_dependents (h : g.Represents nodes edges)
    (source target : String) :
    target ∈ g.dependencies source ↔ source ∈ g.dependents target := by
  rw [h.mem_dependencies, h.mem_dependents]

/-- The roots are in strictly ascending order. -/
theorem rootPaths_ascending (h : g.Represents nodes edges) : g.rootPaths.Pairwise (· < ·) := by
  rw [rootPaths_eq_filter (nodup_of_ascending id h.paths_ascending)]
  exact h.paths_ascending.filter _

/-- The roots are the modules that no edge leads to. -/
theorem mem_rootPaths (h : g.Represents nodes edges) (path : String) :
    path ∈ g.rootPaths ↔ path ∈ nodes ∧ ∀ source, (source, path) ∉ edges := by
  rw [rootPaths_eq_filter (nodup_of_ascending id h.paths_ascending), List.mem_filter, h.mem_paths,
    List.isEmpty_iff, List.eq_nil_iff_forall_not_mem]
  simp only [h.mem_dependents]

/-- Two graphs of the same sets with one root and one time are equal. -/
theorem eq_of_facts {g' : ImportGraph} (h : g.Represents nodes edges)
    (h' : g'.Represents nodes edges) (hroot : g.facts.root = g'.facts.root)
    (htime : g.facts.generatedAt = g'.facts.generatedAt) : g = g' := by
  have hpaths : g.paths = g'.paths :=
    ascending_ext id h.paths_ascending h'.paths_ascending fun path => by
      rw [h.mem_paths, h'.mem_paths]
  have hdependencies : g.dependencies = g'.dependencies := by
    funext source
    exact ascending_ext id (h.dependencies_ascending source) (h'.dependencies_ascending source)
      fun target => by rw [h.mem_dependencies, h'.mem_dependencies]
  have hdependents : g.dependents = g'.dependents := by
    funext target
    exact ascending_ext id (h.dependents_ascending target) (h'.dependents_ascending target)
      fun source => by rw [h.mem_dependents, h'.mem_dependents]
  have hmodules : g.modules = g'.modules := by
    rw [modules_eq_map_paths (nodup_of_ascending id h.paths_ascending),
      modules_eq_map_paths (nodup_of_ascending id h'.paths_ascending), hpaths, hdependencies,
      hdependents]
  have hfiles := h.totalFiles_eq.trans h'.totalFiles_eq.symm
  have hcount := h.totalDependencies_eq.trans h'.totalDependencies_eq.symm
  obtain ⟨modules, root, files, dependencies, time⟩ := g
  obtain ⟨modules', root', files', dependencies', time'⟩ := g'
  simp_all

end Represents

end ImportGraph

end ImportAtlas
