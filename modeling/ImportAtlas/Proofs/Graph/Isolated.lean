import ImportAtlas.Proofs.Graph.Induced

/-!
# Modules of their own

A graph can be extended by modules without edges. Such modules change nothing about the others,
and paths that are modules already are passed over, so the graph that results depends neither on
the order of the given paths nor on their repetition.
-/

namespace ImportAtlas

/-- With distinct keys, the order of the entries does not matter to what is found. -/
theorem lookup_perm {β : Type*} {entries others : List (String × β)} (h : entries.Perm others)
    (hnodup : (entries.map Prod.fst).Nodup) (key : String) :
    entries.lookup key = others.lookup key := by
  have hnodup' : (others.map Prod.fst).Nodup := (h.map Prod.fst).nodup_iff.mp hnodup
  by_cases hkey : key ∈ entries.map Prod.fst
  · obtain ⟨entry, hmem, rfl⟩ := List.mem_map.mp hkey
    rw [lookup_eq_some_of_mem hnodup hmem, lookup_eq_some_of_mem hnodup' (h.mem_iff.mp hmem)]
  · have hkey' : key ∉ others.map Prod.fst := fun hmem => hkey ((h.map Prod.fst).mem_iff.mpr hmem)
    rw [Option.not_isSome_iff_eq_none.mp (lookup_isSome_iff.not.mpr hkey),
      Option.not_isSome_iff_eq_none.mp (lookup_isSome_iff.not.mpr hkey')]

namespace ImportGraph

/-- Those of the given paths that are no modules, each once. -/
def newPaths (g : ImportGraph) (paths : List String) : List String :=
  (paths.filter fun path => !g.contains path).eraseDups

/-- A graph with further modules that import nothing and that nothing imports. -/
def withModules (g : ImportGraph) (paths : List String) : ImportGraph :=
  let fresh := g.newPaths paths
  .ofModules (g.modules ++ fresh.map fun path => (path, ⟨[], []⟩))
    { g.facts with totalFiles := g.facts.totalFiles + fresh.length }

section Extended

variable {g : ImportGraph} {paths : List String}

/-- A new path is a given one that is no module. -/
theorem mem_newPaths {path : String} : path ∈ g.newPaths paths ↔ path ∈ paths ∧ path ∉ g.paths := by
  simp [newPaths, List.mem_eraseDups, ← contains_iff]

/-- The paths with the new ones behind them are distinct. -/
theorem nodup_paths_append_newPaths (hnodup : g.paths.Nodup) :
    (g.paths ++ g.newPaths paths).Nodup :=
  hnodup.append (nodup_eraseDups _) fun _ hold hnew => (mem_newPaths.mp hnew).2 hold

/-- The modules are the old ones and the new ones, put in order. -/
theorem modules_withModules_perm (g : ImportGraph) (paths : List String) :
    (g.withModules paths).modules.Perm
      (g.modules ++ (g.newPaths paths).map fun path => (path, ⟨[], []⟩)) :=
  modules_ofModules_perm _ _

/-- The paths are the old ones and the new ones, put in order. -/
theorem paths_withModules_perm (g : ImportGraph) (paths : List String) :
    (g.withModules paths).paths.Perm (g.paths ++ g.newPaths paths) := by
  have h := (g.modules_withModules_perm paths).map Prod.fst
  rw [List.map_append, List.map_map, Function.comp_def, List.map_id'] at h
  exact h

/-- What stands beside a module, or nothing on both sides beside a new one. -/
theorem find?_withModules (hnodup : g.paths.Nodup) (path : String) :
    (g.withModules paths).find? path =
      (g.find? path).or (if path ∈ g.newPaths paths then some ⟨[], []⟩ else none) := by
  have hdistinct : (g.withModules paths).paths.Nodup :=
    (g.paths_withModules_perm paths).nodup_iff.mpr (nodup_paths_append_newPaths hnodup)
  rw [find?, lookup_perm (g.modules_withModules_perm paths) hdistinct, List.lookup_append,
    lookup_map_pair]
  rfl

/-- The dependencies are the old ones. -/
theorem dependencies_withModules (hnodup : g.paths.Nodup) (path : String) :
    (g.withModules paths).dependencies path = g.dependencies path := by
  rw [dependencies, find?_withModules hnodup, dependencies]
  cases g.find? path with
  | some found => rfl
  | none => split <;> rfl

/-- The dependents are the old ones. -/
theorem dependents_withModules (hnodup : g.paths.Nodup) (path : String) :
    (g.withModules paths).dependents path = g.dependents path := by
  rw [dependents, find?_withModules hnodup, dependents]
  cases g.find? path with
  | some found => rfl
  | none => split <;> rfl

/-- The root is the old one. -/
@[simp] theorem root_withModules (g : ImportGraph) (paths : List String) :
    (g.withModules paths).facts.root = g.facts.root := rfl

/-- The time is the old one. -/
@[simp] theorem generatedAt_withModules (g : ImportGraph) (paths : List String) :
    (g.withModules paths).facts.generatedAt = g.facts.generatedAt := rfl

end Extended

namespace Represents

variable {g : ImportGraph} {nodes : Finset String} {edges : Finset (String × String)}

/-- Further modules are added to the set of modules, and no edges. -/
theorem withModules (h : g.Represents nodes edges) (paths : List String) :
    (g.withModules paths).Represents (paths.toFinset ∪ nodes) edges := by
  have hnodup : g.paths.Nodup := nodup_of_ascending id h.paths_ascending
  have hdistinct : (g.paths ++ g.newPaths paths).Nodup := nodup_paths_append_newPaths hnodup
  have hmem (path : String) :
      path ∈ (g.withModules paths).paths ↔ path ∈ paths.toFinset ∪ nodes := by
    rw [(g.paths_withModules_perm paths).mem_iff, List.mem_append, mem_newPaths, Finset.mem_union,
      List.mem_toFinset, ← h.mem_paths]
    tauto
  exact {
    ends_mem := fun e he => ⟨Finset.mem_union_right _ (h.ends_mem e he).1,
      Finset.mem_union_right _ (h.ends_mem e he).2⟩
    paths_ascending := paths_ofModules_ascending _ (by
      rw [List.map_append, List.map_map, Function.comp_def, List.map_id']
      exact hdistinct)
    mem_paths := hmem
    dependencies_ascending := fun path => by
      rw [dependencies_withModules hnodup]
      exact h.dependencies_ascending path
    mem_dependencies := fun source target => by
      rw [dependencies_withModules hnodup, h.mem_dependencies]
    dependents_ascending := fun path => by
      rw [dependents_withModules hnodup]
      exact h.dependents_ascending path
    mem_dependents := fun source target => by
      rw [dependents_withModules hnodup, h.mem_dependents]
    totalFiles_eq := by
      rw [← length_eq_card hdistinct fun path => by
          rw [← (g.paths_withModules_perm paths).mem_iff, hmem],
        List.length_append, Int.natCast_add, length_eq_card hnodup h.mem_paths, ← h.totalFiles_eq]
      rfl
    totalDependencies_eq := h.totalDependencies_eq }

/-- Scoping a graph to entries that were made modules depends on the set of the entries alone. -/
theorem scopedTo_withModules_congr (h : g.Represents nodes edges) {entries others : List String}
    (hmem : ∀ entry, entry ∈ entries ↔ entry ∈ others) :
    (g.withModules entries).scopedTo entries = (g.withModules others).scopedTo others := by
  have hset : entries.toFinset = others.toFinset := by
    ext entry
    rw [List.mem_toFinset, List.mem_toFinset, hmem]
  have hentries := h.withModules entries
  have hothers := h.withModules others
  rw [← hset] at hothers
  have hsame : g.withModules others = g.withModules entries :=
    hothers.eq_of_facts hentries (by simp) (by simp)
  rw [hsame]
  refine scopedTo_congr fun path => ?_
  simp only [hentries.mem_reachableFrom, hmem]

end Represents

end ImportGraph

end ImportAtlas
