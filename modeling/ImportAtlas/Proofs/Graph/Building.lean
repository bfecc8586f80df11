import Mathlib.Algebra.BigOperators.Group.Finset.Basic
import Mathlib.Algebra.GroupWithZero.Nat
import Mathlib.Data.Finset.Sigma
import ImportAtlas.Proofs.Graph.Collecting

/-!
# The graph that a draft builds

A draft that holds a set of modules and a set of edges builds the graph of these sets. What a
sequence of calls on a fresh draft builds is therefore fixed by the paths that the calls mention
and the edges that they add: neither the order of the calls nor their repetition shows.
-/

namespace ImportAtlas

/-- Edges are counted by their sources. -/
theorem card_edges_eq_sum {paths : List String} {out : String → List String}
    {edges : Finset (String × String)} (hpaths : paths.Nodup) (hout : ∀ path, (out path).Nodup)
    (hsource : ∀ e ∈ edges, e.1 ∈ paths) (hmem : ∀ s t, t ∈ out s ↔ (s, t) ∈ edges) :
    edges.card = (paths.map fun path => (out path).length).sum := by
  have hfiber (path : String) : (edges.filter fun e => e.1 = path).card = (out path).length := by
    have himage : (edges.filter fun e => e.1 = path) =
        (out path).toFinset.image fun target => (path, target) := by
      ext ⟨s, t⟩
      simp only [Finset.mem_filter, Finset.mem_image, List.mem_toFinset, Prod.mk.injEq]
      constructor
      · rintro ⟨he, rfl⟩
        exact ⟨t, (hmem s t).mpr he, rfl, rfl⟩
      · rintro ⟨t, ht, rfl, rfl⟩
        exact ⟨(hmem _ _).mp ht, rfl⟩
    rw [himage, Finset.card_image_of_injective _ (Prod.mk_right_injective path),
      List.toFinset_card_of_nodup (hout path)]
  rw [Finset.card_eq_sum_card_fiberwise (f := Prod.fst) (t := paths.toFinset)
    fun e he => List.mem_toFinset.mpr (hsource e he)]
  simp only [hfiber]
  exact List.sum_toFinset _ hpaths

namespace ImportGraph

/-- Ordering modules by their paths keeps the modules. -/
theorem modules_ofModules_perm (modules : List (String × Neighbours)) (facts : GraphFacts) :
    (ofModules modules facts).modules.Perm modules := List.mergeSort_perm _ _

/-- The paths of ordered modules ascend strictly if they are distinct. -/
theorem paths_ofModules_ascending {modules : List (String × Neighbours)} (facts : GraphFacts)
    (hnodup : (modules.map Prod.fst).Nodup) : (ofModules modules facts).paths.Pairwise (· < ·) :=
  List.pairwise_map.mpr (mergeSort_ascending Prod.fst (List.pairwise_map.mp hnodup))

end ImportGraph

namespace GraphDraft

section Build

variable {d : GraphDraft} {nodes : Finset String} {edges : Finset (String × String)}

/-- The modules of the graph are those of the draft in ascending order. -/
theorem paths_build_perm (d : GraphDraft) (root generatedAt : String) :
    (d.build root generatedAt).paths.Perm d.nodes := by
  have h := (ImportGraph.modules_ofModules_perm (d.nodes.map fun path =>
    (path, Neighbours.mk (sortPaths (d.dependencies path)) (sortPaths (d.dependents path))))
    (d.build root generatedAt).facts).map Prod.fst
  rw [List.map_map, Function.comp_def, List.map_id'] at h
  exact h

/-- The graph of a draft, given its modules in ascending order and their neighbours as well. -/
theorem build_eq {modules : List (String × Neighbours)}
    (hpaths : (modules.map Prod.fst).Pairwise (· < ·)) (hnodes : d.nodes.Perm (modules.map Prod.fst))
    (hdependencies : ∀ m ∈ modules,
      m.2.dependencies.Perm (d.dependencies m.1) ∧ m.2.dependencies.Pairwise (· < ·))
    (hdependents : ∀ m ∈ modules,
      m.2.dependents.Perm (d.dependents m.1) ∧ m.2.dependents.Pairwise (· < ·))
    (root generatedAt : String) :
    d.build root generatedAt = ⟨modules, ⟨root, modules.length,
      (modules.flatMap fun m => m.2.dependencies).length, generatedAt⟩⟩ := by
  let beside (path : String) : String × Neighbours :=
    (path, ⟨sortPaths (d.dependencies path), sortPaths (d.dependents path)⟩)
  have hbeside : modules = (modules.map Prod.fst).map beside := by
    rw [List.map_map]
    refine (List.map_id modules).symm.trans (List.map_congr_left fun m hm => ?_)
    obtain ⟨hperm, hsorted⟩ := hdependencies m hm
    obtain ⟨hperm', hsorted'⟩ := hdependents m hm
    simp only [Function.comp_def, beside, sortPaths_eq hperm hsorted, sortPaths_eq hperm' hsorted']
    rfl
  have hperm : (d.nodes.map beside).Perm modules := by
    rw [hbeside]
    exact hnodes.map beside
  have hdistinct : (d.nodes.map beside).Pairwise fun a b => a.1 ≠ b.1 := by
    rw [List.pairwise_map]
    exact hnodes.nodup_iff.mpr (nodup_of_ascending id hpaths)
  have hsorted : ((d.nodes.map beside).mergeSort fun a b => a.1 ≤ b.1) = modules :=
    ascending_ext Prod.fst (mergeSort_ascending Prod.fst hdistinct) (List.pairwise_map.mp hpaths)
      fun m => by rw [List.mem_mergeSort, hperm.mem_iff]
  rw [GraphDraft.build, ImportGraph.ofModules]
  change ImportGraph.mk ((d.nodes.map beside).mergeSort _) ⟨root, (d.nodes.map beside).length,
    ((d.nodes.map beside).flatMap fun m => m.2.dependencies).length, generatedAt⟩ = _
  rw [hsorted, hperm.length_eq, (hperm.flatMap_right _).length_eq]

/-- What stands beside a module in the graph is what stood beside it in the draft, sorted. -/
theorem find?_build (h : d.nodes.Nodup) (root generatedAt : String) {path : String}
    (hpath : path ∈ d.nodes) :
    (d.build root generatedAt).find? path =
      some ⟨sortPaths (d.dependencies path), sortPaths (d.dependents path)⟩ := by
  refine lookup_eq_some_of_mem ((d.paths_build_perm root generatedAt).nodup_iff.mpr h) ?_
  refine (ImportGraph.modules_ofModules_perm _ _).mem_iff.mpr ?_
  exact List.mem_map.mpr ⟨path, hpath, rfl⟩

/-- A path that is no module of the draft is none of the graph. -/
theorem find?_build_eq_none (root generatedAt : String) {path : String} (hpath : path ∉ d.nodes) :
    (d.build root generatedAt).find? path = none := by
  rw [← Option.not_isSome_iff_eq_none]
  exact fun hsome => hpath
    ((d.paths_build_perm root generatedAt).mem_iff.mp (lookup_isSome_iff.mp hsome))

namespace Holds

/-- A path that is no module has no edges. -/
theorem neighbours_eq_nil (h : d.Holds nodes edges) {path : String} (hpath : path ∉ d.nodes) :
    d.dependencies path = [] ∧ d.dependents path = [] :=
  ⟨ModuleMap.get_eq_nil hpath, ModuleMap.get_eq_nil (h.keys_eq ▸ hpath)⟩

/-- The dependencies in the graph are those of the draft, sorted. -/
theorem dependencies_build (h : d.Holds nodes edges) (root generatedAt path : String) :
    (d.build root generatedAt).dependencies path = sortPaths (d.dependencies path) := by
  by_cases hpath : path ∈ d.nodes
  · rw [ImportGraph.dependencies, find?_build h.nodes_nodup root generatedAt hpath]
    rfl
  · rw [ImportGraph.dependencies, find?_build_eq_none root generatedAt hpath,
      (h.neighbours_eq_nil hpath).1, sortPaths, List.mergeSort_nil]
    rfl

/-- The dependents in the graph are those of the draft, sorted. -/
theorem dependents_build (h : d.Holds nodes edges) (root generatedAt path : String) :
    (d.build root generatedAt).dependents path = sortPaths (d.dependents path) := by
  by_cases hpath : path ∈ d.nodes
  · rw [ImportGraph.dependents, find?_build h.nodes_nodup root generatedAt hpath]
    rfl
  · rw [ImportGraph.dependents, find?_build_eq_none root generatedAt hpath,
      (h.neighbours_eq_nil hpath).2, sortPaths, List.mergeSort_nil]
    rfl

/-- The number of modules in the graph is the size of their set. -/
theorem totalFiles_build (h : d.Holds nodes edges) (root generatedAt : String) :
    (d.build root generatedAt).facts.totalFiles = nodes.card := by
  rw [← length_eq_card h.nodes_nodup h.mem_nodes]
  simp [GraphDraft.build, ImportGraph.ofModules]

/-- The number of dependencies in the graph is the size of the set of edges. -/
theorem totalDependencies_build (h : d.Holds nodes edges) (root generatedAt : String) :
    (d.build root generatedAt).facts.totalDependencies = edges.card := by
  rw [card_edges_eq_sum h.nodes_nodup h.dependencies_nodup
    (fun e he => (h.mem_nodes e.1).mpr (h.ends_mem e he).1) h.mem_dependencies]
  simp [GraphDraft.build, ImportGraph.ofModules, sortPaths, List.length_flatMap, Function.comp_def]

/-- The graph built from a draft is the graph of what the draft holds. -/
theorem build (h : d.Holds nodes edges) (root generatedAt : String) :
    (d.build root generatedAt).Represents nodes edges where
  ends_mem := h.ends_mem
  paths_ascending := ImportGraph.paths_ofModules_ascending _ (by
    rw [List.map_map]
    exact (List.map_id d.nodes).symm ▸ h.nodes_nodup)
  mem_paths path := by rw [(d.paths_build_perm root generatedAt).mem_iff, h.mem_nodes]
  dependencies_ascending path := by
    rw [h.dependencies_build]
    exact sortPaths_ascending (h.dependencies_nodup path)
  mem_dependencies source target := by
    rw [h.dependencies_build, mem_sortPaths, h.mem_dependencies]
  dependents_ascending path := by
    rw [h.dependents_build]
    exact sortPaths_ascending (h.dependents_nodup path)
  mem_dependents source target := by
    rw [h.dependents_build, mem_sortPaths, h.mem_dependents]
  totalFiles_eq := h.totalFiles_build root generatedAt
  totalDependencies_eq := h.totalDependencies_build root generatedAt

end Holds

end Build

/-- A call on a draft. -/
inductive Call where
  | node (path : String)
  | edge (source target : String)
deriving DecidableEq, Repr

namespace Call

/-- The draft after a call. -/
def apply (d : GraphDraft) : Call → GraphDraft
  | .node path => d.addNode path
  | .edge source target => d.addEdge source target

/-- The paths that a call mentions. -/
def paths : Call → Finset String
  | .node path => {path}
  | .edge source target => {source, target}

/-- The edges that a call adds. -/
def edges : Call → Finset (String × String)
  | .node _ => ∅
  | .edge source target => {(source, target)}

end Call

/-- The draft after calls on a fresh one. -/
def ofCalls (calls : List Call) : GraphDraft := calls.foldl Call.apply {}

/-- The paths that calls mention. -/
def mentioned (calls : List Call) : Finset String := calls.toFinset.biUnion Call.paths

/-- The edges that calls add. -/
def added (calls : List Call) : Finset (String × String) := calls.toFinset.biUnion Call.edges

/-- A call adds the paths it mentions and the edges it adds to what a draft holds. -/
theorem Holds.apply {d : GraphDraft} {nodes : Finset String} {edges : Finset (String × String)}
    (h : d.Holds nodes edges) (call : Call) :
    (call.apply d).Holds (call.paths ∪ nodes) (call.edges ∪ edges) := by
  cases call with
  | node path => simpa [Call.apply, Call.paths, Call.edges] using h.addNode path
  | edge source target =>
    have hadd := h.addEdge source target
    rw [Finset.insert_comm] at hadd
    simpa [Call.apply, Call.paths, Call.edges, Finset.insert_union] using hadd

/-- After any calls the draft holds the paths they mention and the edges they add. -/
theorem holds_ofCalls (calls : List Call) :
    (ofCalls calls).Holds (mentioned calls) (added calls) := by
  induction calls using List.reverseRecOn with
  | nil => exact Holds.empty
  | append_singleton calls call ih =>
    have hmentioned : mentioned (calls ++ [call]) = call.paths ∪ mentioned calls := by
      simp [mentioned, List.toFinset_append, Finset.union_comm]
    have hadded : added (calls ++ [call]) = call.edges ∪ added calls := by
      simp [added, List.toFinset_append, Finset.union_comm]
    rw [hmentioned, hadded, ofCalls, List.foldl_append]
    exact ih.apply call

/-- An edge is among the added ones exactly if there is a call for it. -/
theorem mem_added {calls : List Call} {source target : String} :
    (source, target) ∈ added calls ↔ Call.edge source target ∈ calls := by
  rw [added, Finset.mem_biUnion]
  constructor
  · rintro ⟨call, hcall, hedge⟩
    cases call with
    | node path => simp [Call.edges] at hedge
    | edge s t =>
      obtain ⟨rfl, rfl⟩ := Prod.mk.inj (Finset.mem_singleton.mp hedge)
      exact List.mem_toFinset.mp hcall
  · exact fun h => ⟨_, List.mem_toFinset.mpr h, Finset.mem_singleton_self _⟩

/-- The graph built after any calls is the graph of the paths they mention and the edges they
add, in ascending order throughout and seen alike from both ends of every edge; a call for an
edge counts it as new exactly if no earlier call added it; and calls that mention the same paths
and add the same edges build the same graph. -/
theorem build_ofCalls_canonical (calls : List Call) (root generatedAt : String) :
    let g := (ofCalls calls).build root generatedAt
    g.Represents (mentioned calls) (added calls) ∧
    g.facts.root = root ∧ g.facts.generatedAt = generatedAt ∧
    (∀ a b, b ∈ g.dependencies a ↔ a ∈ g.dependents b) ∧
    g.rootPaths.Pairwise (· < ·) ∧
    (∀ path, path ∈ g.rootPaths ↔
      path ∈ mentioned calls ∧ ∀ source, (source, path) ∉ added calls) ∧
    (∀ source target, ((ofCalls calls).recordEdge source target).1 = true ↔
      Call.edge source target ∉ calls) ∧
    ∀ others, mentioned others = mentioned calls → added others = added calls →
      (ofCalls others).build root generatedAt = g := by
  intro g
  have hg : g.Represents (mentioned calls) (added calls) :=
    (holds_ofCalls calls).build root generatedAt
  refine ⟨hg, rfl, rfl, hg.mem_dependencies_iff_mem_dependents, hg.rootPaths_ascending,
    hg.mem_rootPaths, ?_, ?_⟩
  · intro source target
    rw [(holds_ofCalls calls).recordEdge_new_iff, mem_added]
  · intro others hmentioned hadded
    have hothers := (holds_ofCalls others).build root generatedAt
    rw [hmentioned, hadded] at hothers
    exact hothers.eq_of_facts hg rfl rfl

/-- Three calls with a module of its own, a self-edge and a repetition build the graph that two
of them build in another order. -/
theorem build_ofCalls_canonical_repeated :
    let calls := [Call.edge "a" "a", .node "b", .edge "a" "a"]
    let others := [Call.node "b", .edge "a" "a"]
    mentioned others = mentioned calls ∧ added others = added calls ∧
      (ofCalls others).build "" "" = (ofCalls calls).build "" "" := by
  have hmentioned : mentioned [Call.node "b", .edge "a" "a"] =
      mentioned [Call.edge "a" "a", .node "b", .edge "a" "a"] := by decide
  have hadded : added [Call.node "b", .edge "a" "a"] =
      added [Call.edge "a" "a", .node "b", .edge "a" "a"] := by decide
  exact ⟨hmentioned, hadded,
    (build_ofCalls_canonical _ "" "").2.2.2.2.2.2.2 _ hmentioned hadded⟩

end GraphDraft

end ImportAtlas
