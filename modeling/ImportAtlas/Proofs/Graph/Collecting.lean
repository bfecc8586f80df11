import Mathlib.Data.Finset.Dedup
import Mathlib.Data.List.Nodup
import Mathlib.Algebra.BigOperators.Group.Finset.Basic
import ImportAtlas.Graph.Draft
import ImportAtlas.Proofs.Graph.Canonical

/-!
# What a draft collects

The two maps of a draft have the same keys and hold the same edges, each seen from its other end,
after every call. `GraphDraft.Holds` states it together with the set of modules and the set of
edges that the draft stands for; each call adds to these two sets.
-/

namespace ImportAtlas

namespace ModuleMap

/-- Putting a member into a set keeps the keys. -/
@[simp] theorem keys_insertAt (m : ModuleMap) (key member : String) :
    (m.insertAt key member).map Prod.fst = m.map Prod.fst := by
  simp [insertAt, Function.comp_def]

/-- A path that is no key has the empty set. -/
theorem get_eq_nil {m : ModuleMap} {path : String} (h : path ∉ m.map Prod.fst) :
    m.get path = [] := by
  rw [get, Option.not_isSome_iff_eq_none.mp (lookup_isSome_iff.not.mpr h), Option.getD_none]

/-- A set is looked up before a member is put into it. -/
theorem lookup_insertAt (m : ModuleMap) (key member path : String) :
    (m.insertAt key member).lookup path =
      (m.lookup path).map fun members => if path = key then members.insert member else members := by
  induction m with
  | nil => rfl
  | cons entry m ih =>
    rw [insertAt, List.map_cons, List.lookup_cons, List.lookup_cons]
    by_cases h : path = entry.1
    · subst h
      rw [beq_self_eq_true]
      rfl
    · rw [beq_false_of_ne h]
      exact ih

/-- Putting a member into the set of a key changes this set alone. -/
theorem get_insertAt {m : ModuleMap} {key : String} (hkey : key ∈ m.map Prod.fst)
    (member path : String) :
    (m.insertAt key member).get path =
      if path = key then (m.get path).insert member else m.get path := by
  have hlookup := lookup_insertAt m key member path
  by_cases hpath : path ∈ m.map Prod.fst
  · obtain ⟨members, hmembers⟩ := Option.isSome_iff_exists.mp (lookup_isSome_iff.mpr hpath)
    rw [get, get, hlookup, hmembers]
    rfl
  · have hne : path ≠ key := fun h => hpath (h ▸ hkey)
    rw [if_neg hne, get_eq_nil hpath, get_eq_nil (by rwa [keys_insertAt])]

/-- A new key comes with the empty set, so no set changes. -/
theorem get_append_new (m : ModuleMap) (key path : String) :
    get (m ++ [(key, [])]) path = m.get path := by
  by_cases hpath : path ∈ m.map Prod.fst
  · obtain ⟨members, hmembers⟩ := Option.isSome_iff_exists.mp (lookup_isSome_iff.mpr hpath)
    rw [get, get, List.lookup_append, hmembers, Option.some_or]
  · have hnone := Option.not_isSome_iff_eq_none.mp (lookup_isSome_iff.not.mpr hpath)
    rw [get_eq_nil hpath, get, List.lookup_append, hnone, Option.none_or, List.lookup_cons]
    cases path == key <;> rfl

end ModuleMap

namespace GraphDraft

/-- The draft holds a set of modules and a set of edges between them, the edges on both sides. -/
structure Holds (d : GraphDraft) (nodes : Finset String) (edges : Finset (String × String)) :
    Prop where
  ends_mem : ∀ e ∈ edges, e.1 ∈ nodes ∧ e.2 ∈ nodes
  keys_eq : d.importersOf.map Prod.fst = d.nodes
  nodes_nodup : d.nodes.Nodup
  mem_nodes : ∀ path, path ∈ d.nodes ↔ path ∈ nodes
  dependencies_nodup : ∀ path, (d.dependencies path).Nodup
  mem_dependencies : ∀ source target, target ∈ d.dependencies source ↔ (source, target) ∈ edges
  dependents_nodup : ∀ path, (d.dependents path).Nodup
  mem_dependents : ∀ source target, source ∈ d.dependents target ↔ (source, target) ∈ edges

/-- A path is a module exactly if it is among the nodes. -/
theorem contains_iff {d : GraphDraft} {path : String} : d.contains path ↔ path ∈ d.nodes := by
  rw [contains, List.contains_iff_mem]

/-- An edge is there exactly if its target is among the dependencies of its source. -/
theorem hasEdge_iff {d : GraphDraft} {source target : String} :
    d.hasEdge source target ↔ target ∈ d.dependencies source := by
  rw [hasEdge, List.contains_iff_mem]

namespace Holds

variable {d : GraphDraft} {nodes : Finset String} {edges : Finset (String × String)}

/-- The empty draft holds nothing. -/
theorem empty : Holds {} ∅ ∅ := by
  constructor <;> simp [GraphDraft.nodes, dependencies, dependents, ModuleMap.get]

/-- Adding a module adds it to the set of modules. -/
theorem addNode (h : d.Holds nodes edges) (path : String) :
    (d.addNode path).Holds (insert path nodes) edges := by
  have hends : ∀ e ∈ edges, e.1 ∈ insert path nodes ∧ e.2 ∈ insert path nodes := fun e he =>
    ⟨Finset.mem_insert_of_mem (h.ends_mem e he).1, Finset.mem_insert_of_mem (h.ends_mem e he).2⟩
  by_cases hpath : path ∈ d.nodes
  · rw [GraphDraft.addNode, if_pos (contains_iff.mpr hpath),
      Finset.insert_eq_of_mem ((h.mem_nodes path).mp hpath)]
    exact h
  · rw [GraphDraft.addNode, if_neg (contains_iff.not.mpr hpath)]
    have hdependencies (p : String) :
        GraphDraft.dependencies ⟨d.importsOf ++ [(path, [])], d.importersOf ++ [(path, [])]⟩ p =
          d.dependencies p := ModuleMap.get_append_new _ path p
    have hdependents (p : String) :
        GraphDraft.dependents ⟨d.importsOf ++ [(path, [])], d.importersOf ++ [(path, [])]⟩ p =
          d.dependents p := ModuleMap.get_append_new _ path p
    exact {
      ends_mem := hends
      keys_eq := by simpa [GraphDraft.nodes] using h.keys_eq
      nodes_nodup := by
        rw [GraphDraft.nodes, List.map_append]
        exact List.Nodup.append h.nodes_nodup (List.nodup_singleton path)
          (by simpa [GraphDraft.nodes] using hpath)
      mem_nodes := fun p => by
        have := h.mem_nodes p
        simp only [GraphDraft.nodes] at this
        simp only [GraphDraft.nodes, List.map_append, List.mem_append, this, List.map_cons,
          List.map_nil, List.mem_singleton, Finset.mem_insert]
        exact or_comm
      dependencies_nodup := fun p => by rw [hdependencies]; exact h.dependencies_nodup p
      mem_dependencies := fun s t => by rw [hdependencies]; exact h.mem_dependencies s t
      dependents_nodup := fun p => by rw [hdependents]; exact h.dependents_nodup p
      mem_dependents := fun s t => by rw [hdependents]; exact h.mem_dependents s t }

/-- Inserting an edge between modules on both sides adds it to the set of edges. -/
theorem insertEdge (h : d.Holds nodes edges) {source target : String} (hsource : source ∈ nodes)
    (htarget : target ∈ nodes) :
    Holds ⟨d.importsOf.insertAt source target, d.importersOf.insertAt target source⟩ nodes
      (insert (source, target) edges) := by
  have hdependencies (p : String) :
      GraphDraft.dependencies
          ⟨d.importsOf.insertAt source target, d.importersOf.insertAt target source⟩ p =
        if p = source then (d.dependencies p).insert target else d.dependencies p :=
    ModuleMap.get_insertAt ((h.mem_nodes source).mpr hsource) target p
  have hdependents (p : String) :
      GraphDraft.dependents
          ⟨d.importsOf.insertAt source target, d.importersOf.insertAt target source⟩ p =
        if p = target then (d.dependents p).insert source else d.dependents p :=
    ModuleMap.get_insertAt (h.keys_eq ▸ (h.mem_nodes target).mpr htarget) source p
  exact {
    ends_mem := fun e he => by
      rcases Finset.mem_insert.mp he with rfl | he
      · exact ⟨hsource, htarget⟩
      · exact h.ends_mem e he
    keys_eq := by simpa [GraphDraft.nodes] using h.keys_eq
    nodes_nodup := by simpa [GraphDraft.nodes] using h.nodes_nodup
    mem_nodes := fun p => by simpa [GraphDraft.nodes] using h.mem_nodes p
    dependencies_nodup := fun p => by
      rw [hdependencies]
      split
      · exact (h.dependencies_nodup p).insert
      · exact h.dependencies_nodup p
    mem_dependencies := fun s t => by
      rw [hdependencies, Finset.mem_insert, Prod.mk.injEq]
      split
      · next heq => rw [List.mem_insert_iff, h.mem_dependencies]; simp [heq]
      · next hne => rw [h.mem_dependencies]; simp [hne]
    dependents_nodup := fun p => by
      rw [hdependents]
      split
      · exact (h.dependents_nodup p).insert
      · exact h.dependents_nodup p
    mem_dependents := fun s t => by
      rw [hdependents, Finset.mem_insert, Prod.mk.injEq]
      split
      · next heq => rw [List.mem_insert_iff, h.mem_dependents]; simp [heq]
      · next hne => rw [h.mem_dependents]; simp [hne] }

/-- The draft with both ends of an edge added. -/
theorem addEnds (h : d.Holds nodes edges) (source target : String) :
    ((d.addNode source).addNode target).Holds (insert target (insert source nodes)) edges :=
  (h.addNode source).addNode target

/-- An edge counts as new exactly if it was not there. -/
theorem recordEdge_new_iff (h : d.Holds nodes edges) (source target : String) :
    (d.recordEdge source target).1 = true ↔ (source, target) ∉ edges := by
  rw [← (h.addEnds source target).mem_dependencies, ← hasEdge_iff, recordEdge]
  split <;> simp_all

/-- Adding an edge adds it to the set of edges and its ends to the set of modules. -/
theorem addEdge (h : d.Holds nodes edges) (source target : String) :
    (d.addEdge source target).Holds (insert target (insert source nodes))
      (insert (source, target) edges) := by
  have hends := h.addEnds source target
  rw [GraphDraft.addEdge, recordEdge]
  split
  · next hedge =>
    rwa [Finset.insert_eq_of_mem ((hends.mem_dependencies source target).mp (hasEdge_iff.mp hedge))]
  · exact hends.insertEdge (by simp) (by simp)

end Holds

end GraphDraft

end ImportAtlas
