import ImportAtlas.Proofs.Graph.Scoping

/-!
# The subgraph that entries induce

What entries reach is closed under dependencies, so a way from a reached module never leaves what
is reached. Scoping a scoped graph again therefore reaches what the original graph reaches from
those of the second entries that the first ones reach, and nothing but an entry can be without
dependents in a scoped graph.
-/

namespace ImportAtlas.ImportGraph

/-- The subgraph depends on what is reached alone. -/
theorem scopedTo_congr {g : ImportGraph} {entries others : List String}
    (h : ∀ path, path ∈ g.reachableFrom entries ↔ path ∈ g.reachableFrom others) :
    g.scopedTo entries = g.scopedTo others := by
  have hkept (path : String) :
      (g.reachableFrom entries).contains path = (g.reachableFrom others).contains path := by
    rw [Bool.eq_iff_iff, List.contains_iff_mem, List.contains_iff_mem, h]
  simp only [scopedTo, funext hkept, hkept]

/-- Cutting modules and their dependencies down cuts the edges down on both ends. -/
theorem flatMap_targets_filter (kept : String → Bool) (modules : List (String × Neighbours)) :
    ((modules.filter fun m => kept m.1).flatMap fun m =>
        (m.2.dependencies.filter kept).map fun target => (m.1, target)) =
      (modules.flatMap fun m => m.2.dependencies.map fun target => (m.1, target)).filter fun e =>
        kept e.1 && kept e.2 := by
  induction modules with
  | nil => rfl
  | cons m modules ih =>
    rw [List.flatMap_cons, List.filter_append, ← ih, List.filter_map, Function.comp_def]
    by_cases hm : kept m.1 <;> simp [hm]

section Scoped

variable (g : ImportGraph) (entries : List String)

/-- The edges of the subgraph are those among the reached modules, in the same order. -/
theorem edges_scopedTo :
    (g.scopedTo entries).edges = g.edges.filter fun e =>
      (g.reachableFrom entries).contains e.1 && (g.reachableFrom entries).contains e.2 := by
  rw [edges, edges, scopedTo, ← flatMap_targets_filter, List.flatMap_map]

/-- The subgraph has the root of the graph. -/
@[simp] theorem root_scopedTo : (g.scopedTo entries).facts.root = g.facts.root := rfl

/-- The subgraph has the time of the graph. -/
@[simp] theorem generatedAt_scopedTo :
    (g.scopedTo entries).facts.generatedAt = g.facts.generatedAt := rfl

/-- The subgraph tells the number of its modules. -/
theorem totalFiles_scopedTo_eq_length :
    (g.scopedTo entries).facts.totalFiles = (g.scopedTo entries).paths.length := by
  rw [paths, List.length_map]
  rfl

/-- The subgraph tells the number of its edges. -/
theorem totalDependencies_scopedTo_eq_length :
    (g.scopedTo entries).facts.totalDependencies = (g.scopedTo entries).edges.length := by
  rw [edges, List.length_flatMap]
  simp only [List.length_map]
  rw [← List.length_flatMap]
  rfl

end Scoped

namespace Represents

variable {g : ImportGraph} {nodes : Finset String} {edges : Finset (String × String)}
  (h : g.Represents nodes edges) (entries others : List String)

include h

/-- A way leads from a module exactly if it leads to one. -/
theorem mem_nodes_iff_of_steps {source target : String}
    (hsteps : Relation.ReflTransGen (fun a b => (a, b) ∈ edges) source target) :
    source ∈ nodes ↔ target ∈ nodes := by
  induction hsteps with
  | refl => rfl
  | tail _ hedge ih =>
    have hends := h.ends_mem _ hedge
    exact ih.trans (iff_of_true hends.1 hends.2)

/-- What is reached is a module. -/
theorem mem_nodes_of_mem_reachableFrom {path : String} (hpath : path ∈ g.reachableFrom entries) :
    path ∈ nodes := by
  obtain ⟨start, -, hmodule, hsteps⟩ := (h.mem_reachableFrom entries path).mp hpath
  exact (h.mem_nodes_iff_of_steps hsteps).mp hmodule

/-- A way from a reached module stays among the reached modules. -/
theorem steps_within_reachableFrom {source target : String}
    (hsource : source ∈ g.reachableFrom entries)
    (hsteps : Relation.ReflTransGen (fun a b => (a, b) ∈ edges) source target) :
    target ∈ g.reachableFrom entries ∧
      Relation.ReflTransGen (fun a b => (a, b) ∈ edgesAmongReached entries g edges) source target := by
  induction hsteps with
  | refl => exact ⟨hsource, .refl⟩
  | tail _ hedge ih =>
    have hnext := h.reachableFrom_closed ih.1 hedge
    exact ⟨hnext, ih.2.tail (Finset.mem_filter.mpr ⟨hedge, ih.1, hnext⟩)⟩

/-- Starting from some of what is reached leads only to what is reached. -/
theorem mem_reachableFrom_of_filter (path : String)
    (hpath : path ∈ g.reachableFrom (others.filter (g.reachableFrom entries).contains)) :
    path ∈ g.reachableFrom entries := by
  obtain ⟨start, hstart, -, hsteps⟩ := (h.mem_reachableFrom _ path).mp hpath
  have hreached : start ∈ g.reachableFrom entries :=
    List.contains_iff_mem.mp (List.mem_filter.mp hstart).2
  exact (h.steps_within_reachableFrom entries hreached hsteps).1

/-- In a scoped graph the same is reached as in the original one, from those starts that the
entries reach. -/
theorem mem_reachableFrom_scopedTo (path : String) :
    path ∈ (g.scopedTo entries).reachableFrom others ↔
      path ∈ g.reachableFrom (others.filter (g.reachableFrom entries).contains) := by
  rw [(h.scopedTo entries).mem_reachableFrom, h.mem_reachableFrom]
  simp only [List.mem_filter, List.contains_iff_mem, reachedAmong, Finset.mem_filter]
  constructor
  · rintro ⟨start, hstart, ⟨hmodule, hreached⟩, hsteps⟩
    refine ⟨start, ⟨hstart, hreached⟩, hmodule, ?_⟩
    exact Relation.ReflTransGen.mono (fun _ _ hedge => (Finset.mem_filter.mp hedge).1) _ _ hsteps
  · rintro ⟨start, ⟨hstart, hreached⟩, hmodule, hsteps⟩
    exact ⟨start, hstart, ⟨hmodule, hreached⟩,
      (h.steps_within_reachableFrom entries hreached hsteps).2⟩

/-- Scoping a scoped graph again is scoping to those of the second entries that the first ones
reach. -/
theorem scopedTo_scopedTo :
    (g.scopedTo entries).scopedTo others =
      g.scopedTo (others.filter (g.reachableFrom entries).contains) := by
  have htwice := (h.scopedTo entries).scopedTo others
  have honce := h.scopedTo (others.filter (g.reachableFrom entries).contains)
  have hnodes : reachedAmong others (g.scopedTo entries) (reachedAmong entries g nodes) =
      reachedAmong (others.filter (g.reachableFrom entries).contains) g nodes := by
    ext path
    simp only [reachedAmong, Finset.mem_filter, h.mem_reachableFrom_scopedTo]
    have hreached := h.mem_reachableFrom_of_filter entries others path
    tauto
  have hedges : edgesAmongReached others (g.scopedTo entries) (edgesAmongReached entries g edges) =
      edgesAmongReached (others.filter (g.reachableFrom entries).contains) g edges := by
    ext ⟨source, target⟩
    simp only [edgesAmongReached, Finset.mem_filter, h.mem_reachableFrom_scopedTo]
    have hsource := h.mem_reachableFrom_of_filter entries others source
    have htarget := h.mem_reachableFrom_of_filter entries others target
    tauto
  rw [hnodes, hedges] at htwice
  exact htwice.eq_of_facts honce (by simp) (by simp)

/-- Entries that are not reached are no modules, and leaving them out changes nothing. -/
theorem scopedTo_filter_reached :
    g.scopedTo (entries.filter (g.reachableFrom entries).contains) = g.scopedTo entries := by
  refine scopedTo_congr fun path => ⟨h.mem_reachableFrom_of_filter entries entries path, fun hpath => ?_⟩
  obtain ⟨start, hstart, hmodule, hsteps⟩ := (h.mem_reachableFrom entries path).mp hpath
  have hreached : start ∈ g.reachableFrom entries :=
    (h.mem_reachableFrom entries start).mpr ⟨start, hstart, hmodule, .refl⟩
  exact (h.mem_reachableFrom _ path).mpr
    ⟨start, List.mem_filter.mpr ⟨hstart, List.contains_iff_mem.mpr hreached⟩, hmodule, hsteps⟩

/-- A root of a scoped graph is an entry: any other module was reached along an edge, which is
kept. -/
theorem mem_entries_of_mem_rootPaths_scopedTo {path : String}
    (hpath : path ∈ (g.scopedTo entries).rootPaths) : path ∈ entries := by
  obtain ⟨hmodule, hroot⟩ := ((h.scopedTo entries).mem_rootPaths path).mp hpath
  have hreached : path ∈ g.reachableFrom entries := (Finset.mem_filter.mp hmodule).2
  obtain ⟨start, hstart, hnode, hsteps⟩ := (h.mem_reachableFrom entries path).mp hreached
  rcases hsteps.cases_tail with rfl | ⟨source, hbefore, hedge⟩
  · exact hstart
  · have hsource : source ∈ g.reachableFrom entries :=
      (h.mem_reachableFrom entries source).mpr ⟨start, hstart, hnode, hbefore⟩
    exact absurd (Finset.mem_filter.mpr ⟨hedge, hsource, hreached⟩) (hroot source)

end Represents

/-- Entries reach the modules that dependencies lead to from one of them. Scoping a built graph to
entries gives the subgraph that these modules induce: its modules, its edges and the neighbours of
each module stand in their old order, both ends agree about every edge, roots and numbers are those
of the subgraph, and root and time are kept. Scoping again is scoping once, to those of the second
entries that the first ones reach; so scoping twice to the same entries is scoping once. Every root
of a scoped graph is an entry. -/
theorem build_scopedTo_induced (calls : List GraphDraft.Call) (root generatedAt : String)
    (entries : List String) :
    let g := (GraphDraft.ofCalls calls).build root generatedAt
    let kept := g.reachableFrom entries
    let part := g.scopedTo entries
    (∀ path, path ∈ kept ↔ ∃ entry ∈ entries, g.contains entry ∧
      Relation.ReflTransGen (fun a b => b ∈ g.dependencies a) entry path) ∧
    part.paths = g.paths.filter kept.contains ∧
    part.edges = g.edges.filter (fun e => kept.contains e.1 && kept.contains e.2) ∧
    (∀ path ∈ kept, part.dependencies path = (g.dependencies path).filter kept.contains ∧
      part.dependents path = (g.dependents path).filter kept.contains) ∧
    (∀ x y, y ∈ part.dependencies x ↔ x ∈ part.dependents y) ∧
    part.rootPaths.Pairwise (· < ·) ∧
    (∀ path, path ∈ part.rootPaths ↔
      path ∈ kept ∧ ∀ source ∈ kept, path ∉ g.dependencies source) ∧
    part.facts.totalFiles = part.paths.length ∧
    part.facts.totalDependencies = part.edges.length ∧
    part.facts.root = root ∧ part.facts.generatedAt = generatedAt ∧
    (∀ others, part.scopedTo others = g.scopedTo (others.filter kept.contains)) ∧
    part.scopedTo entries = part ∧
    ∀ path ∈ part.rootPaths, path ∈ entries := by
  intro g kept part
  have hg : g.Represents (GraphDraft.mentioned calls) (GraphDraft.added calls) :=
    (GraphDraft.holds_ofCalls calls).build root generatedAt
  have hpart := hg.scopedTo entries
  have hnodup : g.paths.Nodup := nodup_of_ascending id hg.paths_ascending
  have hmodule (path : String) (hpath : path ∈ kept) : path ∈ g.paths ∧ path ∈ kept :=
    ⟨(hg.mem_paths path).mpr (hg.mem_nodes_of_mem_reachableFrom entries hpath), hpath⟩
  refine ⟨fun path => ?_, paths_scopedTo entries hnodup, g.edges_scopedTo entries,
    fun path hpath => ⟨?_, ?_⟩, hpart.mem_dependencies_iff_mem_dependents,
    hpart.rootPaths_ascending, fun path => ?_, g.totalFiles_scopedTo_eq_length entries,
    g.totalDependencies_scopedTo_eq_length entries, rfl, rfl, hg.scopedTo_scopedTo entries, ?_,
    fun path => hg.mem_entries_of_mem_rootPaths_scopedTo entries⟩
  · simp only [kept, hg.mem_reachableFrom, contains_iff, hg.mem_paths, hg.mem_dependencies]
  · rw [dependencies_scopedTo entries hnodup, if_pos (hmodule path hpath)]
  · rw [dependents_scopedTo entries hnodup, if_pos (hmodule path hpath)]
  · rw [hpart.mem_rootPaths, reachedAmong, Finset.mem_filter,
      and_iff_right_of_imp (hg.mem_nodes_of_mem_reachableFrom entries)]
    refine and_congr_right fun hpath => forall_congr' fun source => ?_
    simp only [edgesAmongReached, Finset.mem_filter, hg.mem_dependencies, kept]
    tauto
  · exact (hg.scopedTo_scopedTo entries entries).trans (hg.scopedTo_filter_reached entries)

end ImportAtlas.ImportGraph
