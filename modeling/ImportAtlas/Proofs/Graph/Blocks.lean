import ImportAtlas.Proofs.Graph.Duality
import ImportAtlas.Proofs.Graph.Expanding

/-!
# The block of a root

The tree that is drawn for a root draws the edges that the root reaches, each on one line. A module
with dependencies is expanded at one place of the block, which is where all the lines for its edges
stand; every other line for it is marked.
-/

namespace ImportAtlas.Drawn

variable {next : String → List String}

/-- Along modules that follow each other, a way leads from each one above down to the lowest. -/
theorem transGen_of_isChain {path : String} {above : List String}
    (h : (path :: above).IsChain fun later earlier => later ∈ next earlier) :
    ∀ v ∈ above, Relation.TransGen (StepsTo next) v path := by
  have htrans : IsTrans String fun later earlier =>
      Relation.TransGen (StepsTo next) earlier later := ⟨fun _ _ _ hab hbc => hbc.trans hab⟩
  have hways : (path :: above).Pairwise fun later earlier =>
      Relation.TransGen (StepsTo next) earlier later :=
    List.isChain_iff_pairwise.mp (h.imp fun _ _ => Relation.TransGen.single)
  exact fun v hv => List.rel_of_pairwise_cons hways hv

/-- What is drawn directly below places are the edges from the modules that they expand. -/
theorem flatMap_edgesBelow {places : List Place}
    (h : ∀ p ∈ places, p.drawn.children ≠ [] →
      p.drawn.children.map Drawn.path = next p.drawn.path) :
    places.flatMap Place.edgesBelow =
      (expandedPaths places).flatMap fun u => (next u).map fun v => (u, v) := by
  induction places with
  | nil => rfl
  | cons p places ih =>
    obtain ⟨hp, hplaces⟩ := List.forall_mem_cons.mp h
    obtain ⟨above, lasts, ⟨path, mark, sub⟩⟩ := p
    rw [List.flatMap_cons, ih hplaces]
    by_cases hsub : sub = []
    · subst hsub
      rw [expandedPaths_cons_nil]
      rfl
    · have hbelow : sub.map Drawn.path = next path := hp hsub
      rw [expandedPaths_cons _ _ _ _ hsub, List.flatMap_cons, ← hbelow, List.map_map]
      rfl

/-- Edges from modules that are kept are those from kept modules with dependencies. -/
theorem filter_flatMap_edges (kept : String → Bool) (paths : List String) :
    (paths.flatMap fun u => (next u).map fun v => (u, v)).filter (fun e => kept e.1) =
      (paths.filter fun u => kept u && !(next u).isEmpty).flatMap fun u =>
        (next u).map fun v => (u, v) := by
  induction paths with
  | nil => rfl
  | cons u paths ih =>
    rw [List.flatMap_cons, List.filter_append, ih, List.filter_map, Function.comp_def]
    by_cases hkept : kept u <;> by_cases hnext : next u = [] <;> simp [hkept, hnext]

/-- Of values with distinct keys, one has a key that is among them. -/
theorem exists_filter_eq_singleton {α : Type*} (key : α → String) {values : List α} {k : String}
    (hnodup : (values.map key).Nodup) (hk : k ∈ values.map key) :
    ∃ v, values.filter (fun x => key x == k) = [v] := by
  refine List.length_eq_one_iff.mp ?_
  rw [← List.countP_eq_length_filter]
  have hcount := List.count_eq_one_of_mem hnodup hk
  rw [List.count, List.countP_map] at hcount
  exact hcount

section Root

variable {root : String} {tree : Drawn} {drawn : List String}

/-- The modules above a line of a block lead down to it, the root first of all. -/
theorem Draws.ways (h : Draws next [] [] [root] [tree] drawn) :
    ∀ p ∈ tree.block, Relation.ReflTransGen (StepsTo next) root p.drawn.path ∧
      ∀ v ∈ p.above, Relation.TransGen (StepsTo next) v p.drawn.path := by
  intro p hp
  have hnone : ∀ parent ∈ ([] : List String).head?, ∀ c ∈ [root], c ∈ next parent :=
    fun parent hparent => absurd hparent (by simp)
  obtain ⟨hchain, c, hc, hsuffix⟩ := h.chain List.isChain_nil hnone [] p hp
  have hways := transGen_of_isChain hchain
  refine ⟨?_, hways⟩
  have hroot : root ∈ p.drawn.path :: p.above :=
    hsuffix.subset (List.mem_singleton.mp hc ▸ List.mem_cons_self)
  rcases List.mem_cons.mp hroot with heq | hroot
  · rw [heq]
  · exact (hways root hroot).to_reflTransGen

/-- The modules expanded in the block of a root are those with dependencies that it reaches. -/
theorem Draws.mem_expandedPaths_block (h : Draws next [] [] [root] [tree] drawn) (u : String) :
    u ∈ expandedPaths tree.block ↔
      Relation.ReflTransGen (StepsTo next) root u ∧ next u ≠ [] := by
  have hexpands := h.expands []
  constructor
  · intro hu
    obtain ⟨p, hp, -, rfl⟩ := mem_expandedPaths.mp hu
    exact ⟨(h.ways p hp).1, hexpands.next_ne_nil _ hu⟩
  · rintro ⟨hsteps, hne⟩
    obtain ⟨hroot, hclosed⟩ := h.closed (List.nil_subset _) []
    have hexpanded (v : String) (hv : v ∈ drawn) (hnext : next v ≠ []) :
        v ∈ expandedPaths tree.block :=
      ((hexpands.mem_drawn v hnext).mp hv).resolve_left List.not_mem_nil
    induction hsteps with
    | refl => exact hexpanded root (hroot root (List.mem_singleton_self root) hne) hne
    | @tail a b _ hstep ih =>
      have ha : next a ≠ [] := List.ne_nil_of_mem hstep
      exact hexpanded b (hclosed a (ih ha) b hstep hne) hne

/-- A module with dependencies that the root reaches is expanded at one place, below which all its
dependencies are drawn, and no line stands directly below it anywhere else. -/
theorem Draws.exists_expansion (h : Draws next [] [] [root] [tree] drawn) {u : String}
    (hsteps : Relation.ReflTransGen (StepsTo next) root u) (hnext : next u ≠ []) :
    ∃ p, (tree.block.filter fun q => q.drawn.path == u && q.isExpanded) = [p] ∧
      p.drawn.children.map Drawn.path = next u ∧
      ∀ q ∈ tree.block, q.above.head? = some u →
        q.above = u :: p.above ∧ q.drawn ∈ p.drawn.children := by
  obtain ⟨p, hp⟩ := exists_filter_eq_singleton (fun q : Place => q.drawn.path) (h.expands []).nodup
    ((h.mem_expandedPaths_block u).mpr ⟨hsteps, hnext⟩)
  rw [List.filter_filter] at hp
  have hmem (q : Place) : q = p ↔ q ∈ tree.block ∧ q.drawn.path = u ∧ q.drawn.children ≠ [] := by
    rw [← List.mem_singleton, ← hp, List.mem_filter]
    simp [block, Place.isExpanded]
  obtain ⟨hblock, hpath, hchildren⟩ := (hmem p).mp rfl
  refine ⟨p, hp, ?_, fun q hq habove => ?_⟩
  · rw [h.children_eq [] p hblock hchildren, hpath]
  · rcases exists_parent_of_mem_block hq with ⟨htop, -⟩ | ⟨parent, hparent, hup, hbelow⟩
    · rw [htop] at habove
      exact absurd habove (by simp)
    · rw [hup, List.head?_cons, Option.some.injEq] at habove
      obtain rfl := (hmem parent).mpr ⟨hparent, habove, List.ne_nil_of_mem hbelow⟩
      exact ⟨habove ▸ hup, hbelow⟩

/-- The modules of a block are those that its root reaches. -/
theorem Draws.exists_place_iff (h : Draws next [] [] [root] [tree] drawn) (v : String) :
    (∃ p ∈ tree.block, p.drawn.path = v) ↔ Relation.ReflTransGen (StepsTo next) root v := by
  constructor
  · rintro ⟨p, hp, rfl⟩
    exact (h.ways p hp).1
  · intro hsteps
    cases hsteps with
    | refl =>
      obtain ⟨path, mark, sub⟩ := tree
      rw [block, levelPlaces_cons]
      exact ⟨_, List.mem_cons_self, List.singleton_inj.mp h.map_path⟩
    | @tail a _ hsteps hstep =>
      -- The edge from a module that is reached is drawn by some line.
      have hbelow : tree.block.flatMap Place.edgesBelow = _ := flatMap_edgesBelow (h.children_eq [])
      have hedge : (a, v) ∈ tree.block.filterMap Place.edge? := by
        rw [(edges_block tree).1.mem_iff, hbelow]
        refine List.mem_flatMap.mpr ⟨a, ?_, List.mem_map.mpr ⟨v, hstep, rfl⟩⟩
        exact (h.mem_expandedPaths_block a).mpr ⟨hsteps, List.ne_nil_of_mem hstep⟩
      obtain ⟨p, hp, hedge⟩ := List.mem_filterMap.mp hedge
      obtain ⟨parent, -, heq⟩ := Option.map_eq_some_iff.mp hedge
      exact ⟨p, hp, (Prod.mk.inj heq).2⟩

/-- Where no line of the block is marked as a cycle, the root reaches none. -/
theorem Draws.acyclic (h : Draws next [] [] [root] [tree] drawn)
    (hnone : ∀ p ∈ tree.block, p.drawn.mark ≠ .cycle) {v : String}
    (hv : Relation.ReflTransGen (StepsTo next) root v) :
    ¬ Relation.TransGen (StepsTo next) v v := by
  obtain ⟨q, hexplores, hcycles, -⟩ := h.explores [] hnone (p := {}) fun v => Iff.rfl
  obtain ⟨done, hend, -, hleft⟩ := hexplores.leaves ⟨List.nodup_nil, by simp, trivial⟩
  have hremains : Adjacency.Remains next q.closings = StepsTo next := by
    funext a b
    simp [Adjacency.Remains, Adjacency.Progress.closings, hcycles]
  have hroot : root ∈ done :=
    (hleft root (List.mem_singleton_self root)).resolve_left (by simp)
  have hdone : v ∈ done := hend.settled.mem_of_steps hroot (hremains ▸ hv)
  rw [← hremains]
  exact hend.settled.acyclic hend.nodup v hdone

/-- A line of the block is marked as a cycle exactly if the root reaches one. -/
theorem Draws.exists_cycle_iff (h : Draws next [] [] [root] [tree] drawn) :
    (∃ p ∈ tree.block, p.drawn.mark = .cycle) ↔
      ∃ v, Relation.ReflTransGen (StepsTo next) root v ∧ Relation.TransGen (StepsTo next) v v := by
  constructor
  · rintro ⟨p, hp, hmark⟩
    obtain ⟨before, after, hsplit⟩ := List.append_of_mem hp
    obtain ⟨hroot, hways⟩ := h.ways p hp
    exact ⟨p.drawn.path, hroot, hways _ ((h.marked [] before p after hsplit).cycle_iff.mp hmark)⟩
  · rintro ⟨v, hv, hcycle⟩
    by_contra hnone
    exact h.acyclic (fun p hp hmark => hnone ⟨p, hp, hmark⟩) hv hcycle

end Root

end ImportAtlas.Drawn

namespace ImportAtlas.ImportGraph

open Drawn

variable {g : ImportGraph} {nodes : Finset String} {edges : Finset (String × String)} {root : String}

/-- The edges are those from each module to its dependencies, in the order of the modules. -/
theorem edges_eq_flatMap (hnodup : g.paths.Nodup) :
    g.edges = g.paths.flatMap fun u => (g.dependencies u).map fun v => (u, v) := by
  rw [ImportGraph.edges, modules_eq_map_paths hnodup, List.flatMap_map]

/-- The text of a drawing are the lines of its places. -/
theorem drawnText_eq (g : ImportGraph) (glyphs : Glyphs) :
    g.drawnText glyphs = "\n\n".intercalate
      (g.drawing.map fun t => "\n".intercalate (t.block.map (Place.text glyphs))) := by
  simp only [drawnText, treeLines_eq_map]

/-- A root of a drawing is a module. -/
theorem mem_paths_of_mem_drawnRoots (hroot : root ∈ g.drawnRoots) : root ∈ g.paths := by
  rw [drawnRoots] at hroot
  split at hroot
  · exact hroot
  · obtain ⟨m, hm, rfl⟩ := List.mem_map.mp hroot
    exact List.mem_map.mpr ⟨m, (List.mem_filter.mp hm).1, rfl⟩

namespace Represents

/-- A module reaches what dependencies lead to from it. -/
theorem mem_reachableFrom_singleton (h : g.Represents nodes edges) (hroot : root ∈ g.paths)
    (v : String) :
    v ∈ g.reachableFrom [root] ↔ Relation.ReflTransGen (StepsTo g.dependencies) root v := by
  have hstep : StepsTo g.dependencies = fun a b => (a, b) ∈ edges := by
    funext a b
    rw [StepsTo, h.mem_dependencies]
  rw [h.mem_reachableFrom, hstep]
  simp [(h.mem_paths root).mp hroot]

/-- The lines of a block draw the edges that its root reaches. -/
theorem edges_block_perm (h : g.Represents nodes edges) (hroot : root ∈ g.paths) :
    ((tree g root).block.filterMap Place.edge?).Perm
      (g.edges.filter fun e => (g.reachableFrom [root]).contains e.1) := by
  have hnodup := nodup_of_ascending id h.paths_ascending
  obtain ⟨drawn, hdraws⟩ := draws_tree hroot
  have hbelow : (tree g root).block.flatMap Place.edgesBelow = _ :=
    flatMap_edgesBelow (hdraws.children_eq [])
  rw [edges_eq_flatMap hnodup, filter_flatMap_edges]
  refine (edges_block _).1.trans ?_
  rw [hbelow]
  refine List.Perm.flatMap_right _ ?_
  refine (List.perm_ext_iff_of_nodup (hdraws.expands []).nodup (hnodup.filter _)).mpr fun u => ?_
  have hpath (hne : g.dependencies u ≠ []) : u ∈ g.paths := mem_paths_of_dependencies_ne_nil hne
  refine (hdraws.mem_expandedPaths_block u).trans ?_
  rw [← h.mem_reachableFrom_singleton hroot, List.mem_filter]
  simp only [Bool.and_eq_true, List.contains_iff_mem, Bool.not_eq_true', List.isEmpty_eq_false_iff]
  tauto

end Represents

/-- The text of a drawing are the blocks of its roots, and the block of a root draws, each on one
line, the edges that the root reaches. The drawing of a block comes to an end. Its lines are those
of its places: one for the root, and one for each edge from a module that is reached. A reached
module with dependencies is expanded at one place, all its dependencies are drawn there, and no line
stands directly below it anywhere else. A line is marked as a cycle exactly if its module stands
above it, and as shared exactly if its module has dependencies, was expanded on an earlier line and
does not stand above it; and there is a line marked as a cycle exactly if the root reaches one. -/
theorem block_draws_reached_edges (h : g.Arises) (hroot : root ∈ g.drawnRoots) :
    tree g root ∈ g.drawing ∧
    (∀ glyphs, g.drawnText glyphs = "\n\n".intercalate
      (g.drawing.map fun t => "\n".intercalate (t.block.map (Place.text glyphs)))) ∧
    (∃ drawn, Draws g.dependencies [] [] [root] [tree g root] drawn) ∧
    (tree g root).block.length =
      1 + (g.edges.filter fun e => (g.reachableFrom [root]).contains e.1).length ∧
    ((tree g root).block.filterMap Place.edge?).Perm
      (g.edges.filter fun e => (g.reachableFrom [root]).contains e.1) ∧
    (∀ u ∈ g.reachableFrom [root], g.dependencies u ≠ [] →
      ∃ p, ((tree g root).block.filter fun q => q.drawn.path == u && q.isExpanded) = [p] ∧
        p.drawn.children.map Drawn.path = g.dependencies u ∧
        ∀ q ∈ (tree g root).block, q.above.head? = some u →
          q.above = u :: p.above ∧ q.drawn ∈ p.drawn.children) ∧
    (∀ before p after, (tree g root).block = before ++ p :: after →
      (p.drawn.mark = .cycle ↔ p.drawn.path ∈ p.above) ∧
      (p.drawn.mark = .shared ↔ g.dependencies p.drawn.path ≠ [] ∧
        (∃ q ∈ before, q.isExpanded ∧ q.drawn.path = p.drawn.path) ∧
        p.drawn.path ∉ p.above)) ∧
    ((∃ p ∈ (tree g root).block, p.drawn.mark = .cycle) ↔
      ∃ v ∈ g.reachableFrom [root], Relation.TransGen (fun a b => b ∈ g.dependencies a) v v) := by
  obtain ⟨nodes, edges, hg⟩ := h.represents
  have hpath := mem_paths_of_mem_drawnRoots hroot
  have hperm := hg.edges_block_perm hpath
  have hreached := hg.mem_reachableFrom_singleton hpath
  obtain ⟨drawn, hdraws⟩ := draws_tree hpath
  refine ⟨List.mem_map_of_mem hroot, g.drawnText_eq, ⟨drawn, hdraws⟩, ?_, hperm,
    fun u hu hne => ?_, fun before p after heq => ?_, ?_⟩
  · rw [(edges_block _).2, hperm.length_eq]
  · exact hdraws.exists_expansion ((hreached u).mp hu) hne
  · have hmarked := hdraws.marked [] before p after heq
    refine ⟨hmarked.cycle_iff, ?_⟩
    rw [hmarked.shared_iff, or_iff_right List.not_mem_nil, mem_expandedPaths]
    simp [Place.isExpanded]
  · rw [hdraws.exists_cycle_iff]
    simp only [hreached]
    rfl

/-- A module that two others import is expanded below the first of them and leads back to it. -/
theorem block_draws_reached_edges_shared :
    let calls := [GraphDraft.Call.edge "a" "b", .edge "a" "c", .edge "b" "d", .edge "c" "d",
      .edge "d" "e", .edge "d" "b"]
    let g := (GraphDraft.ofCalls calls).build "" ""
    g.Arises ∧ "a" ∈ g.drawnRoots ∧ (tree g "a").treeLines .ascii =
        ["a", "|-- b", "|   \\-- d", "|       |-- b [*]", "|       \\-- e", "\\-- c", "    \\-- d [...]"] ∧
      (tree g "a").block.length = 1 + 6 ∧
      ∃ v ∈ g.reachableFrom ["a"], Relation.TransGen (fun a b => b ∈ g.dependencies a) v v := by
  intro calls g
  have harises : g.Arises := .build calls "" ""
  have hg : g = ⟨[("a", ⟨["b", "c"], []⟩), ("b", ⟨["d"], ["a", "d"]⟩), ("c", ⟨["d"], ["a"]⟩),
      ("d", ⟨["b", "e"], ["b", "c"]⟩), ("e", ⟨[], ["d"]⟩)], ⟨"", 5, 6, ""⟩⟩ :=
    GraphDraft.build_eq (by decide) (by decide +kernel) (by decide +kernel) (by decide +kernel) "" ""
  have hroot : "a" ∈ g.drawnRoots := by rw [hg]; decide
  obtain ⟨-, -, -, hlength, -, -, -, hcycle⟩ := block_draws_reached_edges harises hroot
  have hlines : (tree g "a").treeLines .ascii = ["a", "|-- b", "|   \\-- d", "|       |-- b [*]",
      "|       \\-- e", "\\-- c", "    \\-- d [...]"] := by
    rw [hg]
    decide
  refine ⟨harises, hroot, hlines, ?_, hcycle.mp ?_⟩
  · rw [hlength, hg]
    decide +kernel
  · rw [hg]
    decide

end ImportAtlas.ImportGraph
