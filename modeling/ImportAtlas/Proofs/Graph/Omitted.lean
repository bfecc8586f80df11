import ImportAtlas.Proofs.Graph.Blocks

/-!
# What a drawing leaves out

A drawing has one block for each module that nothing imports, and only where there is none has it
one for every module. So it leaves out what no such module reaches, as soon as there is one: modules
that import each other in a circle, and what they alone import. Nothing else is left out.
-/

namespace ImportAtlas.ImportGraph

open Drawn

variable {g : ImportGraph} {nodes : Finset String} {edges : Finset (String × String)}

/-- A module is on a line of the drawing exactly if one of the drawn roots reaches it. -/
theorem Represents.exists_line_iff (h : g.Represents nodes edges) (path : String) :
    (∃ t ∈ g.drawing, ∃ p ∈ t.block, p.drawn.path = path) ↔
      ∃ root ∈ g.drawnRoots, path ∈ g.reachableFrom [root] := by
  simp only [drawing, List.mem_map, exists_exists_and_eq_and]
  refine exists_congr fun root => and_congr_right fun hroot => ?_
  have hmodule := mem_paths_of_mem_drawnRoots hroot
  obtain ⟨drawn, hdraws⟩ := draws_tree hmodule
  rw [hdraws.exists_place_iff, h.mem_reachableFrom_singleton hmodule]

/-- A module is on a line of the drawing exactly if there is no root or a root reaches it. -/
theorem Represents.exists_line_iff_root (h : g.Represents nodes edges) {path : String}
    (hpath : path ∈ g.paths) :
    (∃ t ∈ g.drawing, ∃ p ∈ t.block, p.drawn.path = path) ↔
      g.rootPaths = [] ∨ ∃ root ∈ g.rootPaths, path ∈ g.reachableFrom [root] := by
  rw [h.exists_line_iff]
  by_cases hroots : g.rootPaths = []
  · rw [drawnRoots, if_pos (List.isEmpty_iff.mpr hroots), iff_true_right (.inl hroots)]
    exact ⟨path, hpath, (h.mem_reachableFrom_singleton hpath path).mpr .refl⟩
  · rw [drawnRoots, if_neg (mt List.isEmpty_iff.mp hroots), or_iff_right hroots]

/-- The lines of the text, whatever they begin with, are those of the places of the blocks. A module
is on one of them exactly if no module is without dependents, or one without dependents reaches it.
A module that is on none is reached from a cycle, and none of the modules of the cycle is on one. -/
theorem drawn_iff_reached (h : g.Arises) {path : String} (hpath : g.contains path) :
    (∀ glyphs, g.drawnText glyphs = "\n\n".intercalate
      (g.drawing.map fun t => "\n".intercalate (t.block.map (Place.text glyphs)))) ∧
    ((∃ t ∈ g.drawing, ∃ p ∈ t.block, p.drawn.path = path) ↔
      g.rootPaths = [] ∨ ∃ root ∈ g.rootPaths, path ∈ g.reachableFrom [root]) ∧
    ((¬ ∃ t ∈ g.drawing, ∃ p ∈ t.block, p.drawn.path = path) →
      let leads := Relation.TransGen fun a b => b ∈ g.dependencies a
      ∃ v, leads v v ∧ path ∈ g.reachableFrom [v] ∧
        ∀ v', leads v v' → leads v' v → ¬ ∃ t ∈ g.drawing, ∃ p ∈ t.block, p.drawn.path = v') := by
  obtain ⟨nodes, edges, hg⟩ := h.represents
  have hmodule : path ∈ g.paths := contains_iff.mp hpath
  refine ⟨g.drawnText_eq, hg.exists_line_iff_root hmodule, fun hnone => ?_⟩
  rw [hg.exists_line_iff_root hmodule] at hnone
  obtain ⟨v, hcycle, hsteps⟩ :=
    (hg.exists_root_or_cycle ((hg.mem_paths path).mp hmodule)).resolve_left fun hroot => by
      obtain ⟨root, hroot, hsteps⟩ := hroot
      refine hnone (.inr ⟨root, hroot, (hg.mem_reachableFrom [root] path).mpr ?_⟩)
      exact ⟨root, List.mem_singleton_self root, ((hg.mem_rootPaths root).mp hroot).1, hsteps⟩
  have hnode : path ∈ nodes := (hg.mem_paths path).mp hmodule
  have hv : v ∈ nodes := (hg.mem_nodes_iff_of_steps hsteps).mpr hnode
  intro leads
  have hleads : leads = Relation.TransGen fun a b => (a, b) ∈ edges := by
    simp only [leads, hg.mem_dependencies]
  rw [hleads]
  refine ⟨v, hcycle, (hg.mem_reachableFrom [v] path).mpr ?_, fun v' _ hback hline => ?_⟩
  · exact ⟨v, List.mem_singleton_self v, hv, hsteps⟩
  · -- What reaches a module of the cycle reaches the module below it.
    have hsteps' := hback.to_reflTransGen.trans hsteps
    have hv' : v' ∈ nodes := (hg.mem_nodes_iff_of_steps hsteps').mpr hnode
    rw [hg.exists_line_iff_root ((hg.mem_paths v').mpr hv')] at hline
    refine hnone (hline.imp_right fun ⟨root, hroot, hreached⟩ => ⟨root, hroot, ?_⟩)
    obtain ⟨entry, hentry, hentryNode, hdown⟩ := (hg.mem_reachableFrom [root] v').mp hreached
    exact (hg.mem_reachableFrom [root] path).mpr ⟨entry, hentry, hentryNode, hdown.trans hsteps'⟩

/-- Beside a root, two modules that import each other are on no line, nor is what they import. -/
theorem drawn_iff_reached_circle :
    let calls := [GraphDraft.Call.node "a", .edge "b" "c", .edge "c" "b", .edge "c" "d"]
    let g := (GraphDraft.ofCalls calls).build "" ""
    g.Arises ∧ g.contains "d" ∧ g.drawnText .ascii = "a" ∧
      let leads := Relation.TransGen fun a b => b ∈ g.dependencies a
      ∃ v, leads v v ∧ "d" ∈ g.reachableFrom [v] ∧
        ∀ v', leads v v' → leads v' v → ¬ ∃ t ∈ g.drawing, ∃ p ∈ t.block, p.drawn.path = v' := by
  intro calls g
  have harises : g.Arises := .build calls "" ""
  have hg : g = ⟨[("a", ⟨[], []⟩), ("b", ⟨["c"], ["c"]⟩), ("c", ⟨["b", "d"], ["b"]⟩),
      ("d", ⟨[], ["c"]⟩)], ⟨"", 4, 3, ""⟩⟩ :=
    GraphDraft.build_eq (by decide) (by decide +kernel) (by decide +kernel) (by decide +kernel) "" ""
  have hcontains : g.contains "d" := by
    rw [hg]
    decide
  have hnone : ¬ ∃ t ∈ g.drawing, ∃ p ∈ t.block, p.drawn.path = "d" := by
    rw [hg]
    decide
  obtain ⟨-, -, hcycle⟩ := drawn_iff_reached harises hcontains
  refine ⟨harises, hcontains, ?_, hcycle hnone⟩
  rw [hg]
  decide

/-- Not every module is on a line of the drawing: two modules import each other beside one that
nothing imports. -/
theorem not_forall_drawn :
    ¬ ∀ g : ImportGraph, g.Arises → ∀ path, g.contains path →
      ∃ t ∈ g.drawing, ∃ p ∈ t.block, p.drawn.path = path := by
  intro hall
  let calls := [GraphDraft.Call.node "a", .edge "b" "c", .edge "c" "b"]
  let g := (GraphDraft.ofCalls calls).build "" ""
  have hg : g = ⟨[("a", ⟨[], []⟩), ("b", ⟨["c"], ["c"]⟩), ("c", ⟨["b"], ["b"]⟩)],
      ⟨"", 3, 2, ""⟩⟩ :=
    GraphDraft.build_eq (by decide) (by decide +kernel) (by decide +kernel) (by decide +kernel) "" ""
  have hcontains : g.contains "b" := by
    rw [hg]
    decide
  have hline := hall g (.build calls "" "") "b" hcontains
  rw [hg] at hline
  revert hline
  decide

end ImportAtlas.ImportGraph
