import Mathlib.Order.WellFoundedSet
import ImportAtlas.Proofs.Graph.Induced

/-!
# Up along dependents and down along dependencies

A graph shows each edge from both ends, so a way up from a file along dependents is a way down to it
along dependencies, read backwards. The entry points of files are therefore the roots from which
one of the files is reached. Where no way leads back to its start, going up must come to an end,
and every module has an entry point.
-/

namespace ImportAtlas.ImportGraph

variable {g : ImportGraph}

/-- The entry points of files are in strictly ascending order. -/
theorem entryPointsFor_ascending (g : ImportGraph) (files : List String) :
    (g.entryPointsFor files).Pairwise (· < ·) :=
  sortPaths_ascending ((g.nodup_closure g.dependents files).filter _)

namespace Represents

variable {nodes : Finset String} {edges : Finset (String × String)}

/-- Going up along dependents reaches the modules from which edges lead down to a start. -/
theorem mem_closure_dependents (h : g.Represents nodes edges) (files : List String)
    (path : String) :
    path ∈ g.closure g.dependents files ↔
      ∃ file ∈ files, file ∈ nodes ∧
        Relation.ReflTransGen (fun a b => (a, b) ∈ edges) path file := by
  have hstep : (StepsTo fun node => (g.dependents node).filter g.contains) =
      Function.swap fun a b => (a, b) ∈ edges := by
    funext a b
    rw [StepsTo, List.mem_filter, contains_iff, h.mem_dependents, h.mem_paths]
    exact propext (and_iff_left_of_imp fun he => (h.ends_mem _ he).1)
  rw [mem_closure_iff, hstep]
  refine exists_congr fun file => and_congr_right fun _ => ?_
  rw [h.mem_paths, Relation.reflTransGen_swap]

/-- The entry points of files are the roots that lead down to one of them. -/
theorem mem_entryPointsFor (h : g.Represents nodes edges) (files : List String) (path : String) :
    path ∈ g.entryPointsFor files ↔
      path ∈ g.rootPaths ∧ ∃ file ∈ files, file ∈ g.reachableFrom [path] := by
  rw [entryPointsFor, mem_sortPaths, List.mem_filter, h.mem_closure_dependents,
    List.isEmpty_iff, List.eq_nil_iff_forall_not_mem, h.mem_rootPaths]
  simp only [h.mem_dependents, h.mem_reachableFrom, List.mem_singleton, exists_eq_left]
  constructor
  · rintro ⟨⟨file, hfile, hmodule, hsteps⟩, hroot⟩
    have hpath : path ∈ nodes := (h.mem_nodes_iff_of_steps hsteps).mpr hmodule
    exact ⟨⟨hpath, hroot⟩, file, hfile, hpath, hsteps⟩
  · rintro ⟨⟨hpath, hroot⟩, file, hfile, -, hsteps⟩
    exact ⟨⟨file, hfile, (h.mem_nodes_iff_of_steps hsteps).mp hpath, hsteps⟩, hroot⟩

/-- A root leads down to every module that no cycle leads down to: among the finitely many modules
that do, one has no other above it. -/
theorem exists_root_or_cycle (h : g.Represents nodes edges) {file : String} (hfile : file ∈ nodes) :
    (∃ root ∈ g.rootPaths, Relation.ReflTransGen (fun a b => (a, b) ∈ edges) root file) ∨
      ∃ path, Relation.TransGen (fun a b => (a, b) ∈ edges) path path ∧
        Relation.ReflTransGen (fun a b => (a, b) ∈ edges) path file := by
  classical
  refine or_iff_not_imp_right.mpr fun hnone => ?_
  let above := nodes.filter fun path =>
    Relation.ReflTransGen (fun a b => (a, b) ∈ edges) path file
  let down (a b : String) : Prop :=
    (a, b) ∈ edges ∧ Relation.ReflTransGen (fun a b => (a, b) ∈ edges) b file
  have hirrefl (path : String) : ¬ Relation.TransGen down path path := by
    intro hcycle
    obtain ⟨_, -, hlast⟩ := Relation.TransGen.tail'_iff.mp hcycle
    exact hnone ⟨path, hcycle.lift id fun _ _ hstep => hstep.1, hlast.2⟩
  have horder : IsStrictOrder String (Relation.TransGen down) :=
    { irrefl := hirrefl, trans := fun _ _ _ => Relation.TransGen.trans }
  have hwell := above.wellFoundedOn (r := Relation.TransGen down)
  have hfile' : file ∈ (above : Set String) := Finset.mem_filter.mpr ⟨hfile, .refl⟩
  obtain ⟨top, htop, hleast⟩ := hwell.has_min Set.univ ⟨⟨file, hfile'⟩, trivial⟩
  obtain ⟨hmodule, hsteps⟩ := Finset.mem_filter.mp top.2
  refine ⟨top, (h.mem_rootPaths _).mpr ⟨hmodule, fun source hedge => ?_⟩, hsteps⟩
  have hsource : source ∈ (above : Set String) :=
    Finset.mem_filter.mpr ⟨(h.ends_mem _ hedge).1, .head hedge hsteps⟩
  exact hleast ⟨source, hsource⟩ trivial (.single ⟨hedge, hsteps⟩)

/-- Where no way leads back to its start, a root leads down to every module. -/
theorem exists_root_of_acyclic (h : g.Represents nodes edges)
    (hacyclic : ∀ path, ¬ Relation.TransGen (fun a b => (a, b) ∈ edges) path path)
    {file : String} (hfile : file ∈ nodes) :
    ∃ root ∈ g.rootPaths, Relation.ReflTransGen (fun a b => (a, b) ∈ edges) root file :=
  (h.exists_root_or_cycle hfile).resolve_right fun ⟨path, hcycle, _⟩ => hacyclic path hcycle

end Represents

/-- The entry points of files are, in strictly ascending order, exactly the roots from which one of
the files is reached. In a graph scoped to entries they are entries, and where no way along
dependencies leads back to its start, every module has one. -/
theorem entryPointsFor_dual (h : g.Arises) :
    (∀ files, (g.entryPointsFor files).Pairwise (· < ·) ∧
      ∀ path, path ∈ g.entryPointsFor files ↔
        path ∈ g.rootPaths ∧ ∃ file ∈ files, file ∈ g.reachableFrom [path]) ∧
    (∀ entries files, ∀ path ∈ (g.scopedTo entries).entryPointsFor files, path ∈ entries) ∧
    ((∀ path, ¬ Relation.TransGen (fun a b => b ∈ g.dependencies a) path path) →
      ∀ file, g.contains file → g.entryPointsFor [file] ≠ []) := by
  obtain ⟨nodes, edges, hg⟩ := h.represents
  refine ⟨fun files => ⟨g.entryPointsFor_ascending files, hg.mem_entryPointsFor files⟩, ?_, ?_⟩
  · intro entries files path hpath
    have hroot := ((hg.scopedTo entries).mem_entryPointsFor files path).mp hpath
    exact hg.mem_entries_of_mem_rootPaths_scopedTo entries hroot.1
  · intro hacyclic file hfile
    simp only [hg.mem_dependencies] at hacyclic
    have hmodule : file ∈ nodes := (hg.mem_paths file).mp (contains_iff.mp hfile)
    obtain ⟨root, hroot, hsteps⟩ := hg.exists_root_of_acyclic hacyclic hmodule
    have hreached : file ∈ g.reachableFrom [root] :=
      (hg.mem_reachableFrom [root] file).mpr
        ⟨root, List.mem_singleton_self root, ((hg.mem_rootPaths root).mp hroot).1, hsteps⟩
    exact List.ne_nil_of_mem ((hg.mem_entryPointsFor [file] root).mpr
      ⟨hroot, file, List.mem_singleton_self file, hreached⟩)

/-- Two modules import a third, which imports a fourth. One of the two is an entry point of the
last, the only one after scoping to it, and no way leads back, so that the third has one too. -/
theorem entryPointsFor_dual_forked :
    let calls := [GraphDraft.Call.edge "b" "c", .edge "a" "c", .edge "c" "d"]
    let g := (GraphDraft.ofCalls calls).build "" ""
    g.Arises ∧ "b" ∈ g.entryPointsFor ["d"] ∧
      (∀ path ∈ (g.scopedTo ["b"]).entryPointsFor ["d"], path = "b") ∧
      (∀ path, ¬ Relation.TransGen (fun a b => b ∈ g.dependencies a) path path) ∧
      g.contains "c" ∧ g.entryPointsFor ["c"] ≠ [] := by
  intro calls g
  have hg : g.Arises := .build calls "" ""
  have hgraph : g.Represents (GraphDraft.mentioned calls) (GraphDraft.added calls) :=
    (GraphDraft.holds_ofCalls calls).build "" ""
  obtain ⟨hmem, hentries, hcovered⟩ := entryPointsFor_dual hg
  have hedge (a b : String) : b ∈ g.dependencies a ↔ (a, b) ∈ GraphDraft.added calls :=
    hgraph.mem_dependencies a b
  have hacyclic (path : String) :
      ¬ Relation.TransGen (fun a b => b ∈ g.dependencies a) path path := by
    intro hsteps
    have hdown : ∀ e ∈ GraphDraft.added calls, e.1 < e.2 := by decide +kernel
    have hless := hsteps.lift id fun a b hb => hdown (a, b) ((hedge a b).mp hb)
    rw [Relation.transGen_eq_self] at hless
    exact lt_irrefl path hless
  have hcontains : g.contains "c" := contains_iff.mpr ((hgraph.mem_paths "c").mpr (by decide +kernel))
  have hroot : "b" ∈ g.rootPaths := by
    have hnone : ∀ e ∈ GraphDraft.added calls, e.2 ≠ "b" := by decide +kernel
    exact (hgraph.mem_rootPaths "b").mpr
      ⟨by decide +kernel, fun source hsource => hnone (source, "b") hsource rfl⟩
  have hreached : "d" ∈ g.reachableFrom ["b"] := by
    have hfirst : ("b", "c") ∈ GraphDraft.added calls := by decide +kernel
    have hsecond : ("c", "d") ∈ GraphDraft.added calls := by decide +kernel
    exact (hgraph.mem_reachableFrom ["b"] "d").mpr
      ⟨"b", List.mem_singleton_self "b", by decide +kernel, .tail (.single hfirst) hsecond⟩
  refine ⟨hg, ?_, fun path hpath => ?_, hacyclic, hcontains, hcovered hacyclic "c" hcontains⟩
  · exact ((hmem ["d"]).2 "b").mpr ⟨hroot, "d", List.mem_singleton_self "d", hreached⟩
  · exact List.mem_singleton.mp (hentries ["b"] ["d"] path hpath)

end ImportAtlas.ImportGraph
