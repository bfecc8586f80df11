import ImportAtlas.Proofs.Graph.Building
import ImportAtlas.Proofs.Graph.Closing

/-!
# The cycles of a graph

The edges that close no reported cycle lead from a node that the search leaves only to nodes that it
left before, so that no cycle consists of them: every cycle has an edge that closes a reported one,
and nothing is reported of a graph without cycles alone.
-/

namespace ImportAtlas.Adjacency

variable {next : String → List String} {path children done : List String} {p q : Progress}

/-- An edge that closes none of the cycles found. -/
def Remains (next : String → List String) (closings : List (String × String)) (a b : String) :
    Prop := StepsTo next a b ∧ (a, b) ∉ closings

/-- Of nodes that were left, the last first: every edge that remains leads to one that was left
earlier. -/
def Settled (next : String → List String) (closings : List (String × String)) :
    List String → Prop
  | [] => True
  | node :: earlier =>
    (∀ child, Remains next closings node child → child ∈ earlier) ∧ Settled next closings earlier

namespace Settled

variable {closings more : List (String × String)}

/-- Finding more cycles leaves fewer edges. -/
theorem mono (h : Settled next closings done) (hmore : closings ⊆ more) :
    Settled next more done := by
  induction done with
  | nil => trivial
  | cons node earlier ih =>
    exact ⟨fun child hchild => h.1 child ⟨hchild.1, fun hmem => hchild.2 (hmore hmem)⟩, ih h.2⟩

/-- An edge that remains leads from a node that was left to such a node. -/
theorem mem_of_remains (h : Settled next closings done) {a b : String} (ha : a ∈ done)
    (hedge : Remains next closings a b) : b ∈ done := by
  induction done with
  | nil => exact absurd ha List.not_mem_nil
  | cons node earlier ih =>
    rcases List.mem_cons.mp ha with rfl | ha
    · exact .tail _ (h.1 b hedge)
    · exact .tail _ (ih h.2 ha)

/-- The edges that remain lead from nodes that were left to such nodes alone. -/
theorem mem_of_steps (h : Settled next closings done) {a b : String} (ha : a ∈ done)
    (hsteps : Relation.ReflTransGen (Remains next closings) a b) : b ∈ done := by
  induction hsteps with
  | refl => exact ha
  | tail _ hedge ih => exact h.mem_of_remains ih hedge

/-- No way along the edges that remain leads back to where it starts. -/
theorem acyclic (h : Settled next closings done) (hnodup : done.Nodup) :
    ∀ node ∈ done, ¬ Relation.TransGen (Remains next closings) node node := by
  induction done with
  | nil => exact fun node hnode => absurd hnode List.not_mem_nil
  | cons last earlier ih =>
    obtain ⟨hlast, hnodup⟩ := List.nodup_cons.mp hnodup
    intro node hnode hcycle
    rcases List.mem_cons.mp hnode with rfl | hnode
    · obtain ⟨child, hedge, hsteps⟩ := Relation.TransGen.head'_iff.mp hcycle
      exact hlast (h.2.mem_of_steps (h.1 child hedge) hsteps)
    · exact ih h.2 hnodup node hnode hcycle

end Settled

/-- What a search has come to: the visited nodes are those on the path and those that were left,
and the edges of the latter are settled. -/
structure Leaves (next : String → List String) (path done : List String) (p : Progress) : Prop where
  nodup : (path ++ done).Nodup
  mem_visited : ∀ v, v ∈ p.visited ↔ v ∈ path ∨ v ∈ done
  settled : Settled next p.closings done

namespace Leaves

variable {child : String}

/-- A further cycle unsettles nothing. -/
theorem close (h : Leaves next path done p) (cycle : List String) :
    Leaves next path done { p with cycles := p.cycles ++ [cycle] } where
  nodup := h.nodup
  mem_visited := h.mem_visited
  settled := h.settled.mono (List.map_subset closingEdge (List.subset_append_left _ _))

/-- A child that is entered comes to the end of the path. -/
theorem enter (h : Leaves next path done p) (hvisited : child ∉ p.visited) :
    Leaves next (child :: path) done { p with visited := child :: p.visited } where
  nodup := by
    refine h.nodup.cons fun hmem => hvisited ((h.mem_visited child).mpr ?_)
    exact List.mem_append.mp hmem
  mem_visited v := by rw [List.mem_cons, List.mem_cons, h.mem_visited, or_assoc]
  settled := h.settled

/-- The end of the path is left once its edges are settled. -/
theorem leave (h : Leaves next (child :: path) done p)
    (hchild : ∀ v, Remains next p.closings child v → v ∈ done) :
    Leaves next path (child :: done) p where
  nodup := List.nodup_middle.mpr h.nodup
  mem_visited v := by
    rw [h.mem_visited, List.mem_cons, List.mem_cons]
    tauto
  settled := ⟨hchild, h.settled⟩

end Leaves

/-- The search settles the children that it looks at: an edge to one of them closes a cycle, or the
child was left. -/
theorem Explores.leaves (h : Explores next path children p q) (hleaves : Leaves next path done p) :
    ∃ done', Leaves next path done' q ∧ done ⊆ done' ∧
      ∀ child ∈ children, (∃ node ∈ path.head?, (node, child) ∈ q.closings) ∨ child ∈ done' := by
  induction h generalizing done with
  | done => exact ⟨done, hleaves, fun _ hv => hv, by simp⟩
  | @close path rest child p q hpath hrest ih =>
    obtain ⟨done', hend, hkept, hsettled⟩ := ih (hleaves.close (closedBy path child))
    refine ⟨done', hend, hkept, fun c hc => ?_⟩
    rcases List.mem_cons.mp hc with rfl | hc
    · cases path with
      | nil => exact absurd hpath List.not_mem_nil
      | cons node path =>
        refine .inl ⟨node, rfl, hrest.closings_subset (List.mem_map.mpr ?_)⟩
        exact ⟨_, List.mem_append_right _ (List.mem_singleton_self _), closingEdge_closedBy hpath⟩
    · exact hsettled c hc
  | @skip path rest child p q hpath hvisited _ ih =>
    obtain ⟨done', hend, hkept, hsettled⟩ := ih hleaves
    have hleft : child ∈ done := ((hleaves.mem_visited child).mp hvisited).resolve_left hpath
    refine ⟨done', hend, hkept, fun c hc => ?_⟩
    rcases List.mem_cons.mp hc with rfl | hc
    · exact .inr (hkept hleft)
    · exact hsettled c hc
  | @enter path rest child p m q hpath hvisited hchild hrest ihchild ihrest =>
    obtain ⟨below, hbelow, hkept, hsettled⟩ := ihchild (hleaves.enter hvisited)
    have hleave : Leaves next path (child :: below) m := by
      refine hbelow.leave fun v hedge => (hsettled v hedge.1).resolve_left ?_
      rintro ⟨node, hnode, hclosing⟩
      cases hnode
      exact hedge.2 hclosing
    obtain ⟨done', hend, hkept', hsettled'⟩ := ihrest hleave
    refine ⟨done', hend, fun v hv => hkept' (.tail _ (hkept hv)), fun c hc => ?_⟩
    rcases List.mem_cons.mp hc with rfl | hc
    · exact .inr (hkept' List.mem_cons_self)
    · exact hsettled' c hc

/-- A way back to where it starts uses an edge that closes a cycle found, or edges that remain
alone. -/
theorem exists_closing_of_steps {closings : List (String × String)} {a b : String}
    (hsteps : Relation.TransGen (StepsTo next) a b)
    (hback : Relation.ReflTransGen (StepsTo next) b a) :
    Relation.TransGen (Remains next closings) a b ∨
      ∃ e ∈ closings, Relation.ReflTransGen (StepsTo next) a e.1 ∧
        Relation.ReflTransGen (StepsTo next) e.2 a := by
  induction hsteps with
  | @single b hedge =>
    by_cases hclosing : (a, b) ∈ closings
    · exact .inr ⟨(a, b), hclosing, .refl, hback⟩
    · exact .inl (.single ⟨hedge, hclosing⟩)
  | @tail m b hbefore hedge ih =>
    rcases ih (.head hedge hback) with hremain | hfound
    · by_cases hclosing : (m, b) ∈ closings
      · exact .inr ⟨(m, b), hclosing, hbefore.to_reflTransGen, hback⟩
      · exact .inl (hremain.tail ⟨hedge, hclosing⟩)
    · exact .inr hfound

/-- Each node is listed once, and so is each of its successors. -/
structure IsMapping (adjacency : Adjacency) : Prop where
  keys_nodup : (adjacency.map Prod.fst).Nodup
  members_nodup : ∀ entry ∈ adjacency, entry.2.Nodup

/-- An edge leads from a node to what is listed with it. -/
def HasEdge (adjacency : Adjacency) (a b : String) : Prop :=
  ∃ members, (a, members) ∈ adjacency ∧ b ∈ members

namespace IsMapping

variable {adjacency other : Adjacency}

/-- The successors of a node are those that edges lead to. -/
theorem mem_successors (h : adjacency.IsMapping) {a b : String} :
    b ∈ adjacency.successors a ↔ adjacency.HasEdge a b := by
  refine ⟨exists_mem_of_mem_successors, ?_⟩
  rintro ⟨members, hmembers, hb⟩
  rw [successors, mem_sortPaths, lookup_eq_some_of_mem h.keys_nodup hmembers, Option.getD_some]
  exact hb

/-- To step to a successor is to go along an edge. -/
theorem stepsTo_successors (h : adjacency.IsMapping) :
    StepsTo adjacency.successors = adjacency.HasEdge := by
  funext a b
  exact propext h.mem_successors

/-- The successors of a node ascend strictly. -/
theorem successors_ascending (h : adjacency.IsMapping) (node : String) :
    (adjacency.successors node).Pairwise (· < ·) := by
  refine sortPaths_ascending ?_
  cases hlookup : adjacency.lookup node with
  | none => exact List.nodup_nil
  | some members =>
    obtain ⟨before, after, heq, -⟩ := List.lookup_eq_some_iff.mp hlookup
    exact h.members_nodup (node, members) (by simp [heq])

/-- The nodes ascend strictly. -/
theorem nodes_ascending (h : adjacency.IsMapping) : adjacency.nodes.Pairwise (· < ·) :=
  sortPaths_ascending h.keys_nodup

/-- The order of the entries does not matter for being a mapping. -/
theorem perm (h : adjacency.IsMapping) (hperm : other.Perm adjacency) : other.IsMapping where
  keys_nodup := (hperm.map Prod.fst).nodup_iff.mpr h.keys_nodup
  members_nodup entry hentry := h.members_nodup entry (hperm.mem_iff.mp hentry)

/-- Mappings with the same nodes and the same edges have the same cycles in the same order. -/
theorem cycles_eq (h : adjacency.IsMapping) (h' : other.IsMapping)
    (hnodes : ∀ node, node ∈ other.map Prod.fst ↔ node ∈ adjacency.map Prod.fst)
    (hedges : ∀ a b, other.HasEdge a b ↔ adjacency.HasEdge a b) :
    other.cycles = adjacency.cycles := by
  refine cycles_congr ?_ (funext fun node => ?_)
  · refine ascending_ext id h'.nodes_ascending h.nodes_ascending fun node => ?_
    rw [mem_nodes, mem_nodes, hnodes]
  · refine ascending_ext id (h'.successors_ascending node) (h.successors_ascending node)
      fun child => ?_
    rw [h'.mem_successors, h.mem_successors, hedges]

/-- What is reported are cycles. -/
theorem isCycle_of_mem_cycles (h : adjacency.IsMapping) {cycle : List String}
    (hcycle : cycle ∈ adjacency.cycles) : IsCycle adjacency.HasEdge cycle := by
  rw [← h.stepsTo_successors]
  exact (explores_nodes adjacency).isCycle List.nodup_nil List.isChain_nil (by simp) (by simp)
    cycle hcycle

/-- No edge closes two of the cycles. -/
theorem nodup_closings (h : adjacency.IsMapping) : (adjacency.cycles.map closingEdge).Nodup := by
  obtain ⟨more, hmore, hdistinct, -⟩ := (explores_nodes adjacency).closings_eq_append
    (fun node => nodup_of_ascending id (h.successors_ascending node))
    (nodup_of_ascending id h.nodes_ascending) (List.nil_subset _)
  change Progress.closings _ |>.Nodup
  rw [hmore]
  exact hdistinct

/-- No way along the edges that close no cycle leads back to where it starts. -/
theorem acyclic_of_closings (h : adjacency.IsMapping) (node : String) :
    ¬ Relation.TransGen (Remains adjacency.successors (adjacency.cycles.map closingEdge))
      node node := by
  intro hcycle
  have hstart : Leaves adjacency.successors [] [] {} :=
    ⟨List.nodup_nil, by simp, trivial⟩
  obtain ⟨done, hend, -, hleft⟩ := (explores_nodes adjacency).leaves hstart
  obtain ⟨child, hedge, -⟩ := Relation.TransGen.head'_iff.mp hcycle
  obtain ⟨members, hmembers, -⟩ := h.mem_successors.mp hedge.1
  have hnode : node ∈ adjacency.nodes := mem_nodes.mpr (List.mem_map.mpr ⟨_, hmembers, rfl⟩)
  have hdone : node ∈ done := (hleft node hnode).resolve_left (by simp)
  exact hend.settled.acyclic hend.nodup node hdone hcycle

/-- Where a way leads back to a node, a cycle is reported among the nodes on such ways. -/
theorem exists_cycle_of_transGen (h : adjacency.IsMapping) {node : String}
    (hback : Relation.TransGen adjacency.HasEdge node node) :
    ∃ cycle ∈ adjacency.cycles, ∀ v ∈ cycle,
      Relation.TransGen adjacency.HasEdge node v ∧ Relation.TransGen adjacency.HasEdge v node := by
  rw [← h.stepsTo_successors] at hback ⊢
  rcases exists_closing_of_steps hback .refl with hremain | ⟨e, he, hto, hfrom⟩
  · exact absurd hremain (h.acyclic_of_closings node)
  · obtain ⟨cycle, hcycle, rfl⟩ := List.mem_map.mp he
    rw [h.stepsTo_successors] at hto hfrom ⊢
    have hreported := h.isCycle_of_mem_cycles hcycle
    rw [closingEdge_eq hreported.ne_nil] at hto hfrom
    exact ⟨cycle, hcycle, fun v hv =>
      ⟨(hreported.transGen (List.getLast_mem _) hv).trans_right hto,
        (hreported.transGen hv (List.head_mem _)).trans_left hfrom⟩⟩

/-- Nothing is reported exactly if no way leads back to where it starts. -/
theorem cycles_eq_nil_iff (h : adjacency.IsMapping) :
    adjacency.cycles = [] ↔ ∀ node, ¬ Relation.TransGen adjacency.HasEdge node node := by
  constructor
  · intro hnone node hback
    obtain ⟨cycle, hcycle, -⟩ := h.exists_cycle_of_transGen hback
    exact absurd (hnone ▸ hcycle) List.not_mem_nil
  · intro hacyclic
    refine List.eq_nil_iff_forall_not_mem.mpr fun cycle hcycle => ?_
    have hreported := h.isCycle_of_mem_cycles hcycle
    obtain ⟨node, hnode⟩ := List.exists_mem_of_ne_nil cycle hreported.ne_nil
    exact hacyclic node (hreported.transGen hnode hnode)

end IsMapping

end ImportAtlas.Adjacency

namespace ImportAtlas

open Adjacency

section Build

variable {d : GraphDraft} {g : ImportGraph} {nodes : Finset String}
  {edges : Finset (String × String)}

/-- What the modules of a draft import is a mapping. -/
theorem GraphDraft.Holds.isMapping (h : d.Holds nodes edges) : IsMapping d.adjacency where
  keys_nodup := h.nodes_nodup
  members_nodup entry hentry := by
    have hlookup := lookup_eq_some_of_mem h.nodes_nodup hentry
    have hmembers : d.dependencies entry.1 = entry.2 := by
      rw [GraphDraft.dependencies, ModuleMap.get, hlookup, Option.getD_some]
    exact hmembers ▸ h.dependencies_nodup entry.1

/-- Its edges are those that the draft holds. -/
theorem GraphDraft.Holds.hasEdge_adjacency (h : d.Holds nodes edges) (a b : String) :
    HasEdge d.adjacency a b ↔ (a, b) ∈ edges := by
  rw [← h.isMapping.mem_successors, successors, mem_sortPaths, ← h.mem_dependencies]
  rfl

/-- The modules of a graph with what they import. -/
theorem ImportGraph.map_dependencies_eq (hnodup : g.paths.Nodup) :
    (g.modules.map fun m => (m.1, m.2.dependencies)) =
      g.paths.map fun path => (path, g.dependencies path) := by
  rw [modules_eq_map_paths hnodup, List.map_map]
  rfl

/-- What the modules of a graph import is a mapping. -/
theorem ImportGraph.Represents.isMapping (h : g.Represents nodes edges) :
    IsMapping (g.modules.map fun m => (m.1, m.2.dependencies)) where
  keys_nodup := by
    rw [List.map_map]
    exact nodup_of_ascending id h.paths_ascending
  members_nodup := by
    rw [map_dependencies_eq (nodup_of_ascending id h.paths_ascending)]
    intro entry hentry
    obtain ⟨path, -, rfl⟩ := List.mem_map.mp hentry
    exact nodup_of_ascending id (h.dependencies_ascending path)

/-- Its edges are those of the graph. -/
theorem ImportGraph.Represents.hasEdge_modules (h : g.Represents nodes edges) (a b : String) :
    HasEdge (g.modules.map fun m => (m.1, m.2.dependencies)) a b ↔ (a, b) ∈ edges := by
  rw [HasEdge, map_dependencies_eq (nodup_of_ascending id h.paths_ascending)]
  constructor
  · rintro ⟨members, hmembers, hb⟩
    obtain ⟨path, -, heq⟩ := List.mem_map.mp hmembers
    obtain ⟨rfl, rfl⟩ := Prod.mk.inj heq
    exact (h.mem_dependencies path b).mp hb
  · intro hedge
    have hpath : a ∈ g.paths := (h.mem_paths a).mpr (h.ends_mem _ hedge).1
    exact ⟨_, List.mem_map.mpr ⟨a, hpath, rfl⟩, (h.mem_dependencies a b).mpr hedge⟩

/-- A draft has the cycles of the graph that is built from it. -/
theorem GraphDraft.Holds.cycles_build (h : d.Holds nodes edges) (root generatedAt : String) :
    (d.build root generatedAt).cycles = d.cycles := by
  have hg := h.build root generatedAt
  refine h.isMapping.cycles_eq hg.isMapping (fun node => ?_) fun a b => ?_
  · rw [List.map_map]
    exact (hg.mem_paths node).trans (h.mem_nodes node).symm
  · rw [hg.hasEdge_modules, h.hasEdge_adjacency]

end Build

/-- The search for cycles comes to an end. What it reports are simple cycles, no two of them closed
by the same edge, and without the closing edges no cycle is left; so nothing is reported exactly if
there is no cycle, and wherever a way leads back to a node a cycle is reported among the nodes on
such ways. The order of the entries does not show, and a draft has the cycles of the graph that is
built from it. -/
theorem cycles_simple_distinct_covering {adjacency : Adjacency} (h : adjacency.IsMapping) :
    (∃ p, Explores adjacency.successors [] adjacency.nodes {} p ∧ p.cycles = adjacency.cycles) ∧
    (∀ cycle ∈ adjacency.cycles, IsCycle adjacency.HasEdge cycle) ∧
    (adjacency.cycles.map closingEdge).Nodup ∧
    (∀ node, ¬ Relation.TransGen (fun a b => adjacency.HasEdge a b ∧
      (a, b) ∉ adjacency.cycles.map closingEdge) node node) ∧
    (adjacency.cycles = [] ↔ ∀ node, ¬ Relation.TransGen adjacency.HasEdge node node) ∧
    (∀ node, Relation.TransGen adjacency.HasEdge node node →
      ∃ cycle ∈ adjacency.cycles, ∀ v ∈ cycle,
        Relation.TransGen adjacency.HasEdge node v ∧ Relation.TransGen adjacency.HasEdge v node) ∧
    (∀ other : Adjacency, other.Perm adjacency → other.cycles = adjacency.cycles) ∧
    ∀ calls root generatedAt, (GraphDraft.ofCalls calls).cycles =
      ((GraphDraft.ofCalls calls).build root generatedAt).cycles := by
  refine ⟨⟨_, explores_nodes adjacency, rfl⟩, fun cycle => h.isCycle_of_mem_cycles,
    h.nodup_closings, fun node hcycle => ?_, h.cycles_eq_nil_iff,
    fun node => h.exists_cycle_of_transGen, fun other hperm => ?_, fun calls root generatedAt => ?_⟩
  · refine h.acyclic_of_closings node ?_
    simp only [← h.mem_successors] at hcycle
    exact hcycle
  · refine h.cycles_eq (h.perm hperm) (fun node => (hperm.map Prod.fst).mem_iff) fun a b => ?_
    simp only [HasEdge, hperm.mem_iff]
  · exact ((GraphDraft.holds_ofCalls calls).cycles_build root generatedAt).symm

/-- Three cycles that share nodes, one of them a self-edge, and a node that is listed as a successor
alone. -/
theorem cycles_simple_distinct_covering_shared :
    let adjacency : Adjacency := [("b", ["c", "a"]), ("a", ["b"]), ("c", ["d", "c", "a"])]
    let other : Adjacency := [("c", ["d", "c", "a"]), ("b", ["c", "a"]), ("a", ["b"])]
    adjacency.IsMapping ∧ adjacency.cycles = [["a", "b"], ["a", "b", "c"], ["c"]] ∧
      IsCycle adjacency.HasEdge ["a", "b", "c"] ∧ other.cycles = adjacency.cycles := by
  intro adjacency other
  have hmapping : adjacency.IsMapping := ⟨by decide, by decide⟩
  have hcycles : adjacency.cycles = [["a", "b"], ["a", "b", "c"], ["c"]] := by
    have hnodes : sortPaths ["b", "a", "c"] = ["a", "b", "c"] := sortPaths_eq (by decide) (by decide)
    have ha : sortPaths ["b"] = ["b"] := sortPaths_eq (by decide) (by decide)
    have hb : sortPaths ["c", "a"] = ["a", "c"] := sortPaths_eq (by decide) (by decide)
    have hc : sortPaths ["d", "c", "a"] = ["a", "c", "d"] := sortPaths_eq (by decide) (by decide)
    have hnone : sortPaths [] = [] := sortPaths_eq (by decide) (by decide)
    simp [adjacency, cycles, nodes, exploreFrom, bound, explore, successors, closedBy,
      List.lookup_cons, hnodes, ha, hb, hc, hnone]
  obtain ⟨-, hsound, -, -, -, -, hperm, -⟩ := cycles_simple_distinct_covering hmapping
  refine ⟨hmapping, hcycles, hsound _ (by simp [hcycles]), hperm other (by decide)⟩

end ImportAtlas
