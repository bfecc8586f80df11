import Mathlib.Data.List.Chain
import Mathlib.Logic.Relation
import ImportAtlas.Proofs.Graph.DepthFirst
import ImportAtlas.Proofs.Graph.Reachability

/-!
# The edges that close cycles

What a depth-first search reports is the way along the current path from a node on it to its end, so
it is a cycle without repetition. The edge that closes it is looked at once, as the successors of a
node are looked at when the node is entered and never again.
-/

namespace ImportAtlas.Adjacency

/-- The edge from the last node of a cycle to its first. -/
def closingEdge (cycle : List String) : String × String := (cycle.getLastD "", cycle.headD "")

/-- Nodes along edges, each once, with an edge from the last to the first. -/
structure IsCycle (edge : String → String → Prop) (cycle : List String) : Prop where
  ne_nil : cycle ≠ []
  nodup : cycle.Nodup
  chain : cycle.IsChain edge
  closes : edge (closingEdge cycle).1 (closingEdge cycle).2

section Closing

variable {edge : String → String → Prop} {cycle path : List String} {node target : String}

/-- A closing edge leads from the last node to the first. -/
theorem closingEdge_eq (h : cycle ≠ []) : closingEdge cycle = (cycle.getLast h, cycle.head h) := by
  rw [closingEdge, List.getLastD_eq_getLast?, List.getLast?_eq_getLast_of_ne_nil h,
    List.headD_eq_head?_getD, List.head?_eq_some_head h]
  rfl

/-- From every node of a cycle edges lead to every node of it. -/
theorem IsCycle.transGen (h : IsCycle edge cycle) {a b : String} (ha : a ∈ cycle) (hb : b ∈ cycle) :
    Relation.TransGen edge a b := by
  have hordered : cycle.Pairwise (Relation.TransGen edge) :=
    List.isChain_iff_pairwise.mp (h.chain.imp fun _ _ => Relation.TransGen.single)
  have hlast : Relation.ReflTransGen edge a (cycle.getLast h.ne_nil) := by
    have hends := hordered
    rw [← List.dropLast_append_getLast h.ne_nil] at hends ha
    rcases List.mem_append.mp ha with ha | ha
    · exact ((List.pairwise_append.mp hends).2.2 a ha _ (List.mem_singleton_self _)).to_reflTransGen
    · rw [List.mem_singleton.mp ha]
  have hfirst : Relation.ReflTransGen edge (cycle.head h.ne_nil) b := by
    have hends := hordered
    rw [← List.cons_head_tail h.ne_nil] at hends hb
    rcases List.mem_cons.mp hb with hb | hb
    · rw [hb]
    · exact (List.rel_of_pairwise_cons hends hb).to_reflTransGen
  have hcloses := h.closes
  rw [closingEdge_eq h.ne_nil] at hcloses
  exact (Relation.TransGen.tail' hlast hcloses).trans_left hfirst

/-- A reported cycle is what its path begins with, up to the target and from there back. -/
theorem exists_closedBy (h : target ∈ path) :
    ∃ front back, path = front ++ target :: back ∧ closedBy path target = target :: front.reverse := by
  induction path with
  | nil => exact absurd h List.not_mem_nil
  | cons node path ih =>
    by_cases hnode : node = target
    · exact ⟨[], path, by simp [hnode], by simp [closedBy, hnode]⟩
    · obtain ⟨front, back, rfl, hclosed⟩ := ih ((List.mem_cons.mp h).resolve_left (Ne.symm hnode))
      refine ⟨node :: front, back, rfl, ?_⟩
      rw [closedBy, List.takeWhile_cons_of_pos (by simpa using hnode), List.reverse_cons,
        List.reverse_cons, ← List.cons_append, ← List.cons_append, ← hclosed]
      rfl

/-- The edge that closes a reported cycle leads from the end of the path to the target. -/
theorem closingEdge_closedBy (h : target ∈ node :: path) :
    closingEdge (closedBy (node :: path) target) = (node, target) := by
  obtain ⟨front, back, hpath, hclosed⟩ := exists_closedBy h
  rw [closingEdge, hclosed]
  cases front with
  | nil =>
    obtain ⟨rfl, -⟩ := List.cons.inj hpath
    rfl
  | cons first front =>
    obtain ⟨rfl, -⟩ := List.cons.inj hpath
    rw [List.reverse_cons, ← List.cons_append, List.getLastD_concat]
    rfl

/-- An edge to a node of a path closes a cycle, if the path runs along edges without repetition. -/
theorem isCycle_closedBy (hnodup : (node :: path).Nodup)
    (hchain : (node :: path).IsChain fun later earlier => edge earlier later)
    (htarget : target ∈ node :: path) (hedge : edge node target) :
    IsCycle edge (closedBy (node :: path) target) := by
  obtain ⟨front, back, hpath, hclosed⟩ := exists_closedBy htarget
  have hpart : closedBy (node :: path) target = (front ++ [target]).reverse := by
    rw [hclosed, List.reverse_append, List.reverse_singleton, List.singleton_append]
  have hsublist : (front ++ [target]).Sublist (node :: path) := by
    rw [hpath]
    exact List.Sublist.append_left (List.singleton_sublist.mpr List.mem_cons_self) front
  have hpart_chain : (front ++ [target]).IsChain fun later earlier => edge earlier later := by
    rw [hpath, ← List.singleton_append, ← List.append_assoc] at hchain
    exact hchain.left_of_append
  exact {
    ne_nil := by rw [hclosed]; exact List.cons_ne_nil _ _
    nodup := by rw [hpart]; exact List.nodup_reverse.mpr (hnodup.sublist hsublist)
    chain := by rw [hpart]; exact List.isChain_reverse.mpr hpart_chain
    closes := by rw [closingEdge_closedBy htarget]; exact hedge }

end Closing

/-- The edges that close the cycles found so far. -/
def Progress.closings (p : Progress) : List (String × String) := p.cycles.map closingEdge

variable {next : String → List String} {path children done : List String} {p q : Progress}

namespace Explores

/-- What is reported are cycles, as the path runs along edges without repetition. -/
theorem isCycle (h : Explores next path children p q) (hnodup : path.Nodup)
    (hchain : path.IsChain fun later earlier => later ∈ next earlier)
    (hchildren : ∀ node ∈ path.head?, ∀ child ∈ children, child ∈ next node)
    (hcycles : ∀ cycle ∈ p.cycles, IsCycle (StepsTo next) cycle) :
    ∀ cycle ∈ q.cycles, IsCycle (StepsTo next) cycle := by
  induction h with
  | done => exact hcycles
  | @close path rest child p q hpath _ ih =>
    refine ih hnodup hchain (fun node hnode c hc => hchildren node hnode c (.tail _ hc)) ?_
    intro cycle hcycle
    rcases List.mem_append.mp hcycle with hcycle | hcycle
    · exact hcycles cycle hcycle
    · rw [List.mem_singleton.mp hcycle]
      cases path with
      | nil => exact absurd hpath List.not_mem_nil
      | cons node path =>
        exact isCycle_closedBy hnodup hchain hpath (hchildren node rfl child List.mem_cons_self)
  | skip _ _ _ ih =>
    exact ih hnodup hchain (fun node hnode c hc => hchildren node hnode c (.tail _ hc)) hcycles
  | @enter path rest child p m q hpath hvisited _ _ ihchild ihrest =>
    refine ihrest hnodup hchain (fun node hnode c hc => hchildren node hnode c (.tail _ hc)) ?_
    refine ihchild (hnodup.cons hpath) (List.isChain_cons.mpr ⟨?_, hchain⟩) ?_ hcycles
    · exact fun node hnode => hchildren node hnode child List.mem_cons_self
    · intro node hnode c hc
      cases hnode
      exact hc

/-- What was visited stays visited. -/
theorem visited_subset (h : Explores next path children p q) : p.visited ⊆ q.visited := by
  induction h with
  | done => exact fun _ hv => hv
  | close _ _ ih => exact ih
  | skip _ _ _ ih => exact ih
  | enter _ _ _ _ ihchild ihrest => exact fun v hv => ihrest (ihchild (.tail _ hv))

/-- What was found stays found. -/
theorem closings_subset (h : Explores next path children p q) : p.closings ⊆ q.closings := by
  induction h with
  | done => exact fun _ he => he
  | close _ _ ih =>
    exact fun e he => ih (List.map_subset closingEdge (List.subset_append_left _ _) he)
  | skip _ _ _ ih => exact ih
  | enter _ _ _ _ ihchild ihrest => exact fun e he => ihrest (ihchild he)

/-- The edges that close the cycles found on the way: from the end of the path to a child that was
looked at, or from a node that was visited on the way. No edge closes two of them. -/
theorem closings_eq_append (h : Explores next path children p q) (hnext : ∀ node, (next node).Nodup)
    (hchildren : children.Nodup) (hpath : path ⊆ p.visited) :
    ∃ more, q.closings = p.closings ++ more ∧ more.Nodup ∧
      ∀ e ∈ more, (e.1 ∈ path.head? ∧ e.2 ∈ children) ∨ (e.1 ∉ p.visited ∧ e.1 ∈ q.visited) := by
  induction h with
  | done => exact ⟨[], (List.append_nil _).symm, List.nodup_nil, by simp⟩
  | @close path rest child p q hchild hrest ih =>
    obtain ⟨hnotin, hnodup⟩ := List.nodup_cons.mp hchildren
    obtain ⟨more, hmore, hdistinct, hfrom⟩ := ih hnodup hpath
    cases path with
    | nil => exact absurd hchild List.not_mem_nil
    | cons node path =>
      refine ⟨(node, child) :: more, ?_, hdistinct.cons fun hmem => ?_, fun e he => ?_⟩
      · rw [hmore, Progress.closings, List.map_append, List.map_singleton,
          closingEdge_closedBy hchild, List.append_assoc]
        rfl
      · rcases hfrom _ hmem with ⟨-, hlooked⟩ | ⟨hnew, -⟩
        · exact hnotin hlooked
        · exact hnew (hpath List.mem_cons_self)
      · rcases List.mem_cons.mp he with rfl | he
        · exact .inl ⟨rfl, List.mem_cons_self⟩
        · exact (hfrom e he).imp (And.imp_right (.tail _)) id
  | skip _ _ _ ih =>
    obtain ⟨more, hmore, hdistinct, hfrom⟩ := ih (List.nodup_cons.mp hchildren).2 hpath
    exact ⟨more, hmore, hdistinct, fun e he => (hfrom e he).imp (And.imp_right (.tail _)) id⟩
  | @enter path rest child p m q _ hvisited hchild hrest ihchild ihrest =>
    have hkept : p.visited ⊆ m.visited := fun v hv => hchild.visited_subset (.tail _ hv)
    obtain ⟨below, hbelow, hdistinct, hfrom⟩ := ihchild (hnext child)
      (List.cons_subset_cons child hpath)
    obtain ⟨after, hafter, hdistinct', hfrom'⟩ := ihrest (List.nodup_cons.mp hchildren).2
      (List.Subset.trans hpath hkept)
    -- What is found below the child has its source below, what is found after it has not.
    have hsource (e : String × String) (he : e ∈ below) : e.1 ∉ p.visited ∧ e.1 ∈ m.visited := by
      rcases hfrom e he with ⟨hend, -⟩ | ⟨hnew, hseen⟩
      · obtain rfl := Option.some.inj hend
        exact ⟨hvisited, hchild.visited_subset List.mem_cons_self⟩
      · exact ⟨fun hold => hnew (.tail _ hold), hseen⟩
    refine ⟨below ++ after, ?_, hdistinct.append hdistinct' fun e he he' => ?_, fun e he => ?_⟩
    · rw [hafter, hbelow, List.append_assoc]
      rfl
    · rcases hfrom' e he' with ⟨hend, -⟩ | ⟨hnew, -⟩
      · exact (hsource e he).1 (hpath (List.mem_of_mem_head? hend))
      · exact hnew (hsource e he).2
    · rcases List.mem_append.mp he with he | he
      · exact .inr ⟨(hsource e he).1, hrest.visited_subset (hsource e he).2⟩
      · exact (hfrom' e he).imp (And.imp_right (.tail _)) (And.imp_left fun hnew hold => hnew (hkept hold))

end Explores

end ImportAtlas.Adjacency
