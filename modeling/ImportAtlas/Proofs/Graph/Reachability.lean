import Mathlib.Data.List.Nodup
import Mathlib.Logic.Relation
import ImportAtlas.Graph.Reach
import ImportAtlas.Proofs.Graph.Canonical

/-!
# What a search along edges reaches

Every node of the queue has been seen and stands in it once, and what was taken from the queue
has all its successors among the seen. The number of rounds left is at least that of the nodes
which were not yet taken, so the queue is empty in the end: the seen nodes are then exactly those
that some start leads to.
-/

namespace ImportAtlas

/-- Erasing duplicates leaves none. -/
theorem nodup_eraseDups {α : Type*} [DecidableEq α] (values : List α) : values.eraseDups.Nodup := by
  induction hlength : values.length using Nat.strong_induction_on generalizing values with
  | _ length ih =>
    cases values with
    | nil => simp
    | cons value values =>
      rw [List.eraseDups_cons, List.nodup_cons]
      constructor
      · simp
      · refine ih _ ?_ _ rfl
        have := List.length_filter_le (fun other => !other == value) values
        simp only [List.length_cons] at hlength
        omega

variable {next : String → List String}

/-- One step along a relation given by successors. -/
def StepsTo (next : String → List String) (a b : String) : Prop := b ∈ next a

/-- A search that has taken some of the seen nodes from its queue. -/
structure Searching (next : String → List String) (nodes : List String) (rounds : ℕ)
    (queue seen : List String) : Prop where
  next_subset : ∀ a ∈ seen, ∀ b ∈ next a, b ∈ nodes
  seen_subset : ∀ a ∈ seen, a ∈ nodes
  seen_nodup : seen.Nodup
  queue_subset : ∀ a ∈ queue, a ∈ seen
  queue_nodup : queue.Nodup
  /-- What was taken from the queue has its successors among the seen nodes. -/
  taken_closed : ∀ a ∈ seen, a ∉ queue → ∀ b ∈ next a, b ∈ seen
  /-- The rounds left suffice for the nodes that were not taken yet. -/
  enough : nodes.length + queue.length ≤ rounds + seen.length

/-- The successors of a node that were not seen before, each once. -/
def freshNodes (next : String → List String) (seen : List String) (node : String) : List String :=
  ((next node).filter fun n => !seen.contains n).eraseDups

/-- A fresh node is a successor that was not seen. -/
theorem mem_freshNodes {seen : List String} {node path : String} :
    path ∈ freshNodes next seen node ↔ path ∈ next node ∧ path ∉ seen := by
  simp [freshNodes, List.mem_eraseDups]

/-- A round keeps the search going. -/
theorem Searching.round {nodes queue seen : List String} {rounds : ℕ} {node : String}
    (h : Searching next nodes (rounds + 1) (node :: queue) seen)
    (hnext : ∀ a ∈ nodes, ∀ b ∈ next a, b ∈ nodes) :
    Searching next nodes rounds (queue ++ freshNodes next seen node)
      (seen ++ freshNodes next seen node) := by
  have hnode : node ∈ seen := h.queue_subset node List.mem_cons_self
  have hqueue := List.nodup_cons.mp h.queue_nodup
  have hfresh : (freshNodes next seen node).Nodup := nodup_eraseDups _
  have hseen : ∀ a ∈ seen ++ freshNodes next seen node, a ∈ nodes := by
    intro a ha
    rcases List.mem_append.mp ha with ha | ha
    · exact h.seen_subset a ha
    · exact h.next_subset node hnode a (mem_freshNodes.mp ha).1
  exact {
    next_subset := fun a ha => hnext a (hseen a ha)
    seen_subset := hseen
    seen_nodup := h.seen_nodup.append hfresh fun a ha hfa => (mem_freshNodes.mp hfa).2 ha
    queue_subset := fun a ha => by
      rcases List.mem_append.mp ha with ha | ha
      · exact List.mem_append_left _ (h.queue_subset a (List.mem_cons_of_mem _ ha))
      · exact List.mem_append_right _ ha
    queue_nodup := hqueue.2.append hfresh fun a ha hfa =>
      (mem_freshNodes.mp hfa).2 (h.queue_subset a (List.mem_cons_of_mem _ ha))
    taken_closed := fun a ha hqueued b hb => by
      have hseen_a : a ∈ seen :=
        (List.mem_append.mp ha).resolve_right fun hf => hqueued (List.mem_append_right _ hf)
      by_cases hnodeeq : a = node
      · -- This node is being taken: what it leads to is seen or fresh.
        subst hnodeeq
        by_cases hbs : b ∈ seen
        · exact List.mem_append_left _ hbs
        · exact List.mem_append_right _ (mem_freshNodes.mpr ⟨hb, hbs⟩)
      · refine List.mem_append_left _ (h.taken_closed a hseen_a ?_ b hb)
        rintro (_ | ⟨_, hq⟩)
        · exact hnodeeq rfl
        · exact hqueued (List.mem_append_left _ hq)
    enough := by
      have := h.enough
      simp only [List.length_cons, List.length_append] at this ⊢
      omega }

/-- What was seen is kept. -/
theorem subset_closeUnder (next : String → List String) (rounds : ℕ) (queue seen : List String) :
    ∀ a ∈ seen, a ∈ closeUnder next rounds queue seen := by
  induction rounds generalizing queue seen with
  | zero => simp [closeUnder]
  | succ rounds ih =>
    intro a ha
    cases queue with
    | nil => simpa [closeUnder] using ha
    | cons node queue => exact ih _ _ a (List.mem_append_left _ ha)

/-- The search ends with nodes whose successors are all among them. -/
theorem Searching.closed {nodes queue seen : List String} {rounds : ℕ}
    (h : Searching next nodes rounds queue seen)
    (hnext : ∀ a ∈ nodes, ∀ b ∈ next a, b ∈ nodes) :
    ∀ a ∈ closeUnder next rounds queue seen, ∀ b ∈ next a,
      b ∈ closeUnder next rounds queue seen := by
  induction rounds generalizing queue seen with
  | zero =>
    have hlength := (h.seen_nodup.subperm h.seen_subset).length_le
    have henough := h.enough
    have hempty : queue = [] := List.length_eq_zero_iff.mp (by omega)
    subst hempty
    exact fun a ha => h.taken_closed a ha List.not_mem_nil
  | succ rounds ih =>
    cases queue with
    | nil => exact fun a ha => h.taken_closed a ha List.not_mem_nil
    | cons node queue => exact ih (h.round hnext)

/-- The search comes to each node once. -/
theorem Searching.nodup_closeUnder {nodes queue seen : List String} {rounds : ℕ}
    (h : Searching next nodes rounds queue seen)
    (hnext : ∀ a ∈ nodes, ∀ b ∈ next a, b ∈ nodes) :
    (closeUnder next rounds queue seen).Nodup := by
  induction rounds generalizing queue seen with
  | zero => exact h.seen_nodup
  | succ rounds ih =>
    cases queue with
    | nil => exact h.seen_nodup
    | cons node queue => exact ih (h.round hnext)

/-- What the search comes to is reached from what was seen when it began. -/
theorem reached_of_mem_closeUnder {rounds : ℕ} {queue seen : List String}
    (hqueue : ∀ a ∈ queue, a ∈ seen) {path : String} (hpath : path ∈ closeUnder next rounds queue seen) :
    ∃ start ∈ seen, Relation.ReflTransGen (StepsTo next) start path := by
  induction rounds generalizing queue seen with
  | zero => exact ⟨path, hpath, .refl⟩
  | succ rounds ih =>
    cases queue with
    | nil => exact ⟨path, hpath, .refl⟩
    | cons node queue =>
      obtain ⟨start, hstart, hsteps⟩ := ih
        (fun a ha => by
          rcases List.mem_append.mp ha with ha | ha
          · exact List.mem_append_left _ (hqueue a (List.mem_cons_of_mem _ ha))
          · exact List.mem_append_right _ ha) hpath
      rcases List.mem_append.mp hstart with hstart | hstart
      · exact ⟨start, hstart, hsteps⟩
      · exact ⟨node, hqueue node List.mem_cons_self,
          .head (mem_freshNodes.mp hstart).1 hsteps⟩

namespace ImportGraph

variable (g : ImportGraph) (next : String → List String) (starts : List String)

/-- A search for what is reached takes each start that is a module once. -/
theorem mem_starts (path : String) :
    path ∈ (starts.filter g.contains).eraseDups ↔ path ∈ starts ∧ path ∈ g.paths := by
  rw [List.mem_eraseDups, List.mem_filter, contains_iff]

/-- A search for what is reached leads on to modules alone. -/
theorem mem_paths_of_mem_filter_contains {node path : String}
    (h : path ∈ (next node).filter g.contains) : path ∈ g.paths :=
  contains_iff.mp (List.mem_filter.mp h).2

/-- A search for what is reached has all its starts in the queue, and as many rounds as there are
modules. -/
theorem searching_starts :
    Searching (fun node => (next node).filter g.contains) g.paths g.modules.length
      (starts.filter g.contains).eraseDups (starts.filter g.contains).eraseDups where
  next_subset _ _ _ hb := g.mem_paths_of_mem_filter_contains next hb
  seen_subset a ha := ((g.mem_starts starts a).mp ha).2
  seen_nodup := nodup_eraseDups _
  queue_subset _ ha := ha
  queue_nodup := nodup_eraseDups _
  taken_closed _ ha hna := absurd ha hna
  enough := by rw [paths, List.length_map]

/-- Each module is reached once. -/
theorem nodup_closure : (g.closure next starts).Nodup :=
  (g.searching_starts next starts).nodup_closeUnder
    fun _ _ _ hb => g.mem_paths_of_mem_filter_contains next hb

/-- The starts that are modules are reached, and what is reached leads on to modules only within
what is reached. -/
theorem mem_closure_iff (path : String) :
    path ∈ g.closure next starts ↔
      ∃ start ∈ starts, start ∈ g.paths ∧
        Relation.ReflTransGen (StepsTo fun node => (next node).filter g.contains) start path := by
  have hnext (a : String) (_ : a ∈ g.paths) (b : String) (hb : b ∈ (next a).filter g.contains) :
      b ∈ g.paths := g.mem_paths_of_mem_filter_contains next hb
  constructor
  · intro hpath
    obtain ⟨start, hstart, hsteps⟩ := reached_of_mem_closeUnder (fun _ ha => ha) hpath
    obtain ⟨hmem, hmodule⟩ := (g.mem_starts starts start).mp hstart
    exact ⟨start, hmem, hmodule, hsteps⟩
  · rintro ⟨start, hmem, hmodule, hsteps⟩
    induction hsteps with
    | refl =>
      exact subset_closeUnder _ _ _ _ start ((g.mem_starts starts start).mpr ⟨hmem, hmodule⟩)
    | tail _ hstep ih => exact (g.searching_starts next starts).closed hnext _ ih _ hstep

end ImportGraph

end ImportAtlas
