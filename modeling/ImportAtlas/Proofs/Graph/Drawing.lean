import ImportAtlas.Proofs.Graph.Outline
import ImportAtlas.Proofs.Graph.Scoping

/-!
# The steps of drawing

The dependencies of a module are drawn one after the other: one that stands above itself, one
without dependencies and one whose dependencies were drawn take a line, any other is drawn with its
own dependencies before the next one. `Draws` tells these steps without any bound on their depth.
The modules above each other are distinct, so the bound that drawing carries never runs out.
-/

namespace ImportAtlas.Drawn

/-- Drawing some children below the modules above them, which are given from the lowest up: what is
drawn, and the modules drawn before and after. -/
inductive Draws (next : String → List String) :
    List String → List String → List String → List Drawn → List String → Prop
  | done (above drawn : List String) : Draws next above drawn [] [] drawn
  /-- A child that stands above itself is marked as a cycle. -/
  | cycle {above drawn rest drawn' : List String} {child : String} {level : List Drawn}
    (habove : child ∈ above) (hrest : Draws next above drawn rest level drawn') :
    Draws next above drawn (child :: rest) (node child .cycle [] :: level) drawn'
  /-- A child without dependencies is drawn wherever it stands. -/
  | leaf {above drawn rest drawn' : List String} {child : String} {level : List Drawn}
    (habove : child ∉ above) (hnext : next child = [])
    (hrest : Draws next above (child :: drawn) rest level drawn') :
    Draws next above drawn (child :: rest) (node child .plain [] :: level) drawn'
  /-- A child that was drawn with its dependencies is marked as shared. -/
  | shared {above drawn rest drawn' : List String} {child : String} {level : List Drawn}
    (habove : child ∉ above) (hnext : next child ≠ []) (hdrawn : child ∈ drawn)
    (hrest : Draws next above drawn rest level drawn') :
    Draws next above drawn (child :: rest) (node child .shared [] :: level) drawn'
  /-- Any other child is drawn with its dependencies. -/
  | expand {above drawn middle rest drawn' : List String} {child : String} {sub level : List Drawn}
    (habove : child ∉ above) (hnext : next child ≠ []) (hdrawn : child ∉ drawn)
    (hsub : Draws next (child :: above) (child :: drawn) (next child) sub middle)
    (hrest : Draws next above middle rest level drawn') :
    Draws next above drawn (child :: rest) (node child .plain sub :: level) drawn'

namespace Draws

variable {next : String → List String} {above drawn drawn' children : List String}
  {level : List Drawn}

/-- The children are what is drawn directly below. -/
theorem map_path (h : Draws next above drawn children level drawn') :
    level.map Drawn.path = children := by
  induction h with
  | done => rfl
  | cycle _ _ ih => exact congrArg _ ih
  | leaf _ _ _ ih => exact congrArg _ ih
  | shared _ _ _ _ ih => exact congrArg _ ih
  | expand _ _ _ _ _ _ ih => exact congrArg _ ih

/-- Drawing children in turn takes these steps, if drawing the dependencies of each of them does. -/
theorem foldl {enter : String → List String → List Drawn × List String}
    (henter : ∀ child, child ∉ above → next child ≠ [] → ∀ drawn,
      Draws next (child :: above) (child :: drawn) (next child) (enter child drawn).1
        (enter child drawn).2) (children drawn : List String) (before : List Drawn) :
    ∃ level drawn', children.foldl (fun (lines, drawn) child =>
        if child ∈ above then (lines ++ [node child .cycle []], drawn)
        else if (next child).isEmpty then (lines ++ [node child .plain []], child :: drawn)
        else if child ∈ drawn then (lines ++ [node child .shared []], drawn)
        else (lines ++ [node child .plain (enter child drawn).1], (enter child drawn).2))
        (before, drawn) = (before ++ level, drawn') ∧
      Draws next above drawn children level drawn' := by
  induction children generalizing before drawn with
  | nil => exact ⟨[], drawn, by rw [List.append_nil]; rfl, .done above drawn⟩
  | cons child rest ih =>
    rw [List.foldl_cons]
    dsimp only
    by_cases habove : child ∈ above
    · rw [if_pos habove]
      obtain ⟨level, drawn', heq, hrest⟩ := ih _ (before ++ [node child .cycle []])
      exact ⟨_, drawn', by rw [heq, List.append_assoc]; rfl, .cycle habove hrest⟩
    rw [if_neg habove]
    by_cases hnext : next child = []
    · rw [if_pos (List.isEmpty_iff.mpr hnext)]
      obtain ⟨level, drawn', heq, hrest⟩ := ih _ (before ++ [node child .plain []])
      exact ⟨_, drawn', by rw [heq, List.append_assoc]; rfl, .leaf habove hnext hrest⟩
    rw [if_neg (mt List.isEmpty_iff.mp hnext)]
    by_cases hdrawn : child ∈ drawn
    · rw [if_pos hdrawn]
      obtain ⟨level, drawn', heq, hrest⟩ := ih _ (before ++ [node child .shared []])
      exact ⟨_, drawn', by rw [heq, List.append_assoc]; rfl, .shared habove hnext hdrawn hrest⟩
    · rw [if_neg hdrawn]
      obtain ⟨level, drawn', heq, hrest⟩ := ih _ (before ++ [node child .plain (enter child drawn).1])
      exact ⟨_, drawn', by rw [heq, List.append_assoc]; rfl,
        .expand habove hnext hdrawn (henter child habove hnext drawn) hrest⟩

end Draws

variable {g : ImportGraph}

/-- A path with dependencies is a module. -/
theorem mem_paths_of_dependencies_ne_nil {path : String} (h : g.dependencies path ≠ []) :
    path ∈ g.paths := by
  by_contra hpath
  refine h ?_
  have hnone : g.find? path = none := by
    rw [← Option.not_isSome_iff_eq_none]
    exact fun hsome => hpath (ImportGraph.contains_iff.mp hsome)
  rw [ImportGraph.dependencies, hnone]
  rfl

/-- Drawing the dependencies of a module takes all its steps: the bound exceeds the number of
modules that do not stand above. -/
theorem draws_drawLevel {depth : ℕ} {above : List String} {path : String}
    (hnodup : (path :: above).Nodup) (hpaths : ∀ module ∈ path :: above, module ∈ g.paths)
    (hdepth : g.modules.length < depth + (path :: above).length) (drawn : List String) :
    Draws g.dependencies (path :: above) drawn (g.dependencies path)
      (drawLevel g depth (path :: above) drawn path).1
      (drawLevel g depth (path :: above) drawn path).2 := by
  induction depth generalizing above path drawn with
  | zero =>
    have hlength := (hnodup.subperm hpaths).length_le
    rw [ImportGraph.paths, List.length_map] at hlength
    omega
  | succ depth ih =>
    have henter (child : String) (habove : child ∉ path :: above)
        (hnext : g.dependencies child ≠ []) (drawn : List String) :=
      ih (hnodup.cons habove)
        (List.forall_mem_cons.mpr ⟨mem_paths_of_dependencies_ne_nil hnext, hpaths⟩)
        (by rw [List.length_cons]; omega) (child :: drawn)
    obtain ⟨level, drawn', heq, hdraws⟩ := Draws.foldl henter (g.dependencies path) drawn []
    rw [List.nil_append] at heq
    have hlevel : drawLevel g (depth + 1) (path :: above) drawn path = (level, drawn') := by
      rw [drawLevel]
      exact heq
    rw [hlevel]
    exact hdraws

/-- The tree of a module takes all its steps. -/
theorem draws_tree {root : String} (hroot : root ∈ g.paths) :
    ∃ drawn, Draws g.dependencies [] [] [root] [tree g root] drawn := by
  have hdepth : g.modules.length < (g.modules.length + 1) + [root].length := by
    rw [List.length_singleton]
    omega
  have hsub := draws_drawLevel (List.nodup_singleton root)
    (fun _ hmodule => List.mem_singleton.mp hmodule ▸ hroot) hdepth [root]
  by_cases hnext : g.dependencies root = []
  · have htree : tree g root = node root .plain [] := by
      rw [tree, drawLevel, hnext, List.foldl_nil]
    rw [htree]
    exact ⟨[root], .leaf List.not_mem_nil hnext (.done [] [root])⟩
  · exact ⟨_, .expand List.not_mem_nil hnext List.not_mem_nil hsub (.done [] _)⟩

end ImportAtlas.Drawn
