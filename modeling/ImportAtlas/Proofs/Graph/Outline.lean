import Mathlib.Data.List.Basic
import ImportAtlas.Graph.Drawing

/-!
# The places of a drawn tree

The lines of a tree are its modules from the top down, each indented by what stands above it. Here
every line is given as a place of the tree: the modules above it, whether these and it are the last
of their levels, and what is drawn there. The text of a line is a function of its place, so whatever
is told about places is told about lines.
-/

namespace ImportAtlas.Drawn

/-- The module that is drawn. -/
def path : Drawn → String
  | node path _ _ => path

/-- The mark behind the module. -/
def mark : Drawn → DrawnMark
  | node _ mark _ => mark

/-- What is drawn directly below the module. -/
def children : Drawn → List Drawn
  | node _ _ children => children

/-- A place of a tree. -/
structure Place where
  /-- The modules above, from the one directly above up to the root. -/
  above : List String
  /-- Whether the module here and each module above is the last of its level, from here up. A root
  is the only one of its level. -/
  lasts : List Bool
  /-- What is drawn here. -/
  drawn : Drawn

namespace Place

/-- Whether something is drawn below. -/
def isExpanded (p : Place) : Bool := !p.drawn.children.isEmpty

/-- The edge that a line draws: from the module directly above to the module here. The root draws
none. -/
def edge? (p : Place) : Option (String × String) := p.above.head?.map fun parent => (parent, p.drawn.path)

/-- The edges to what is drawn directly below. -/
def edgesBelow (p : Place) : List (String × String) :=
  p.drawn.children.map fun child => (p.drawn.path, child.path)

end Place

/-- What stands before the lines below a module, given whether it and each module above is the last
of its level, from the lowest up. A root adds nothing. -/
def Glyphs.margin (glyphs : Glyphs) : List Bool → String
  | isLast :: second :: up =>
    glyphs.margin (second :: up) ++ if isLast then glyphs.space else glyphs.vertical
  | _ => ""

/-- The line of a place. -/
def Place.text (glyphs : Glyphs) (p : Place) : String :=
  match p.lasts with
  | isLast :: second :: up =>
    glyphs.margin (second :: up) ++ (if isLast then glyphs.last else glyphs.branch) ++
      p.drawn.path ++ p.drawn.mark.text
  | _ => p.drawn.path ++ p.drawn.mark.text

mutual

/-- The places of a tree, from the top down. -/
def places (above : List String) (lasts : List Bool) : Drawn → List Place
  | node path mark children =>
    ⟨above, lasts, node path mark children⟩ :: levelPlaces (path :: above) lasts children
termination_by structural drawn => drawn

/-- The places of the trees of a level, from the top down. -/
def levelPlaces (above : List String) (lasts : List Bool) : List Drawn → List Place
  | [] => []
  | first :: rest => places above (rest.isEmpty :: lasts) first ++ levelPlaces above lasts rest
termination_by structural level => level

end

/-- The places of the tree of a root. -/
def block (t : Drawn) : List Place := levelPlaces [] [] [t]

/-- The modules whose dependencies are drawn below some of the given places, in their order. -/
def expandedPaths (places : List Place) : List String :=
  (places.filter Place.isExpanded).map fun p => p.drawn.path

/-- The modules expanded in one part of a tree follow those of the part before it. -/
@[simp] theorem expandedPaths_append (before after : List Place) :
    expandedPaths (before ++ after) = expandedPaths before ++ expandedPaths after := by
  rw [expandedPaths, List.filter_append, List.map_append, expandedPaths, expandedPaths]

/-- A module is expanded where something is drawn below it. -/
theorem mem_expandedPaths {path : String} {places : List Place} :
    path ∈ expandedPaths places ↔
      ∃ p ∈ places, p.drawn.children ≠ [] ∧ p.drawn.path = path := by
  simp [expandedPaths, Place.isExpanded, and_assoc]

section Level

variable (above : List String) (lasts : List Bool) (path : String) (mark : DrawnMark)
  (sub level : List Drawn)

/-- A place with nothing below expands no module. -/
theorem expandedPaths_cons_nil (places : List Place) :
    expandedPaths (⟨above, lasts, node path mark []⟩ :: places) = expandedPaths places := by
  rw [expandedPaths, List.filter_cons_of_neg (by simp [Place.isExpanded, children]), expandedPaths]

variable {sub} in
/-- A place with something below expands its module. -/
theorem expandedPaths_cons (h : sub ≠ []) (places : List Place) :
    expandedPaths (⟨above, lasts, node path mark sub⟩ :: places) = path :: expandedPaths places := by
  rw [expandedPaths, List.filter_cons_of_pos (by simp [Place.isExpanded, children, h]),
    List.map_cons, expandedPaths]
  rfl

/-- The places of a level begin with those of its first tree. -/
theorem levelPlaces_cons :
    levelPlaces above lasts (node path mark sub :: level) =
      ⟨above, level.isEmpty :: lasts, node path mark sub⟩ ::
        (levelPlaces (path :: above) (level.isEmpty :: lasts) sub ++
          levelPlaces above lasts level) := by
  rw [levelPlaces, places, List.cons_append]

/-- A tree of one module takes one place. -/
theorem levelPlaces_cons_nil :
    levelPlaces above lasts (node path mark [] :: level) =
      ⟨above, level.isEmpty :: lasts, node path mark []⟩ :: levelPlaces above lasts level := by
  rw [levelPlaces_cons, levelPlaces, List.nil_append]

/-- A tree of one module expands none. -/
theorem expandedPaths_level_cons_nil :
    expandedPaths (levelPlaces above lasts (node path mark [] :: level)) =
      expandedPaths (levelPlaces above lasts level) := by
  rw [levelPlaces_cons_nil, expandedPaths_cons_nil]

variable {sub} in
/-- A larger tree expands its top before what is below and what comes after. -/
theorem expandedPaths_level_cons (h : sub ≠ []) :
    expandedPaths (levelPlaces above lasts (node path mark sub :: level)) =
      path :: (expandedPaths (levelPlaces (path :: above) (level.isEmpty :: lasts) sub) ++
        expandedPaths (levelPlaces above lasts level)) := by
  rw [levelPlaces_cons, expandedPaths_cons _ _ _ _ h, expandedPaths_append]

end Level

mutual

/-- The lines of a tree below another are those of its places. -/
theorem lines_eq_map (glyphs : Glyphs) (above : List String) (up : Bool) (lasts : List Bool)
    (isLast : Bool) : ∀ t : Drawn, t.lines glyphs (glyphs.margin (up :: lasts)) isLast =
      (t.places above (isLast :: up :: lasts)).map (Place.text glyphs)
  | node path mark children => by
    rw [lines, places, List.map_cons]
    exact congrArg _ (levelLines_eq_map glyphs (path :: above) isLast (up :: lasts) children)

/-- The lines of a level below a module are those of its places. -/
theorem levelLines_eq_map (glyphs : Glyphs) (above : List String) (up : Bool) (lasts : List Bool) :
    ∀ level : List Drawn, levelLines glyphs (glyphs.margin (up :: lasts)) level =
      (levelPlaces above (up :: lasts) level).map (Place.text glyphs)
  | [] => rfl
  | [only] => by
    rw [levelLines, levelPlaces, levelPlaces, List.append_nil, List.isEmpty_nil]
    exact lines_eq_map glyphs above up lasts true only
  | first :: second :: rest => by
    rw [levelLines, levelPlaces, List.map_append, List.isEmpty_cons,
      lines_eq_map glyphs above up lasts false first,
      levelLines_eq_map glyphs above up lasts (second :: rest)]

end

/-- The lines of the tree of a root are those of its places. -/
theorem treeLines_eq_map (glyphs : Glyphs) :
    ∀ t : Drawn, t.treeLines glyphs = t.block.map (Place.text glyphs)
  | node path mark children => by
    rw [treeLines, block, levelPlaces_cons, levelPlaces, List.append_nil, List.map_cons]
    exact congrArg _ (levelLines_eq_map glyphs [path] true [] children)

mutual

/-- Each line below a module draws an edge: those to the first level, and those below each place. -/
theorem edges_places (parent : String) (above : List String) (lasts : List Bool) :
    ∀ t : Drawn, ((t.places (parent :: above) lasts).filterMap Place.edge?).Perm
      ((parent, t.path) :: (t.places (parent :: above) lasts).flatMap Place.edgesBelow)
  | node path mark children => by
    have hedge : Place.edge? ⟨parent :: above, lasts, node path mark children⟩ =
        some (parent, path) := rfl
    rw [places, List.filterMap_cons_some hedge, List.flatMap_cons]
    exact (edges_levelPlaces path (parent :: above) lasts children).cons _

/-- Each line of a level draws an edge. -/
theorem edges_levelPlaces (parent : String) (above : List String) (lasts : List Bool) :
    ∀ level : List Drawn, ((levelPlaces (parent :: above) lasts level).filterMap Place.edge?).Perm
      ((level.map fun child => (parent, child.path)) ++
        (levelPlaces (parent :: above) lasts level).flatMap Place.edgesBelow)
  | [] => .nil
  | first :: rest => by
    rw [levelPlaces, List.filterMap_append, List.flatMap_append, List.map_cons]
    have hfirst := edges_places parent above (rest.isEmpty :: lasts) first
    have hrest := edges_levelPlaces parent above lasts rest
    refine (hfirst.append hrest).trans ?_
    rw [List.cons_append, List.cons_append]
    refine .cons _ ?_
    rw [← List.append_assoc, ← List.append_assoc]
    exact List.perm_append_comm.append_right _

end

mutual

/-- A place of a tree is its top, or one directly below another. -/
theorem exists_parent_of_mem_places (above : List String) (lasts : List Bool) :
    ∀ (t : Drawn), ∀ q ∈ t.places above lasts, q = ⟨above, lasts, t⟩ ∨
      ∃ p ∈ t.places above lasts, q.above = p.drawn.path :: p.above ∧ q.drawn ∈ p.drawn.children
  | node path mark children, q, hq => by
    rw [places] at hq ⊢
    rcases List.mem_cons.mp hq with rfl | hq
    · exact .inl rfl
    · rcases exists_parent_of_mem_levelPlaces (path :: above) lasts children q hq with
        ⟨habove, hdrawn⟩ | ⟨p, hp, hbelow⟩
      · exact .inr ⟨_, List.mem_cons_self, habove, hdrawn⟩
      · exact .inr ⟨p, List.mem_cons_of_mem _ hp, hbelow⟩

/-- A place of a level is the top of one of its trees, or one directly below another. -/
theorem exists_parent_of_mem_levelPlaces (above : List String) (lasts : List Bool) :
    ∀ (level : List Drawn), ∀ q ∈ levelPlaces above lasts level,
      (q.above = above ∧ q.drawn ∈ level) ∨
        ∃ p ∈ levelPlaces above lasts level,
          q.above = p.drawn.path :: p.above ∧ q.drawn ∈ p.drawn.children
  | [], q, hq => absurd hq List.not_mem_nil
  | first :: rest, q, hq => by
    rw [levelPlaces] at hq ⊢
    rcases List.mem_append.mp hq with hq | hq
    · rcases exists_parent_of_mem_places above (rest.isEmpty :: lasts) first q hq with
        rfl | ⟨p, hp, hbelow⟩
      · exact .inl ⟨rfl, List.mem_cons_self⟩
      · exact .inr ⟨p, List.mem_append_left _ hp, hbelow⟩
    · rcases exists_parent_of_mem_levelPlaces above lasts rest q hq with
        ⟨habove, hdrawn⟩ | ⟨p, hp, hbelow⟩
      · exact .inl ⟨habove, List.mem_cons_of_mem _ hdrawn⟩
      · exact .inr ⟨p, List.mem_append_right _ hp, hbelow⟩

end

/-- A line of the tree of a root is that of the root, or stands directly below another. -/
theorem exists_parent_of_mem_block {t : Drawn} {q : Place} (hq : q ∈ t.block) :
    (q.above = [] ∧ q.drawn = t) ∨
      ∃ p ∈ t.block, q.above = p.drawn.path :: p.above ∧ q.drawn ∈ p.drawn.children := by
  refine (exists_parent_of_mem_levelPlaces [] [] [t] q hq).imp_left fun htop => ?_
  exact ⟨htop.1, List.mem_singleton.mp htop.2⟩

/-- Each line but the first draws an edge. -/
theorem edges_block : ∀ t : Drawn,
    (t.block.filterMap Place.edge?).Perm (t.block.flatMap Place.edgesBelow) ∧
      t.block.length = 1 + (t.block.filterMap Place.edge?).length
  | node path mark children => by
    rw [block, levelPlaces_cons, levelPlaces, List.append_nil, List.filterMap_cons_none rfl,
      List.flatMap_cons, List.length_cons, Nat.add_comm]
    refine ⟨edges_levelPlaces path [] _ children, congrArg _ ?_⟩
    rw [List.length_filterMap_eq_countP, List.countP_eq_length.mpr fun q hq => ?_]
    have habove : q.above ≠ [] := by
      rcases exists_parent_of_mem_levelPlaces [path] _ children q hq with
        ⟨habove, -⟩ | ⟨p, -, habove, -⟩
      · rw [habove]
        exact List.cons_ne_nil _ _
      · rw [habove]
        exact List.cons_ne_nil _ _
    obtain ⟨parent, up, habove⟩ := List.exists_cons_of_ne_nil habove
    rw [Place.edge?, habove]
    rfl

end ImportAtlas.Drawn
