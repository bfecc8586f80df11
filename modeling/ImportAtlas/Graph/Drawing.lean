import ImportAtlas.Graph.Basic

/-!
# Drawing a graph as trees

From each module that nothing imports a tree is drawn along the dependencies; if every module is
imported, from each module. A module above itself in the tree is marked as a cycle and not drawn
further, and one whose dependencies were drawn before under the same root is marked as shared.
-/

namespace ImportAtlas

/-- Why the dependencies of a module are not drawn below it, if they are not. -/
inductive DrawnMark where
  /-- They are, or there are none. -/
  | plain
  /-- The module stands above itself. -/
  | cycle
  /-- They are drawn elsewhere. -/
  | shared
deriving DecidableEq, Repr

/-- The text after a marked module. -/
def DrawnMark.text : DrawnMark → String
  | .plain => ""
  | .cycle => " [*]"
  | .shared => " [...]"

/-- A drawn module and what is drawn below it. -/
inductive Drawn where
  | node (path : String) (mark : DrawnMark) (children : List Drawn)
deriving Repr

namespace Drawn

/-- What the lines of a tree begin with. -/
structure Glyphs where
  /-- Before a module with others after it. -/
  branch : String
  /-- Before the last module of a level. -/
  last : String
  /-- Below a module with others after it. -/
  vertical : String
  /-- Below the last module of a level. -/
  space : String

/-- Glyphs of box drawing characters. -/
def Glyphs.box : Glyphs := ⟨"├── ", "└── ", "│   ", "    "⟩

/-- Glyphs of ASCII alone. -/
def Glyphs.ascii : Glyphs := ⟨"|-- ", "\\-- ", "|   ", "    "⟩

/-- Draw the dependencies of a module. Given are the modules above them, from the module itself
up, and those drawn so far, to which the result adds. The number bounds the depth. -/
def drawLevel (g : ImportGraph) :
    Nat → (above drawn : List String) → String → List Drawn × List String
  | 0, _, drawn, _ => ([], drawn)
  | depth + 1, above, drawn, path =>
    (g.dependencies path).foldl (fun (lines, drawn) child =>
      if child ∈ above then (lines ++ [node child .cycle []], drawn)
      else if (g.dependencies child).isEmpty then (lines ++ [node child .plain []], child :: drawn)
      else if child ∈ drawn then (lines ++ [node child .shared []], drawn)
      else
        let (sub, drawn) := drawLevel g depth (child :: above) (child :: drawn) child
        (lines ++ [node child .plain sub], drawn)) ([], drawn)

/-- The tree of a root. -/
def tree (g : ImportGraph) (root : String) : Drawn :=
  node root .plain (drawLevel g (g.modules.length + 1) [root] [root] root).1

mutual

/-- The lines of a drawn module that stands below another. -/
def lines (glyphs : Glyphs) (margin : String) (isLast : Bool) : Drawn → List String
  | node path mark children =>
    (margin ++ (if isLast then glyphs.last else glyphs.branch) ++ path ++ mark.text) ::
      levelLines glyphs (margin ++ if isLast then glyphs.space else glyphs.vertical) children
termination_by structural drawn => drawn

/-- The lines of the modules of a level and all below them. -/
def levelLines (glyphs : Glyphs) (margin : String) : List Drawn → List String
  | [] => []
  | [only] => lines glyphs margin true only
  | first :: second :: rest =>
    lines glyphs margin false first ++ levelLines glyphs margin (second :: rest)
termination_by structural level => level

end

/-- The lines of the tree of a root. -/
def treeLines (glyphs : Glyphs) : Drawn → List String
  | node path mark children => (path ++ mark.text) :: levelLines glyphs "" children

end Drawn

namespace ImportGraph

/-- The modules from which trees are drawn. -/
def drawnRoots (g : ImportGraph) : List String :=
  if g.rootPaths.isEmpty then g.paths else g.rootPaths

/-- The trees of a graph. -/
def drawing (g : ImportGraph) : List Drawn := g.drawnRoots.map (Drawn.tree g)

/-- The trees as text, an empty line between two. -/
def drawnText (g : ImportGraph) (glyphs : Drawn.Glyphs) : String :=
  "\n\n".intercalate (g.drawing.map fun t => "\n".intercalate (t.treeLines glyphs))

end ImportGraph

end ImportAtlas
