import ImportAtlas.Text.Split

/-!
# Paths

A path is an anchor and a list of names. Reading one drops empty names and single dots; double
dots stay until the path is made normal, which is done by its text alone. Exactly two slashes at
the start are an anchor of their own.
-/

namespace ImportAtlas

/-- What a path starts from. -/
inductive Anchor where
  /-- Wherever the path is used. -/
  | relative
  /-- The root. -/
  | root
  /-- The root written with two slashes. -/
  | doubleRoot
deriving DecidableEq, Repr

/-- A path as written. -/
structure Path where
  anchor : Anchor
  names : List String
deriving DecidableEq, Repr

namespace Path

/-- The anchor of a path text, by the slashes it begins with. -/
def anchorOf (text : List Char) : Anchor :=
  match (text.takeWhile (· == '/')).length with
  | 0 => .relative
  | 2 => .doubleRoot
  | _ => .root

/-- Read a path. -/
def ofString (text : String) : Path :=
  ⟨anchorOf text.toList,
    ((Text.splitAt '/' text.toList).map String.ofList).filter fun name => name != "" && name != "."⟩

/-- The text of an anchor. -/
def anchorText : Anchor → String
  | .relative => ""
  | .root => "/"
  | .doubleRoot => "//"

/-- The text of a path; a path of nothing is written as a dot. -/
def toString (p : Path) : String :=
  if p.anchor = .relative ∧ p.names = [] then "."
  else anchorText p.anchor ++ "/".intercalate p.names

/-- Whether a path does not depend on where it is used. -/
def isAbsolute (p : Path) : Bool := p.anchor != .relative

/-- The path that `q` names when used in `p`. -/
def join (p q : Path) : Path := if q.isAbsolute then q else ⟨p.anchor, p.names ++ q.names⟩

/-- The path without its last name. -/
def parent (p : Path) : Path := ⟨p.anchor, p.names.dropLast⟩

/-- The last name, empty if there is none. -/
def name (p : Path) : String := p.names.getLast?.getD ""

/-- Where the ending of a name begins: at its last dot, unless that is its first or its last
character. -/
def endingStart (name : List Char) : Option Nat :=
  let fromDot := (name.reverse.takeWhile (· != '.')).length
  if name.contains '.' then
    let start := name.length - fromDot - 1
    if 0 < start && start < name.length - 1 then some start else none
  else none

/-- Whether the last name has an ending. -/
def hasEnding (p : Path) : Bool := (endingStart p.name.toList).isSome

/-- The path with the ending of its last name replaced, or added. -/
def withEnding (p : Path) (ending : String) : Path :=
  let name := p.name.toList
  let stem := match endingStart name with
    | some start => name.take start
    | none => name
  ⟨p.anchor, p.names.dropLast ++ [String.ofList stem ++ ending]⟩

/-- Put a name after normal names: a double dot takes the one before it away. Nothing lies above
the root. -/
def normalStep (absolute : Bool) (names : List String) (name : String) : List String :=
  if name != ".." then names ++ [name]
  else
    match names.getLast? with
    | none => if absolute then [] else [".."]
    | some last => if last = ".." then names ++ [".."] else names.dropLast

/-- The path without a name before a double dot. -/
def normal (p : Path) : Path := ⟨p.anchor, p.names.foldl (normalStep p.isAbsolute) []⟩

/-- Whether a path can be looked up at all: no name holds the null character. -/
def isSound (p : Path) : Bool := p.names.all fun name => !name.toList.contains '\x00'

/-- The normal path, from the one root, that leads where an absolute path leads. -/
def resolved (p : Path) : Path := normal ⟨.root, p.names⟩

/-- The normal absolute path that a path names when used in a folder, none if it cannot be
looked up. -/
def resolve? (folder p : Path) : Option Path :=
  let whole := folder.join p
  if whole.isSound then some whole.resolved else none

/-- The names that two lists begin with in common. -/
def commonLength : List String → List String → Nat
  | a :: as, b :: bs => if a = b then commonLength as bs + 1 else 0
  | _, _ => 0

/-- The way from a folder to a path, both absolute and normal. -/
def wayFrom (folder p : Path) : Path :=
  let common := commonLength folder.names p.names
  ⟨.relative, List.replicate (folder.names.length - common) ".." ++ p.names.drop common⟩

/-- The part of a path below a folder, none if it does not lie there. -/
def below? (folder p : Path) : Option Path :=
  if folder.anchor = p.anchor ∧ folder.names.isPrefixOf p.names then
    some ⟨.relative, p.names.drop folder.names.length⟩
  else none

end Path

end ImportAtlas
