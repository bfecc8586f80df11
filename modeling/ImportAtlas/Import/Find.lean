import ImportAtlas.Import.Context

/-!
# Finding imports

The rules claim stretches of a text in the order of their priority: a match that overlaps a
claimed stretch is dropped, and so is a call in a comment or a string literal. What is left,
ordered by place, are the imports of the text; those that create a dependency when the program
runs are extracted from it.
-/

namespace ImportAtlas

/-- A construct found in a text. -/
structure ImportMatch where
  /-- The specifier as written, empty for a computed one. -/
  specifier : String
  kind : ImportKind
  /-- The place where the construct begins. -/
  offset : Nat
  /-- The place where it ends. -/
  stop : Nat
  /-- Whether it creates no dependency when the program runs. -/
  skip : Bool
deriving DecidableEq, Repr

/-- Whether two stretches share a place. -/
def overlaps (start stop start' stop' : Nat) : Bool := start < stop' && start' < stop

/-- Whether a specifier is relative to the importing file. -/
def isRelativeSpecifier (specifier : List Char) : Bool :=
  "./".toList.isPrefixOf specifier || "../".toList.isPrefixOf specifier

/-- The beginnings of specifiers that may point into the project: relative paths, and the usual
marks of aliases, scoped packages and inner imports. -/
def localBeginnings : List String := ["./", "../", "@", "#", "~"]

/-- Whether a specifier may point into the project; any other names a package. -/
def isLocalSpecifier (specifier : List Char) : Bool :=
  localBeginnings.any fun beginning => beginning.toList.isPrefixOf specifier

namespace ImportMatch

/-- What a rule reports for a match of its pattern. -/
def ofMatch (rule : ImportRule) (m : Pattern.Match) : ImportMatch :=
  ⟨String.ofList (m.groups.head?.getD []), rule.kind, m.start, m.stop, rule.skip⟩

/-- Add a match of a rule to what is claimed, unless it overlaps that or is hidden. -/
def claim (text : List Char) (rule : ImportRule) (claimed : List ImportMatch)
    (m : Pattern.Match) : List ImportMatch :=
  if claimed.any (fun c => overlaps m.start m.stop c.offset c.stop) then claimed
  else if !rule.anchored && inCommentOrLiteral text m.start then claimed
  else claimed ++ [ofMatch rule m]

/-- Let a rule claim its matches from left to right. -/
def claimAll (text : List Char) (claimed : List ImportMatch) (rule : ImportRule) :
    List ImportMatch :=
  (rule.pattern.findAll text).foldl (claim text rule) claimed

end ImportMatch

/-- All that the rules claim in a text, in the order of claiming. -/
def claimedImports (text : List Char) : List ImportMatch :=
  importRules.foldl (ImportMatch.claimAll text) []

/-- The constructs of a text ordered by place, skipped ones included. -/
def findImports (text : List Char) : List ImportMatch :=
  (claimedImports text).mergeSort fun a b => a.offset ≤ b.offset

/-- The imports of a text that create dependencies, ordered by place. Specifiers of packages
are left out unless they are asked for. -/
def extractImports (text : List Char) (external : Bool := false) : List ImportMatch :=
  (findImports text).filter fun item =>
    !item.skip && (external || isLocalSpecifier item.specifier.toList)

/-- Whether a text holds constructs and all of them are skipped. -/
def allSkipped (text : List Char) : Bool :=
  !(findImports text).isEmpty && (findImports text).all ImportMatch.skip

end ImportAtlas
