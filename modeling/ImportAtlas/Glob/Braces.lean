import ImportAtlas.Text.Split

/-!
# Brace groups in globs

A group in braces stands for its members, which commas part. Groups are replaced one at a time,
the leftmost group without braces inside it first, until none is left; a brace that belongs to
no group stays as it is.
-/

namespace ImportAtlas.Glob

/-- Whether a character is no brace. -/
def notBrace (c : Char) : Bool := c != '\x7b' && c != '\x7d'

/-- A pattern cut at a group: what stands before it, its body and what stands after it. -/
structure Group where
  head : List Char
  body : List Char
  tail : List Char
deriving DecidableEq, Repr

/-- The leftmost group that holds no brace. -/
def firstGroup? : List Char → Option Group
  | [] => none
  | c :: rest =>
    match c, rest.dropWhile notBrace with
    | '\x7b', '\x7d' :: tail => some ⟨[], rest.takeWhile notBrace, tail⟩
    | _, _ => (firstGroup? rest).map fun g => { g with head := c :: g.head }

/-- Replace at most a number of nested or successive groups by their members. -/
def expandUpTo : Nat → List Char → List (List Char)
  | 0, pattern => [pattern]
  | groups + 1, pattern =>
    match firstGroup? pattern with
    | none => [pattern]
    | some g =>
      (Text.splitAt ',' g.body).flatMap fun member => expandUpTo groups (g.head ++ member ++ g.tail)

/-- All patterns that a pattern with groups stands for. Each replacement removes an opening
brace, so that their number bounds the depth. -/
def expandBraces (pattern : List Char) : List (List Char) :=
  expandUpTo (pattern.count '\x7b') pattern

end ImportAtlas.Glob
