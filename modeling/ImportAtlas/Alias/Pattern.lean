import ImportAtlas.Pattern

/-!
# Matching aliases

An alias is matched through a regular expression: the alias with a backslash before every character
that means something in one, where every escaped star is replaced by a group for any text of one line,
between marks for the start and the end of the text. Of regular expressions no more is read than
what such expressions are made of.
-/

namespace ImportAtlas

namespace Expression

/-- The characters that get a backslash when a text is escaped: those that mean something in a regular
expression, also in one that is laid out freely. -/
def escapedChars : List Char :=
  ['(', ')', '[', ']', '\x7b', '\x7d', '?', '*', '+', '-', '|', '^', '$', '\\', '.', '&', '~', '#', ' ',
    '\t', '\n', '\r', '\x0b', '\x0c']

/-- A character as it is written in a regular expression to stand for itself. -/
def escapeChar (c : Char) : List Char := if c ∈ escapedChars then ['\\', c] else [c]

/-- A text as it is written in a regular expression to stand for itself. -/
def escape (text : List Char) : List Char := text.flatMap escapeChar

/-- The characters that do not stand for themselves in a regular expression. -/
def metaChars : List Char :=
  ['.', '^', '$', '*', '+', '?', '\x7b', '\x7d', '[', ']', '\\', '|', '(', ')']

/-- Read a regular expression that consists of marks for the start and the end of the text, groups for any
text of one line, and characters that stand for themselves, escaped or not; none if anything else is
in it. A letter or digit behind a backslash would not stand for itself. -/
def read? : List Char → Option Pattern
  | [] => some .empty
  | '^' :: rest => (read? rest).map (.seq .textStart)
  | '$' :: rest => (read? rest).map (.seq .textEnd)
  | '(' :: '.' :: '*' :: ')' :: rest =>
    (read? rest).map (.seq (.capture (.many (· != '\n'))))
  | '\\' :: c :: rest =>
    if c.isAlphanum then none else (read? rest).map (.seq (.one (· == c)))
  | c :: rest => if c ∈ metaChars then none else (read? rest).map (.seq (.one (· == c)))

end Expression

/-- An escaped text with a group for any text of one line in the place of every escaped star. -/
def groupStars : List Char → List Char
  | '\\' :: '*' :: rest => '(' :: '.' :: '*' :: ')' :: groupStars rest
  | c :: rest => c :: groupStars rest
  | [] => []

/-- The regular expression of an alias. -/
def aliasExpression (pattern : List Char) : List Char := '^' :: groupStars (Expression.escape pattern) ++ ['$']

/-- The pattern of an alias. -/
def aliasPattern? (pattern : List Char) : Option Pattern := Expression.read? (aliasExpression pattern)

/-- The texts for the stars of an alias that make it a specifier, none if it does not match. -/
def aliasMatch? (pattern specifier : List Char) : Option (List (List Char)) := do
  let p ← aliasPattern? pattern
  return (← p.matchStart specifier).groups

/-- A template with the text for the star of its alias put in the place of its own first star. -/
def substituteStar (text : List Char) : List Char → List Char
  | [] => []
  | c :: rest => if c = '*' then text ++ rest else c :: substituteStar text rest

end ImportAtlas
