import ImportAtlas.Yaml.Error

/-!
# Reading YAML text

A source is a place in a text together with its line and its column, by which indentation is
judged. The classes of characters here are those that the forms of scalars and marks are made
of. Only characters that can be printed may stand in a text.
-/

namespace ImportAtlas.Yaml

/-- Whether a character may stand in a text. -/
def isPrintable (c : Char) : Bool :=
  let n := c.toNat
  n == 9 || n == 10 || n == 13 || (0x20 ≤ n && n ≤ 0x7E) || n == 0x85 ||
    (0xA0 ≤ n && n ≤ 0xD7FF) || (0xE000 ≤ n && n ≤ 0xFFFD) || 0x10000 ≤ n

/-- Whether a character ends a line. -/
def isBreak (c : Char) : Bool :=
  c == '\n' || c == '\r' || c == '\u0085' || c == '\u2028' || c == '\u2029'

/-- Whether a character is a space or a tab. -/
def isSpace (c : Char) : Bool := c == ' ' || c == '\t'

/-- Whether a character is a space, a tab or ends a line. -/
def isGap (c : Char) : Bool := isSpace c || isBreak c

/-- Whether there is no character, or one of a class. -/
def endOr (belongs : Char → Bool) (c : Option Char) : Bool := c.all belongs

/-- Whether a character can stand in the name of an anchor, a directive or a handle. -/
def isNameChar (c : Char) : Bool := c.isAlphanum || c == '-' || c == '_'

/-- A place in a text. -/
structure Source where
  rest : List Char
  index : Nat := 0
  line : Nat := 0
  column : Nat := 0
deriving Repr

namespace Source

/-- The character a number of places ahead. -/
def peek (s : Source) (ahead : Nat := 0) : Option Char := s.rest[ahead]?

/-- The place one character further on. A byte order mark takes no column. -/
def next (s : Source) : Source :=
  match s.rest with
  | [] => s
  | c :: rest =>
    if isBreak c && !(c == '\r' && rest.head? == some '\n') then
      ⟨rest, s.index + 1, s.line + 1, 0⟩
    else ⟨rest, s.index + 1, s.line, if c = '\uFEFF' then s.column else s.column + 1⟩

/-- The place a number of characters further on. -/
def skip (s : Source) : Nat → Source
  | 0 => s
  | n + 1 => s.next.skip n

/-- The characters of a class that come next. -/
def run (s : Source) (belongs : Char → Bool) : List Char := s.rest.takeWhile belongs

/-- The place after the characters of a class that come next. -/
def skipRun (s : Source) (belongs : Char → Bool) : Source := s.skip (s.run belongs).length

/-- The line break that comes next, most of them as a newline, and the place after it. -/
def lineBreak? (s : Source) : Option (Char × Source) :=
  match s.rest with
  | '\r' :: '\n' :: _ => some ('\n', s.skip 2)
  | c :: _ =>
    if c = '\u2028' ∨ c = '\u2029' then some (c, s.next)
    else if isBreak c then some ('\n', s.next)
    else none
  | [] => none

/-- The place after a line break, if one comes next. -/
def skipBreak (s : Source) : Source := (s.lineBreak?.map Prod.snd).getD s

/-- Whether a mark of three characters, and then nothing or a gap, comes next. -/
def atMark (s : Source) (mark : List Char) : Bool :=
  mark.isPrefixOf s.rest && endOr isGap (s.peek 3)

/-- Whether the start or the end of a document comes next. -/
def atDocumentMark (s : Source) : Bool := s.atMark ['-', '-', '-'] || s.atMark ['.', '.', '.']

/-- The place after spaces, a comment and the end of the line; nothing else may come before
that. -/
def skipIgnoredLine (s : Source) : Except YamlError Source :=
  let s := s.skipRun (· == ' ')
  let s := if s.peek = some '#' then s.skipRun fun c => !isBreak c else s
  if endOr isBreak s.peek then .ok s.skipBreak else .error .malformed

end Source

end ImportAtlas.Yaml
