import ImportAtlas.Import.Rule

/-!
# The context of a place on its line

Whether a place is commented out, or quoted, judged by the part of its line before it alone.
That part is read from left to right as code, string literals and comments. A literal left open
hides the place only if its quote comes right before it, so that an apostrophe in running text
does not hide a real call further on.
-/

namespace ImportAtlas

/-- What a reader of a line is inside of. -/
inductive LineContext where
  /-- Plain code. -/
  | code
  /-- A string literal that its own quote closes. -/
  | literal (quote : Char)
  /-- A comment that runs to the end of the line. -/
  | lineComment
  /-- A comment that a star and a slash close. -/
  | blockComment
deriving DecidableEq, Repr

namespace LineContext

/-- The context at the end of a stretch of a line that begins in a given one. A backslash in a
literal takes the next character with it. -/
def after : LineContext → List Char → LineContext
  | .code, '/' :: '/' :: _ => .lineComment
  | .code, '/' :: '*' :: rest => after .blockComment rest
  | .code, c :: rest => after (if ImportRule.isQuote c then .literal c else .code) rest
  | .literal q, '\\' :: _ :: rest => after (.literal q) rest
  | .literal q, '\\' :: [] => .literal q
  | .literal q, c :: rest => after (if c = q then .code else .literal q) rest
  | .blockComment, '*' :: '/' :: rest => after .code rest
  | .blockComment, _ :: rest => after .blockComment rest
  | .lineComment, _ :: _ => .lineComment
  | context, [] => context

end LineContext

/-- The part of the line of a place that lies before it. -/
def lineBefore (text : List Char) (position : Nat) : List Char :=
  ((text.take position).reverse.takeWhile (· != '\n')).reverse

/-- Whether what follows a stretch of a line is commented out, or quoted by a literal opened
right before it. A stretch that begins with a star counts as the inside of a comment. -/
def hidesWhatFollows (line : List Char) : Bool :=
  (Text.stripLeft line).head? == some '*' ||
    match LineContext.after .code line with
    | .code => false
    | .lineComment | .blockComment => true
    | .literal q => (Text.stripRight line).getLast? == some q

/-- Whether a place of a text lies in a comment or in a string literal on its line. -/
def inCommentOrLiteral (text : List Char) (position : Nat) : Bool :=
  hidesWhatFollows (lineBefore text position)

end ImportAtlas
