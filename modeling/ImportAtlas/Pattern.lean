import ImportAtlas.Text.Blank
import ImportAtlas.Text.Word

/-!
# Patterns over text

A pattern describes texts; matching tries its alternatives in order and lets a repetition take
as much as it can, giving back step by step when what follows does not match. A match is
therefore the first in that order, and not the longest.
-/

namespace ImportAtlas

/-- A place in a text together with the groups captured on the way to it. -/
structure Cursor where
  /-- The character just before the place, none at the start of the text. -/
  before : Option Char
  /-- The number of characters before the place. -/
  position : Nat
  /-- The characters from the place on. -/
  rest : List Char
  /-- Where the captured stretches begin and end, in the order in which their groups were closed. -/
  groups : List (Nat × Nat) := []

/-- The cursor one character further on. -/
def Cursor.next (c : Cursor) (x : Char) (rest : List Char) : Cursor :=
  ⟨some x, c.position + 1, rest, c.groups⟩

/-- A description of texts, tried from left to right. -/
inductive Pattern where
  /-- The empty text. -/
  | empty
  /-- One character of a class. -/
  | one (belongs : Char → Bool)
  /-- As many characters of a class as possible. -/
  | many (belongs : Char → Bool)
  /-- One pattern after the other. -/
  | seq (first second : Pattern)
  /-- The first pattern, or else the second. -/
  | alt (first second : Pattern)
  /-- A pattern repeated as often as possible, each round taking at least one character. -/
  | star (body : Pattern)
  /-- A pattern whose text is remembered. -/
  | capture (body : Pattern)
  /-- The empty text at the start of a line. -/
  | lineStart
  /-- The empty text at the start of the whole text. -/
  | textStart
  /-- The empty text at the end of the whole text, or before a newline that ends it. -/
  | textEnd
  /-- The empty text between a word character and one that is none, or an end of the text. -/
  | wordEdge

namespace Pattern

/-- Whether a neighbour of a place exists and is a word character. -/
def wordBeside (c : Option Char) : Bool := c.any Text.isWord

/-- Take a run of a class: all of it first, then one character less at a time. -/
def tryMany {α : Type} (belongs : Char → Bool) (before : Option Char) (position : Nat)
    (groups : List (Nat × Nat)) (k : Cursor → Option α) : List Char → Option α
  | [] => k ⟨before, position, [], groups⟩
  | x :: rest =>
    if belongs x then
      (tryMany belongs (some x) (position + 1) groups k rest).orElse fun _ =>
        k ⟨before, position, x :: rest, groups⟩
    else k ⟨before, position, x :: rest, groups⟩

/-- Repeat a step as often as it makes progress, giving back one round at a time.

The number bounds the rounds; no more are possible than characters are left. -/
def tryStar {α : Type} (step : Cursor → (Cursor → Option α) → Option α) :
    Nat → Cursor → (Cursor → Option α) → Option α
  | 0, c, k => k c
  | rounds + 1, c, k =>
    (step c fun c' =>
      if c'.position = c.position then none else tryStar step rounds c' k).orElse fun _ => k c

/-- Match a pattern at a cursor and go on with `k`; the first way on which `k` succeeds counts. -/
def tryMatch {α : Type} : Pattern → Cursor → (Cursor → Option α) → Option α
  | .empty, c, k => k c
  | .one belongs, c, k =>
    match c.rest with
    | x :: rest => if belongs x then k (c.next x rest) else none
    | [] => none
  | .many belongs, c, k => tryMany belongs c.before c.position c.groups k c.rest
  | .seq first second, c, k => first.tryMatch c fun c' => second.tryMatch c' k
  | .alt first second, c, k => (first.tryMatch c k).orElse fun _ => second.tryMatch c k
  | .star body, c, k => tryStar body.tryMatch c.rest.length c k
  | .capture body, c, k =>
    body.tryMatch c fun c' => k { c' with groups := c'.groups ++ [(c.position, c'.position)] }
  | .lineStart, c, k => if c.before.all (· == '\n') then k c else none
  | .textStart, c, k => if c.before.isNone then k c else none
  | .textEnd, c, k => if c.rest = [] ∨ c.rest = ['\n'] then k c else none
  | .wordEdge, c, k => if wordBeside c.before != wordBeside c.rest.head? then k c else none

/-- A fixed text. -/
def text (s : List Char) : Pattern := s.foldr (fun c p => .seq (.one (· == c)) p) .empty

/-- A pattern or nothing. -/
def optional (p : Pattern) : Pattern := .alt p .empty

/-- One or more characters of a class, as many as possible. -/
def some (belongs : Char → Bool) : Pattern := .seq (.one belongs) (.many belongs)

/-- Patterns one after the other. -/
def all (ps : List Pattern) : Pattern := ps.foldr .seq .empty

/-- The first pattern of a list that matches, with a last resort for none. -/
def firstOf : List Pattern → Pattern
  | [] => .one fun _ => false
  | [p] => p
  | p :: ps => .alt p (firstOf ps)

/-- A stretch of a text that a pattern matched. -/
structure Match where
  /-- The number of characters before the stretch. -/
  start : Nat
  /-- The number of characters up to its end. -/
  stop : Nat
  /-- What its groups captured. -/
  groups : List (List Char)
deriving Repr, DecidableEq

/-- The match that begins exactly at a place, if there is one. -/
def matchAt (p : Pattern) (before : Option Char) (position : Nat) (rest : List Char) :
    Option Match :=
  (p.tryMatch ⟨before, position, rest, []⟩ Option.some).map fun c =>
    ⟨position, c.position, c.groups.map fun (start, stop) =>
      (rest.drop (start - position)).take (stop - start)⟩

/-- The leftmost matches from a place on, none beginning before `resume`. -/
def matchesFrom (p : Pattern) (before : Option Char) (position resume : Nat) :
    List Char → List Match
  | [] => if position < resume then [] else (p.matchAt before position []).toList
  | x :: rest =>
    if position < resume then p.matchesFrom (Option.some x) (position + 1) resume rest
    else
      match p.matchAt before position (x :: rest) with
      | none => p.matchesFrom (Option.some x) (position + 1) resume rest
      | Option.some m =>
        m :: p.matchesFrom (Option.some x) (position + 1) (max m.stop (position + 1)) rest

/-- The matches in a text from left to right, each beginning where the one before ended or
later. -/
def findAll (p : Pattern) (s : List Char) : List Match := p.matchesFrom none 0 0 s

/-- The leftmost match from a place on. -/
def searchFrom (p : Pattern) (before : Option Char) (position : Nat) : List Char → Option Match
  | [] => p.matchAt before position []
  | x :: rest =>
    match p.matchAt before position (x :: rest) with
    | Option.some m => Option.some m
    | none => p.searchFrom (Option.some x) (position + 1) rest

/-- The leftmost match in a text. -/
def search (p : Pattern) (s : List Char) : Option Match := p.searchFrom none 0 s

/-- The match that begins at the start of a text. -/
def matchStart (p : Pattern) (s : List Char) : Option Match := p.matchAt none 0 s

end Pattern

end ImportAtlas
