import ImportAtlas.Path
import ImportAtlas.Pattern
import ImportAtlas.Text.Utf8

/-!
# Search windows

A match is reported as a window: the whole lines that it touches, with the place of the match in
them. Matches that share a line share a window. Windows follow each other in the order of the
text and never overlap.
-/

namespace ImportAtlas

/-- What the numbers of a span count. -/
inductive SpanUnit where
  | characters
  | bytes
deriving DecidableEq, Repr

/-- Whole lines of a file with the places that matched. -/
structure Window where
  path : Path
  /-- The number of the first line, counted from one. -/
  line : Int
  text : List Char
  /-- The starts and ends of the matches in the text. -/
  spans : List (Int × Int)
  unit : SpanUnit
deriving DecidableEq, Repr

/-- The place in a list that a number points to; a negative one counts from the end. -/
def placeIn (length : Nat) (n : Int) : Nat :=
  if n < 0 then (n + length).toNat else min n.toNat length

/-- The part of a list between two places. -/
def slice {α : Type} (xs : List α) (start stop : Int) : List α :=
  (xs.take (placeIn xs.length stop)).drop (placeIn xs.length start)

/-- The matched texts of a window. -/
def Window.matchedTexts (w : Window) : List (List Char) :=
  match w.unit with
  | .characters => w.spans.map fun (start, stop) => slice w.text start stop
  | .bytes =>
    let bytes := Text.encode w.text
    w.spans.map fun (start, stop) => Text.decodeLossy (slice bytes start stop)

/-- A stretch of whole lines with the spans of matches, all counted from the start of the
text. -/
structure Stretch where
  start : Nat
  stop : Nat
  spans : List (Nat × Nat)
deriving DecidableEq, Repr

/-- Where the line of a place begins. -/
def lineStart (text : List Char) (position : Nat) : Nat :=
  position - ((text.take position).reverse.takeWhile (· != '\n')).length

/-- Where the line of a place ends, its newline included. -/
def lineStop (text : List Char) (position : Nat) : Nat :=
  let rest := text.drop position
  let body := rest.takeWhile (· != '\n')
  if body.length < rest.length then position + body.length + 1 else position + body.length

namespace Stretch

/-- The lines that a match which is not empty touches. -/
def ofMatch (text : List Char) (m : Pattern.Match) : Stretch :=
  ⟨lineStart text m.start, lineStop text (max (m.stop - 1) m.start), [(m.start, m.stop)]⟩

/-- Add a stretch after others; one that begins before the last of them ends is merged with it.
The stretches are given from the last to the first. -/
def add (stretches : List Stretch) (s : Stretch) : List Stretch :=
  match stretches with
  | [] => [s]
  | last :: earlier =>
    if s.start < last.stop then
      ⟨last.start, max last.stop s.stop, last.spans ++ s.spans⟩ :: earlier
    else s :: last :: earlier

/-- The window of a stretch. -/
def window (path : Path) (text : List Char) (s : Stretch) : Window :=
  { path
    line := ((text.take s.start).count '\n' : Int) + 1
    text := (text.take s.stop).drop s.start
    spans := s.spans.map fun (start, stop) => ((start : Int) - s.start, (stop : Int) - s.start)
    unit := .characters }

end Stretch

/-- The stretches of lines that the matches of a pattern touch, empty matches left out. -/
def matchedStretches (pattern : Pattern) (text : List Char) : List Stretch :=
  (((pattern.findAll text).filter fun m => m.start < m.stop).map (Stretch.ofMatch text)).foldl
    Stretch.add [] |>.reverse

/-- The windows of a text. -/
def searchWindows (pattern : Pattern) (path : Path) (text : List Char) : List Window :=
  (matchedStretches pattern text).map (Stretch.window path text)

end ImportAtlas
