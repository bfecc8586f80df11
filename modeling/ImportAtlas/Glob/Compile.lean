import ImportAtlas.Glob.Braces
import ImportAtlas.Pattern

/-!
# Compiling globs

A glob is cut at its slashes into segments, and each segment is read as a list of pieces. The
segments, with the meaning of double stars between them, make up one pattern over path names.
The slash through which a glob selects a whole directory is captured, so that a match can tell
whether it came by that way.
-/

namespace ImportAtlas

/-- Why a list of globs cannot be used. -/
inductive GlobError where
  /-- Nothing is left of a glob, or it ends in a backslash that escapes nothing. -/
  | invalidPattern
  /-- A bracket holds a range whose ends are in the wrong order. -/
  | reversedRange
deriving DecidableEq, Repr

/-- What the error is. -/
def GlobError.message : GlobError → String
  | .invalidPattern => "invalid glob pattern"
  | .reversedRange => "a range in a glob bracket is in the wrong order"

namespace Glob

/-- A piece of a segment. -/
inductive Piece where
  /-- A character that stands for itself. -/
  | char (c : Char)
  /-- Any characters. -/
  | star
  /-- One character. -/
  | any
  /-- One character of a bracket, or one that is not in it. -/
  | bracket (negated : Bool) (body : List Char)
deriving DecidableEq, Repr

/-- What reading a segment comes to. -/
inductive Reading (α : Type) where
  /-- The segment is read. -/
  | ok (value : α)
  /-- A bracket is not closed: the whole glob means nothing. -/
  | noOperation
  /-- The segment ends in a backslash. -/
  | invalid
deriving DecidableEq, Repr

namespace Reading

/-- Add a piece in front. -/
def cons {α : Type} (a : α) : Reading (List α) → Reading (List α)
  | .ok as => .ok (a :: as)
  | .noOperation => .noOperation
  | .invalid => .invalid

end Reading

/-- The body of a bracket, from after its opening, and the rest after its end. A closing bracket
right at the start of the members is one of them. -/
def takeBracket (s : List Char) : Option (Piece × List Char) :=
  let (negated, s) := match s with
    | c :: rest => if c = '!' ∨ c = '^' then (true, rest) else (false, s)
    | [] => (false, s)
  let (first, s) := match s with
    | ']' :: rest => ([']'], rest)
    | _ => ([], s)
  match s.dropWhile (· != ']') with
  | [] => none
  | _ :: rest => some (.bracket negated (first ++ s.takeWhile (· != ']')), rest)

/-- The pieces of a segment; the number bounds how many there can be. -/
def readSegment : Nat → List Char → Reading (List Piece)
  | 0, _ => .ok []
  | _ + 1, [] => .ok []
  | fuel + 1, c :: rest =>
    if c = '\\' then
      match rest with
      | [] => .invalid
      | e :: rest => .cons (.char e) (readSegment fuel rest)
    else if c = '*' then .cons .star (readSegment fuel rest)
    else if c = '?' then .cons .any (readSegment fuel rest)
    else if c = '[' then
      match takeBracket rest with
      | none => .noOperation
      | some (piece, rest) => .cons piece (readSegment fuel rest)
    else .cons (.char c) (readSegment fuel rest)

/-- The members of a bracket as ranges. -/
def bracketRanges : List Char → Except GlobError (List (Char × Char))
  | [] => .ok []
  | [a] => .ok [(a, a)]
  | [a, b] => .ok [(a, a), (b, b)]
  | a :: b :: c :: rest =>
    if b = '-' then
      if c < a then .error .reversedRange else (bracketRanges rest).map ((a, c) :: ·)
    else (bracketRanges (b :: c :: rest)).map ((a, a) :: ·)

/-- Whether a character is no slash. -/
def notSlash (c : Char) : Bool := c != '/'

/-- The pattern of a piece. -/
def Piece.pattern : Piece → Except GlobError Pattern
  | .char c => .ok (.one (· == c))
  | .star => .ok (.many notSlash)
  | .any => .ok (.one notSlash)
  | .bracket negated body =>
    (bracketRanges body).map fun ranges =>
      .one fun c => ranges.any (fun range => range.1 ≤ c && c ≤ range.2) != negated

/-- The pattern of a list of pieces. -/
def piecesPattern : List Piece → Except GlobError Pattern
  | [] => .ok .empty
  | piece :: pieces => do
    let first ← piece.pattern
    let second ← piecesPattern pieces
    return .seq first second

/-- A segment of a glob. -/
inductive Segment where
  /-- Two stars: any number of directories. -/
  | deep
  /-- Any other segment. -/
  | name (pieces : List Piece)
deriving DecidableEq, Repr

/-- Read a segment. -/
def Segment.read (s : List Char) : Reading Segment :=
  if s = ['*', '*'] then .ok .deep
  else
    match readSegment (s.length + 1) s with
    | .ok pieces => .ok (.name pieces)
    | .noOperation => .noOperation
    | .invalid => .invalid

/-- Read segments from left to right, up to the first that cannot be read. -/
def readSegments : List (List Char) → Reading (List Segment)
  | [] => .ok []
  | s :: rest =>
    match Segment.read s with
    | .ok segment => .cons segment (readSegments rest)
    | .noOperation => .noOperation
    | .invalid => .invalid

/-- Any directories before what follows. -/
def leadingDeep : Pattern :=
  .seq .textStart (.optional (.seq (.some (· != '\n')) (.one (· == '/'))))

/-- Any directories in between. -/
def innerDeep : Pattern := .optional (.seq (.one (· == '/')) (.some (· != '\n')))

/-- The slash after a directory, remembered. -/
def directoryMark : Pattern := .capture (.one (· == '/'))

/-- The end of a name: the slash of a directory, or the end of the text. -/
def nameEnd : Pattern := .alt directoryMark .textEnd

/-- The last slash, remembered only for a directory glob. -/
def finalSlash (directory : Bool) : Pattern :=
  if directory then directoryMark else .one (· == '/')

/-- The pattern of the segments from one on; `first` tells whether it is the first of all, and
`slash` whether a slash parts it from what stands before it. -/
def segmentsPattern (directory : Bool) :
    (first slash : Bool) → List Segment → Except GlobError Pattern
  | _, _, [] => .ok .empty
  | true, slash, [.deep] => (segmentsPattern directory false slash []).map (.seq leadingDeep)
  | false, _, [.deep] => .ok (finalSlash directory)
  | true, slash, .deep :: rest => (segmentsPattern directory false slash rest).map (.seq leadingDeep)
  | false, _, .deep :: rest => (segmentsPattern directory false true rest).map (.seq innerDeep)
  | first, slash, .name pieces :: rest => do
    let own ← if pieces = [.star] then .ok (Pattern.some notSlash) else piecesPattern pieces
    let others ← segmentsPattern directory false true rest
    return Pattern.all [if first then .textStart else .empty,
      if slash then .one (· == '/') else .empty, own,
      if rest.isEmpty then nameEnd else .empty, others]

/-- Double stars next to each other count as one. -/
def collapseDeep : List (List Char) → List (List Char)
  | a :: b :: rest =>
    if a = ['*', '*'] ∧ b = ['*', '*'] then collapseDeep (b :: rest) else a :: collapseDeep (b :: rest)
  | segments => segments

/-- The segments of a glob text in their normal form: a glob of one name may stand in any
directory, and one that ends in a slash takes everything below. -/
def normalSegments (segments : List (List Char)) : List (List Char) :=
  let anchored := match segments with
    | [] :: rest => rest
    | [name] => if name = ['*', '*'] then segments else ['*', '*'] :: segments
    | [name, []] => if name = ['*', '*'] then segments else ['*', '*'] :: segments
    | _ => segments
  let closed :=
    if anchored.getLast? = some [] then anchored.dropLast ++ [['*', '*']] else anchored
  collapseDeep closed

/-- The pattern of the segments of a glob. -/
def wholePattern (directory : Bool) (segments : List Segment) : Except GlobError Pattern :=
  match segments with
  | [.deep] => .ok (if directory then directoryMark else .one (· != '\n'))
  | [.deep, .name [.star]] => .ok (.one (· != '\n'))
  | [.deep, .name [.star], .deep] => .ok (finalSlash directory)
  | _ => segmentsPattern directory true false segments

/-- A glob ready for matching. -/
structure Compiled where
  /-- Whether what it matches is taken out again. -/
  negated : Bool
  pattern : Pattern

/-- A glob text without the blanks at its end, unless the last is escaped. -/
def trimEnd (s : List Char) : List Char :=
  if ['\\', ' '].isSuffixOf s then s else Text.stripRight s

/-- Compile a glob; blank ones, comments, a lone slash and open brackets come to nothing. -/
def compile (text : List Char) : Except GlobError (Option Compiled) :=
  let text := trimEnd text
  if text = [] ∨ text.head? = some '#' ∨ text = ['/'] then .ok none
  else
    let negated := text.head? == some '!'
    let pieces := Text.splitAt '/' (if negated then text.drop 1 else text)
    let segments := normalSegments pieces
    if segments = [] then .error .invalidPattern
    else
      match readSegments segments with
      | .invalid => .error .invalidPattern
      | .noOperation => .ok none
      | .ok segments =>
        (wholePattern (pieces.getLast? == some []) segments).map fun p => some ⟨negated, p⟩

end Glob

end ImportAtlas
