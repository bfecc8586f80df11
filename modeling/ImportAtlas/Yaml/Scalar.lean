import ImportAtlas.Yaml.Source

/-!
# Scalars in YAML text

The four ways to write a text: plain, in single or double quotes, and as a block of lines. Plain
and quoted texts may go over several lines, which are folded: one line break becomes a space, and
of several all but the first stay.
-/

namespace ImportAtlas.Yaml

/-- A line break and the further ones after it, folded. -/
def folded (first : Char) (others : List Char) : List Char :=
  (if first != '\n' then [first] else if others.isEmpty then [' '] else []) ++ others

namespace Plain

/-- Whether a character parts items in a flow collection. -/
def isFlowMark (c : Char) : Bool :=
  c == ',' || c == '?' || c == '[' || c == ']' || c == '\x7b' || c == '\x7d'

/-- Whether a character after a colon makes the colon a mark, in a flow collection or not. -/
def endsKey (flow : Bool) (c : Char) : Bool :=
  isGap c || (flow && isFlowMark c && c != '?')

/-- The characters of a plain text up to a gap or a mark. -/
def word (flow : Bool) : List Char → List Char
  | [] => []
  | c :: rest =>
    if isGap c then []
    else if c = ':' && endOr (endsKey flow) rest.head? then []
    else if flow && isFlowMark c then []
    else c :: word flow rest

/-- The line breaks that come next, spaces between them passed over, and the place after them;
none before the mark of a document. -/
def breaks : Nat → Source → Option (List Char × Source)
  | 0, s => some ([], s)
  | fuel + 1, s =>
    let s := s.skipRun (· == ' ')
    match s.lineBreak? with
    | none => some ([], s)
    | some (b, s) =>
      if s.atDocumentMark then none else (breaks fuel s).map fun (bs, s) => (b :: bs, s)

/-- What parts two words of a plain text. -/
structure Space where
  /-- The characters it stands for, none if the text ends here. -/
  text : List Char
  /-- Whether it holds a line break. -/
  breaksLine : Bool
  after : Source

/-- The space that comes next. -/
def space (s : Source) : Space :=
  let blanks := s.run (· == ' ')
  let s := s.skip blanks.length
  match s.lineBreak? with
  | none => ⟨blanks, false, s⟩
  | some (b, s) =>
    if s.atDocumentMark then ⟨[], true, s⟩
    else
      match breaks (s.rest.length + 1) s with
      | none => ⟨[], true, s⟩
      | some (bs, s) => ⟨folded b bs, true, s⟩

/-- A plain text from one of its words on, after a space. Outside flow collections a line that
is indented less ends it. The second part tells whether the end of the text comes after a line
break. -/
def read (flow : Bool) (indent : Int) : Nat → Space → List Char × Bool × Source
  | 0, before => ([], before.breaksLine, before.after)
  | fuel + 1, before =>
    let s := before.after
    let text := if s.peek = some '#' then [] else word flow s.rest
    if text.isEmpty then ([], before.breaksLine, s)
    else
      let after := space (s.skip text.length)
      let s := after.after
      if after.text.isEmpty || s.peek = some '#' || (!flow && (s.column : Int) < indent) then
        (before.text ++ text, after.breaksLine, s)
      else
        let (more, breaksLine, s) := read flow indent fuel after
        (before.text ++ text ++ more, breaksLine, s)

end Plain

namespace Quoted

/-- The value of a hexadecimal digit. -/
def hexValue (c : Char) : Option Nat :=
  if c.isDigit then some (c.toNat - '0'.toNat)
  else if 'a' ≤ c && c ≤ 'f' then some (c.toNat - 'a'.toNat + 10)
  else if 'A' ≤ c && c ≤ 'F' then some (c.toNat - 'A'.toNat + 10)
  else none

/-- The number that hexadecimal digits write. -/
def hexNumber (digits : List Char) : Option Nat :=
  digits.foldl (fun n c => do return (← n) * 16 + (← hexValue c)) (some 0)

/-- The character of an escape of one character. -/
def shortEscape (c : Char) : Option Char :=
  match c with
  | '0' => some '\x00'
  | 'a' => some '\x07'
  | 'b' => some '\x08'
  | 't' => some '\t'
  | '\t' => some '\t'
  | 'n' => some '\n'
  | 'v' => some '\x0b'
  | 'f' => some '\x0c'
  | 'r' => some '\r'
  | 'e' => some '\x1b'
  | ' ' => some ' '
  | '\x22' => some '\x22'
  | '\\' => some '\\'
  | '/' => some '/'
  | 'N' => some '\u0085'
  | '_' => some '\u00A0'
  | 'L' => some '\u2028'
  | 'P' => some '\u2029'
  | _ => none

/-- The number of digits of an escape by number. -/
def escapeDigits (c : Char) : Option Nat :=
  match c with
  | 'x' => some 2
  | 'u' => some 4
  | 'U' => some 8
  | _ => none

/-- The character of a number. -/
def numbered (n : Nat) : Except YamlError Char :=
  if 0x80000000 ≤ n then .error .hugeEscape
  else if 0x110000 ≤ n then .error .noCharacter
  else if 0xD800 ≤ n && n < 0xE000 then .ok '\uFFFD'
  else .ok (Char.ofNat n)

/-- The line breaks that come next, spaces and tabs between them passed over. The mark of a
document may not come before the end of a quoted text. -/
def breaks : Nat → Source → Except YamlError (List Char × Source)
  | 0, s => .ok ([], s)
  | fuel + 1, s =>
    if s.atDocumentMark then .error .malformed
    else
      let s := s.skipRun isSpace
      match s.lineBreak? with
      | none => .ok ([], s)
      | some (b, s) => (breaks fuel s).map fun (bs, s) => (b :: bs, s)

/-- A piece of a double quoted text that a backslash begins, from after it. -/
def escape (s : Source) : Except YamlError (List Char × Source) :=
  match s.peek with
  | none => .error .malformed
  | some c =>
    match shortEscape c, escapeDigits c with
    | some e, _ => .ok ([e], s.next)
    | none, some count =>
      let digits := s.next.rest.take count
      match hexNumber digits with
      | some n =>
        if digits.length = count then (numbered n).map fun e => ([e], s.next.skip count)
        else .error .malformed
      | none => .error .malformed
    | none, none =>
      match s.lineBreak? with
      | some (_, s) => breaks (s.rest.length + 1) s
      | none => .error .malformed

/-- The gap that comes next in a quoted text. -/
def gap (s : Source) : Except YamlError (List Char × Source) :=
  let blanks := s.run isSpace
  let s := s.skip blanks.length
  match s.lineBreak? with
  | none => if s.rest.isEmpty then .error .malformed else .ok (blanks, s)
  | some (b, s) => (breaks (s.rest.length + 1) s).map fun (bs, s) => (folded b bs, s)

/-- A quoted text from inside its quotes, and the place after the closing one. In single quotes
two of them stand for one. -/
def read (double : Bool) : Nat → Source → Except YamlError (List Char × Source)
  | 0, _ => .error .malformed
  | fuel + 1, s =>
    match s.rest with
    | [] => .error .malformed
    | c :: rest => do
      if !double && c = '\x27' && rest.head? = some '\x27' then
        let (text, s) ← read double fuel (s.skip 2)
        return ('\x27' :: text, s)
      else if c = (if double then '\x22' else '\x27') then return ([], s.next)
      else
        let (piece, s) ←
          if double && c = '\\' then escape s.next
          else if isGap c then gap s
          else .ok ([c], s.next)
        let (text, s) ← read double fuel s
        return (piece ++ text, s)

end Quoted

namespace Block

/-- What to do with the line breaks at the end of a block. -/
inductive Chomping where
  /-- Keep none. -/
  | strip
  /-- Keep the first. -/
  | clip
  /-- Keep all. -/
  | keep
deriving DecidableEq, Repr

/-- The chomping that a character asks for. -/
def chomping? (c : Option Char) : Option Chomping :=
  match c with
  | some '+' => some .keep
  | some '-' => some .strip
  | _ => none

/-- The indentation that a character asks for; none may ask for zero. -/
def increment? (c : Option Char) : Except YamlError (Option Nat) :=
  match c with
  | some c =>
    if c.isDigit then
      if c = '0' then .error .malformed else .ok (some (c.toNat - '0'.toNat))
    else .ok none
  | none => .ok none

/-- The first line of a block, from after its mark: the chomping and the indentation asked for,
in any order. -/
def header (s : Source) : Except YamlError (Chomping × Option Nat × Source) := do
  let (chomping, s) := match chomping? s.peek with
    | some c => (some c, s.next)
    | none => (none, s)
  let increment ← increment? s.peek
  let s := if increment.isSome then s.next else s
  let (chomping, s) := match chomping, increment, chomping? s.peek with
    | none, some _, some c => (some c, s.next)
    | chomping, _, _ => (chomping, s)
  if endOr (fun c => c == ' ' || isBreak c) s.peek then
    return (chomping.getD .clip, increment, ← s.skipIgnoredLine)
  else .error .malformed

/-- The empty lines at the start of a block without a given indentation: their breaks, and the
widest indentation among them and the first other line. -/
def leading : Nat → Nat → Source → List Char × Nat × Source
  | 0, widest, s => ([], widest, s)
  | fuel + 1, widest, s =>
    let s := s.skipRun (· == ' ')
    let widest := max widest s.column
    match s.lineBreak? with
    | none => ([], widest, s)
    | some (b, s) =>
      let (bs, widest, s) := leading fuel widest s
      (b :: bs, widest, s)

/-- Spaces up to a column. -/
def toColumn (indent : Nat) (s : Source) : Source :=
  s.skip (min (s.run (· == ' ')).length (indent - s.column))

/-- The line breaks that come next, at most the indentation before each passed over. -/
def breaks (indent : Nat) : Nat → Source → List Char × Source
  | 0, s => ([], s)
  | fuel + 1, s =>
    let s := toColumn indent s
    match s.lineBreak? with
    | none => ([], s)
    | some (b, s) =>
      let (bs, s) := breaks indent fuel s
      (b :: bs, s)

/-- The text of a block from a line on, given the breaks before it. Folding joins two lines of
text with a space unless one of them begins with a blank. -/
def body (fold : Bool) (chomping : Chomping) (indent : Nat) :
    Nat → List Char → Source → List Char × Source
  | 0, _, s => ([], s)
  | fuel + 1, before, s =>
    let startsText := !endOr isSpace s.peek
    let text := s.run fun c => !isBreak c
    let s := s.skip text.length
    let (ending, s) := match s.lineBreak? with
      | some (b, s) => ([b], s)
      | none => ([], s)
    let (after, s) := breaks indent (s.rest.length + 1) s
    if s.column = indent && !s.rest.isEmpty then
      let joint :=
        if fold && ending = ['\n'] && startsText && !endOr isSpace s.peek then
          if after.isEmpty then [' '] else []
        else ending
      let (more, s) := body fold chomping indent fuel after s
      (before ++ text ++ joint ++ more, s)
    else
      let tail := match chomping with
        | .strip => []
        | .clip => ending
        | .keep => ending ++ after
      (before ++ text ++ tail, s)

/-- A block, from its mark on, inside a collection with an indentation. -/
def read (fold : Bool) (outer : Int) (s : Source) : Except YamlError (List Char × Source) := do
  let (chomping, increment, s) ← header s.next
  let least := max (outer + 1).toNat 1
  let (before, indent, s) := match increment with
    | none =>
      let (before, widest, s) := leading (s.rest.length + 1) 0 s
      (before, max least widest, s)
    | some increment =>
      let indent := least + increment - 1
      let (before, s) := breaks indent (s.rest.length + 1) s
      (before, indent, s)
  if s.column = indent && !s.rest.isEmpty then
    return body fold chomping indent (s.rest.length + 1) before s
  else return (if chomping = .keep then before else [], s)

end Block

end ImportAtlas.Yaml
