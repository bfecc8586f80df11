import ImportAtlas.Text.Utf8
import ImportAtlas.Yaml.Scalar

/-!
# The tokens of YAML text

Besides the marks and scalars that are written, the tokens tell where block collections begin
and end, which only indentation shows, and which scalars are keys of a mapping, which only the
colon after them shows. A key without a mark of its own must lie on one line, with its colon at
most 1024 characters on.
-/

namespace ImportAtlas.Yaml

/-- What a directive says. -/
inductive Directive where
  /-- The version of the language. -/
  | version (major minor : Nat)
  /-- What a handle of tags stands for. -/
  | handle (name replacement : String)
  /-- Anything else. -/
  | other
deriving DecidableEq, Repr

/-- A token. -/
inductive Token where
  | directive (d : Directive)
  | documentStart
  | documentEnd
  | blockSequenceStart
  | blockMappingStart
  | blockEnd
  | flowSequenceStart
  | flowSequenceEnd
  | flowMappingStart
  | flowMappingEnd
  | blockEntry
  | flowEntry
  | key
  | value
  | reference (name : String)
  | anchor (name : String)
  /-- A tag with a handle, or none for a tag written in full. -/
  | tag (handle : Option String) (suffix : String)
  | scalar (text : List Char) (plain : Bool)
deriving DecidableEq, Repr

/-- A token that may turn out to be a key. -/
structure KeyCandidate where
  /-- The number of tokens before it. -/
  position : Nat
  /-- Whether nothing but a key may stand there. -/
  required : Bool
  index : Nat
  line : Nat
  column : Nat
deriving Repr

/-- The tokens read so far and what the next ones depend on. -/
structure Lexer where
  source : Source
  tokens : List Token := []
  /-- The number of flow collections around. -/
  flow : Nat := 0
  /-- The indentation of the block collection around, and those of the ones around that. -/
  indent : Int := -1
  indents : List Int := []
  /-- Whether a key may begin here. -/
  keyAllowed : Bool := true
  /-- The candidates for keys by the number of flow collections around them. -/
  candidates : List (Nat × KeyCandidate) := []

namespace Lexer

/-- Add a token. -/
def push (l : Lexer) (t : Token) : Lexer := { l with tokens := l.tokens ++ [t] }

/-- Add a token for a number of characters. -/
def take (l : Lexer) (t : Token) (count : Nat) : Lexer :=
  { l.push t with source := l.source.skip count }

/-- The place of the next character as a column. -/
def column (l : Lexer) : Int := l.source.column

/-- Close the block collections that are indented more than a column. -/
def unwindFrom (column : Int) : List Int → Lexer → Lexer
  | [], l => l
  | outer :: rest, l =>
    if column < l.indent then unwindFrom column rest { l.push .blockEnd with indent := outer, indents := rest }
    else l

/-- Close the block collections that are indented more than a column. In flow collections
indentation means nothing. -/
def unwind (l : Lexer) (column : Int) : Lexer :=
  if l.flow = 0 then unwindFrom column l.indents l else l

/-- Whether a block collection begins at a column. -/
def opensAt (l : Lexer) (column : Int) : Bool := l.indent < column

/-- Enter a block collection at a column. -/
def enter (l : Lexer) (column : Int) : Lexer :=
  { l with indent := column, indents := l.indent :: l.indents }

/-- The candidate at the present depth. -/
def candidate? (l : Lexer) : Option KeyCandidate := l.candidates.lookup l.flow

/-- Drop the candidate at the present depth; one that must be a key may not be dropped. -/
def dropCandidate (l : Lexer) : Except YamlError Lexer :=
  match l.candidate? with
  | none => .ok l
  | some c =>
    if c.required then .error .malformed
    else .ok { l with candidates := l.candidates.filter fun entry => entry.1 != l.flow }

/-- Drop the candidates that are too far behind. -/
def dropStale (l : Lexer) : Except YamlError Lexer :=
  let isStale (c : KeyCandidate) : Bool :=
    c.line != l.source.line || 1024 < l.source.index - c.index
  if l.candidates.any fun entry => isStale entry.2 && entry.2.required then .error .malformed
  else .ok { l with candidates := l.candidates.filter fun entry => !isStale entry.2 }

/-- Note that the next token may be a key. -/
def noteCandidate (l : Lexer) : Except YamlError Lexer := do
  if l.keyAllowed then
    let l ← l.dropCandidate
    let c : KeyCandidate := ⟨l.tokens.length, l.flow = 0 && l.indent == l.column, l.source.index,
      l.source.line, l.source.column⟩
    return { l with candidates := (l.flow, c) :: l.candidates }
  else return l

/-- Pass over spaces, comments and line breaks. After a line break a key may begin. -/
def skipToToken : Nat → Lexer → Lexer
  | 0, l => l
  | fuel + 1, l =>
    let s := l.source.skipRun (· == ' ')
    let s := if s.peek = some '#' then s.skipRun fun c => !isBreak c else s
    match s.lineBreak? with
    | none => { l with source := s }
    | some (_, s) =>
      skipToToken fuel { l with source := s, keyAllowed := l.keyAllowed || l.flow = 0 }

/-- A name of letters, digits and a few marks, and the place after it. -/
def readName (s : Source) : Except YamlError (String × Source) :=
  let name := s.run isNameChar
  if name.isEmpty then .error .malformed else .ok (String.ofList name, s.skip name.length)

/-- Whether a character can stand in a tag. -/
def isTagChar (c : Char) : Bool :=
  c.isAlphanum || "-;/?:@&=+$,_.!~*'()[]".toList.contains c

/-- The bytes of escapes with percent signs that come next. -/
def readPercents : Nat → Source → Except YamlError (List UInt8 × Source)
  | 0, s => .ok ([], s)
  | fuel + 1, s =>
    match s.rest with
    | '%' :: a :: b :: _ =>
      match Quoted.hexValue a, Quoted.hexValue b with
      | some a, some b =>
        (readPercents fuel (s.skip 3)).map fun (bytes, s) => (UInt8.ofNat (a * 16 + b) :: bytes, s)
      | _, _ => .error .malformed
    | '%' :: _ => .error .malformed
    | _ => .ok ([], s)

/-- The text of a tag, escapes replaced, and the place after it. -/
def readTagText : Nat → Source → Except YamlError (List Char × Source)
  | 0, s => .ok ([], s)
  | fuel + 1, s =>
    match s.peek with
    | some c =>
      if c = '%' then do
        let (bytes, s) ← readPercents (s.rest.length + 1) s
        match Text.decode? bytes with
        | none => .error .malformed
        | some text =>
          let (more, s) ← readTagText fuel s
          return (text ++ more, s)
      else if isTagChar c then
        (readTagText fuel s.next).map fun (more, s) => (c :: more, s)
      else .ok ([], s)
    | none => .ok ([], s)

/-- The text of a tag, which may not be empty. -/
def readTag (s : Source) : Except YamlError (String × Source) := do
  let (text, after) ← readTagText (s.rest.length + 1) s
  if after.index = s.index then .error .malformed else return (String.ofList text, after)

/-- A handle of tags: an exclamation mark, or a name between two, and the place after it. -/
def readHandle (s : Source) : Except YamlError (String × Source) :=
  if s.peek = some '!' then
    if s.peek 1 = some ' ' then .ok ("!", s.next)
    else
      let name := s.next.run isNameChar
      if s.peek (name.length + 1) = some '!' then
        .ok ("!" ++ String.ofList name ++ "!", s.skip (name.length + 2))
      else .error .malformed
  else .error .malformed

/-- Whether a character is a space, which is no tab, or ends a line. -/
def isSpaceOrBreak (c : Char) : Bool := c == ' ' || isBreak c

/-- A number of a version and the place after it. -/
def readNumber (s : Source) : Except YamlError (Nat × Source) :=
  let digits := s.run Char.isDigit
  if digits.isEmpty then .error .malformed
  else .ok (digits.foldl (fun n c => n * 10 + (c.toNat - '0'.toNat)) 0, s.skip digits.length)

/-- A directive, from after its mark. -/
def readDirective (s : Source) : Except YamlError (Directive × Source) := do
  let (name, s) ← readName s
  if endOr isSpaceOrBreak s.peek then
    let (d, s) ←
      if name = "YAML" then do
        let (major, s) ← readNumber (s.skipRun (· == ' '))
        if s.peek = some '.' then
          let (minor, s) ← readNumber s.next
          if endOr isSpaceOrBreak s.peek then pure (.version major minor, s) else .error .malformed
        else .error .malformed
      else if name = "TAG" then do
        let (handle, s) ← readHandle (s.skipRun (· == ' '))
        if s.peek = some ' ' then
          let (replacement, s) ← readTag (s.skipRun (· == ' '))
          if endOr isSpaceOrBreak s.peek then pure (.handle handle replacement, s)
          else .error .malformed
        else .error .malformed
      else pure (.other, s.skipRun fun c => !isBreak c)
    return (d, ← s.skipIgnoredLine)
  else .error .malformed

/-- A tag and the place after it. -/
def readTagToken (s : Source) : Except YamlError (Token × Source) := do
  let (t, s) ←
    if s.peek 1 = some '<' then do
      let (text, s) ← readTag (s.skip 2)
      if s.peek = some '>' then pure (Token.tag none text, s.next) else .error .malformed
    else if endOr isGap (s.peek 1) then pure (Token.tag none "!", s.next)
    else if (s.next.run fun c => !isSpaceOrBreak c).contains '!' then do
      let (handle, s) ← readHandle s
      let (text, s) ← readTag s
      pure (Token.tag (some handle) text, s)
    else do
      let (text, s) ← readTag s.next
      pure (Token.tag (some "!") text, s)
  if endOr isSpaceOrBreak s.peek then return (t, s) else .error .malformed

/-- The name of an anchor or an alias, from its mark on, and the place after it. -/
def readAnchorName (s : Source) : Except YamlError (String × Source) := do
  let (name, s) ← readName s.next
  if endOr (fun c => isGap c || "?:,]\x7d%@\x60".toList.contains c) s.peek then return (name, s)
  else .error .malformed

/-- Begin a flow collection. -/
def openFlow (l : Lexer) (t : Token) : Except YamlError Lexer := do
  let l ← l.noteCandidate
  return { l.take t 1 with flow := l.flow + 1, keyAllowed := true }

/-- End a flow collection. -/
def closeFlow (l : Lexer) (t : Token) : Except YamlError Lexer := do
  if l.flow = 0 then .error .malformed
  else
    let l ← l.dropCandidate
    return { l.take t 1 with flow := l.flow - 1, keyAllowed := false }

/-- Begin a block collection at a column, if it is indented more than the one around. -/
def openBlock (l : Lexer) (t : Token) : Lexer :=
  if l.flow = 0 && l.opensAt l.column then (l.push t).enter l.column else l

/-- An item of a block sequence. -/
def blockEntry (l : Lexer) : Except YamlError Lexer := do
  if l.flow = 0 && !l.keyAllowed then .error .malformed
  else
    let l ← (l.openBlock .blockSequenceStart).dropCandidate
    return { l.take .blockEntry 1 with keyAllowed := true }

/-- A key with a mark of its own. -/
def explicitKey (l : Lexer) : Except YamlError Lexer := do
  if l.flow = 0 && !l.keyAllowed then .error .malformed
  else
    let l ← (l.openBlock .blockMappingStart).dropCandidate
    return { l.take .key 1 with keyAllowed := l.flow = 0 }

/-- A colon: the candidate becomes a key, and may begin a block mapping; without a candidate
there must have been a key with a mark. -/
def valueMark (l : Lexer) : Except YamlError Lexer := do
  match l.candidate? with
  | some c =>
    let opens := l.flow = 0 && l.opensAt c.column
    let marks := if opens then [Token.blockMappingStart, .key] else [.key]
    let l := { l with
      candidates := l.candidates.filter fun entry => entry.1 != l.flow
      tokens := l.tokens.take c.position ++ marks ++ l.tokens.drop c.position }
    let l := if opens then l.enter c.column else l
    return { l.take .value 1 with keyAllowed := false }
  | none =>
    if l.flow = 0 && !l.keyAllowed then .error .malformed
    else
      let l := l.openBlock .blockMappingStart
      return { l.take .value 1 with keyAllowed := l.flow = 0 }

/-- A token that may be a key. -/
def keyToken (l : Lexer) (read : Source → Except YamlError (Token × Source)) :
    Except YamlError Lexer := do
  let l ← l.noteCandidate
  let (t, s) ← read l.source
  return { l.push t with source := s, keyAllowed := false }

/-- A plain scalar. -/
def plain (l : Lexer) : Except YamlError Lexer := do
  let l ← l.noteCandidate
  let (text, breaksLine, s) :=
    Plain.read (l.flow != 0) (l.indent + 1) (l.source.rest.length + 1) ⟨[], false, l.source⟩
  return { l.push (.scalar text true) with source := s, keyAllowed := breaksLine }

/-- A block of lines. -/
def block (l : Lexer) (fold : Bool) : Except YamlError Lexer := do
  let l ← l.dropCandidate
  let (text, s) ← Block.read fold l.indent l.source
  return { l.push (.scalar text false) with source := s, keyAllowed := true }

/-- A mark of a document or a directive, before which all blocks end. -/
def documentToken (l : Lexer) (read : Source → Except YamlError (Token × Source)) :
    Except YamlError Lexer := do
  let l ← (l.unwind (-1)).dropCandidate
  let (t, s) ← read l.source
  return { l.push t with source := s, keyAllowed := false }

/-- Whether a plain scalar can begin with what comes next. -/
def startsPlain (l : Lexer) (c : Char) : Bool :=
  (!isGap c && !"-?:,[]\x7b\x7d#&*!|>'\x22%@\x60".toList.contains c) ||
    (!endOr isGap (l.source.peek 1) && (c == '-' || (l.flow = 0 && (c == '?' || c == ':'))))

/-- Read the token that begins with a character. -/
def token (l : Lexer) (c : Char) : Except YamlError Lexer :=
  let s := l.source
  let beforeGap := endOr isGap (s.peek 1)
  if c = '%' && s.column = 0 then
    l.documentToken fun s => (readDirective s.next).map fun (d, s) => (.directive d, s)
  else if s.column = 0 && s.atMark ['-', '-', '-'] then
    l.documentToken fun s => .ok (.documentStart, s.skip 3)
  else if s.column = 0 && s.atMark ['.', '.', '.'] then
    l.documentToken fun s => .ok (.documentEnd, s.skip 3)
  else if c = '[' then l.openFlow .flowSequenceStart
  else if c = '\x7b' then l.openFlow .flowMappingStart
  else if c = ']' then l.closeFlow .flowSequenceEnd
  else if c = '\x7d' then l.closeFlow .flowMappingEnd
  else if c = ',' then do
    let l ← l.dropCandidate
    return { l.take .flowEntry 1 with keyAllowed := true }
  else if c = '-' && beforeGap then l.blockEntry
  else if c = '?' && (l.flow != 0 || beforeGap) then l.explicitKey
  else if c = ':' && (l.flow != 0 || beforeGap) then l.valueMark
  else if c = '*' then
    l.keyToken fun s => (readAnchorName s).map fun (name, s) => (.reference name, s)
  else if c = '&' then
    l.keyToken fun s => (readAnchorName s).map fun (name, s) => (.anchor name, s)
  else if c = '!' then l.keyToken readTagToken
  else if c = '|' && l.flow = 0 then l.block false
  else if c = '>' && l.flow = 0 then l.block true
  else if c = '\x27' || c = '\x22' then
    l.keyToken fun s =>
      (Quoted.read (c = '\x22') (s.rest.length + 1) s.next).map fun (text, s) =>
        (.scalar text false, s)
  else if l.startsPlain c then l.plain
  else .error .malformed

/-- Read all tokens. Each takes a character at least, so that the length bounds their number. -/
def readAll : Nat → Lexer → Except YamlError (List Token)
  | 0, _ => .error .malformed
  | fuel + 1, l => do
    let l ← (skipToToken (l.source.rest.length + 1) l).dropStale
    let l := l.unwind l.column
    match l.source.peek with
    | none => return (← (l.unwind (-1)).dropCandidate).tokens
    | some c => readAll fuel (← l.token c)

end Lexer

/-- The tokens of a text. A byte order mark at its start is passed over. -/
def Token.ofText (text : List Char) : Except YamlError (List Token) :=
  if text.all isPrintable then
    let s : Source := ⟨text, 0, 0, 0⟩
    let s := if s.peek = some '\uFEFF' then s.next else s
    Lexer.readAll (text.length + 2) { source := s }
  else .error .malformed

end ImportAtlas.Yaml
