import ImportAtlas.Yaml.Tag
import ImportAtlas.Yaml.Token

/-!
# Nodes

The tokens of a text make up one document, whose nodes are scalars, sequences and mappings, each
with its tag. An alias stands for the node with its anchor; one inside that very node, which is
not complete then, stands for it again.
-/

namespace ImportAtlas.Yaml

/-- A node of a document. -/
inductive Node where
  | scalar (tag : Tag) (text : List Char)
  | sequence (tag : Tag) (items : List Node)
  | mapping (tag : Tag) (entries : List (Node × Node))
  /-- A sequence or a mapping around this place. -/
  | again (isMapping : Bool) (tag : Tag)

namespace Node

/-- The tag of a node. -/
def tag : Node → Tag
  | .scalar tag _ => tag
  | .sequence tag _ => tag
  | .mapping tag _ => tag
  | .again _ tag => tag

/-- A scalar without any text. -/
def empty : Node := .scalar .null []

end Node

/-- A part of the reading of a document: the tokens to come, the nodes with anchors so far, and
what the handles of tags stand for. -/
structure Reader where
  tokens : List Token
  anchors : List (String × Node) := []
  handles : List (String × String)

namespace Reader

/-- The reader after the next token. -/
def next (r : Reader) : Reader := { r with tokens := r.tokens.tail }

/-- Whether the next token is one of several; there is none after the last. -/
def sees (r : Reader) (ts : List Token) : Bool := (r.tokens.head?.map ts.contains).getD false

/-- Pass over a token that must come next. -/
def expect (r : Reader) (t : Token) : Except YamlError Reader :=
  if r.sees [t] then .ok r.next else .error .malformed

/-- The handles that need no directive. -/
def standardHandles : List (String × String) := [("!", "!"), ("!!", Tag.namespaceText)]

/-- What is written before a node: an anchor and the full name of a tag, each at most once and in
any order. -/
structure Properties where
  anchor : Option String := none
  tag : Option String := none

namespace Properties

/-- Whether there is neither. -/
def isEmpty (p : Properties) : Bool := p.anchor.isNone && p.tag.isNone

/-- Whether the tag is left to the form of the node. -/
def isOpen (p : Properties) : Bool := p.tag.isNone || p.tag == some "!"

/-- The tag of a collection. -/
def collectionTag (p : Properties) (standard : Tag) : Tag :=
  if p.isOpen then standard else (p.tag.map Tag.ofName).getD standard

/-- The tag of a scalar. One in quotes is text, unless its tag is expressly left open. -/
def scalarTag (p : Properties) (text : List Char) (plain : Bool) : Tag :=
  match p.tag with
  | none => if plain then Tag.ofForm text else .text
  | some "!" => Tag.ofForm text
  | some name => Tag.ofName name

end Properties

/-- The full name of a tag. -/
def fullTag (r : Reader) (handle : Option String) (suffix : String) : Except YamlError String :=
  match handle with
  | none => .ok suffix
  | some handle =>
    match r.handles.lookup handle with
    | some replacement => .ok (replacement ++ suffix)
    | none => .error .malformed

/-- Read the properties of a node. -/
def properties (r : Reader) : Except YamlError (Properties × Reader) := do
  match r.tokens with
  | .anchor name :: .tag handle suffix :: rest =>
    return (⟨some name, some (← r.fullTag handle suffix)⟩, { r with tokens := rest })
  | .tag handle suffix :: .anchor name :: rest =>
    return (⟨some name, some (← r.fullTag handle suffix)⟩, { r with tokens := rest })
  | .anchor name :: rest => return (⟨some name, none⟩, { r with tokens := rest })
  | .tag handle suffix :: rest =>
    return (⟨none, some (← r.fullTag handle suffix)⟩, { r with tokens := rest })
  | _ => return ({}, r)

/-- Note an anchor, which may not be used twice. -/
def declare (r : Reader) (p : Properties) (n : Node) : Except YamlError Reader :=
  match p.anchor with
  | none => .ok r
  | some name =>
    if (r.anchors.lookup name).isSome then .error .malformed
    else .ok { r with anchors := (name, n) :: r.anchors }

/-- Complete the node of an anchor. -/
def complete (r : Reader) (p : Properties) (n : Node) : Reader :=
  match p.anchor with
  | none => r
  | some name => { r with anchors := r.anchors.map fun a => if a.1 = name then (name, n) else a }

/-- Where a node stands, which decides what it may be. -/
inductive Place where
  /-- In a flow collection. -/
  | flow
  /-- In a block sequence or a document. -/
  | block
  /-- In a block mapping, where a sequence needs no indentation. -/
  | mappingEntry
deriving DecidableEq, Repr

/-- Read a collection: its anchor stands for the collection again until all of it is read. -/
def collection {α : Type} (r : Reader) (p : Properties) (again : Node) (make : α → Node)
    (read : Reader → Except YamlError (α × Reader)) : Except YamlError (Node × Reader) := do
  let (content, r) ← read (← r.declare p again)
  return (make content, r.complete p (make content))

/-- Read a sequence. -/
def sequence (r : Reader) (p : Properties)
    (read : Reader → Except YamlError (List Node × Reader)) : Except YamlError (Node × Reader) :=
  let tag := p.collectionTag .sequence
  r.collection p (.again false tag) (.sequence tag) read

/-- Read a mapping. -/
def mapping (r : Reader) (p : Properties)
    (read : Reader → Except YamlError (List (Node × Node) × Reader)) :
    Except YamlError (Node × Reader) :=
  let tag := p.collectionTag .mapping
  r.collection p (.again true tag) (.mapping tag) read

mutual

/-- Read a node. -/
def node (place : Place) : Nat → Reader → Except YamlError (Node × Reader)
  | 0, _ => .error .malformed
  | fuel + 1, r => do
    if let .reference name :: _ := r.tokens then
      match r.anchors.lookup name with
      | some n => return (n, r.next)
      | none => .error .malformed
    else
      let (p, r) ← r.properties
      if place = .mappingEntry && r.sees [.blockEntry] then
        r.sequence p fun r => unindentedItems fuel r
      else
        match r.tokens.head?, place == .flow with
        | some (.scalar text plain), _ =>
          let n := Node.scalar (p.scalarTag text plain) text
          return (n, ← r.next.declare p n)
        | some .flowSequenceStart, _ => r.next.sequence p fun r => flowItems true fuel r
        | some .flowMappingStart, _ => r.next.mapping p fun r => flowEntries true fuel r
        | some .blockSequenceStart, false => r.next.sequence p fun r => blockItems fuel r
        | some .blockMappingStart, false => r.next.mapping p fun r => blockEntries fuel r
        | _, _ =>
          if p.isEmpty then .error .malformed
          else
            let n := Node.scalar (p.scalarTag [] true) []
            return (n, ← r.declare p n)

/-- Read a node, unless one of several tokens comes next, before which it may be left out. -/
def nodeUnless (place : Place) (ends : List Token) :
    Nat → Reader → Except YamlError (Node × Reader)
  | 0, _ => .error .malformed
  | fuel + 1, r => if r.sees ends then .ok (.empty, r) else node place fuel r

/-- Read the items of a block sequence and its end. -/
def blockItems : Nat → Reader → Except YamlError (List Node × Reader)
  | 0, _ => .error .malformed
  | fuel + 1, r => do
    if r.sees [.blockEntry] then
      let (item, r) ← nodeUnless .block [.blockEntry, .blockEnd] fuel r.next
      let (items, r) ← blockItems fuel r
      return (item :: items, r)
    else return ([], ← r.expect .blockEnd)

/-- Read the items of a sequence that is not indented. -/
def unindentedItems : Nat → Reader → Except YamlError (List Node × Reader)
  | 0, _ => .error .malformed
  | fuel + 1, r => do
    if r.sees [.blockEntry] then
      let (item, r) ← nodeUnless .block [.blockEntry, .key, .value, .blockEnd] fuel r.next
      let (items, r) ← unindentedItems fuel r
      return (item :: items, r)
    else return ([], r)

/-- Read the entries of a block mapping and its end. -/
def blockEntries : Nat → Reader → Except YamlError (List (Node × Node) × Reader)
  | 0, _ => .error .malformed
  | fuel + 1, r => do
    if r.sees [.key] then
      let (key, r) ← nodeUnless .mappingEntry [.key, .value, .blockEnd] fuel r.next
      let (value, r) ←
        if r.sees [.value] then nodeUnless .mappingEntry [.key, .value, .blockEnd] fuel r.next
        else pure (.empty, r)
      let (entries, r) ← blockEntries fuel r
      return ((key, value) :: entries, r)
    else return ([], ← r.expect .blockEnd)

/-- Read the items of a flow sequence and its end; a comma comes before each but the first. A
key among the items makes a mapping of one entry. -/
def flowItems (first : Bool) : Nat → Reader → Except YamlError (List Node × Reader)
  | 0, _ => .error .malformed
  | fuel + 1, r => do
    if r.sees [.flowSequenceEnd] then return ([], r.next)
    else
      let r ← if first then pure r else r.expect .flowEntry
      if r.sees [.flowSequenceEnd] then return ([], r.next)
      else
        let (item, r) ←
          if r.sees [.key] then do
            let (key, r) ← nodeUnless .flow [.value, .flowEntry, .flowSequenceEnd] fuel r.next
            let (value, r) ←
              if r.sees [.value] then nodeUnless .flow [.flowEntry, .flowSequenceEnd] fuel r.next
              else pure (.empty, r)
            pure (Node.mapping .mapping [(key, value)], r)
          else node .flow fuel r
        let (items, r) ← flowItems false fuel r
        return (item :: items, r)

/-- Read the entries of a flow mapping and its end; a comma comes before each but the first. -/
def flowEntries (first : Bool) : Nat → Reader → Except YamlError (List (Node × Node) × Reader)
  | 0, _ => .error .malformed
  | fuel + 1, r => do
    if r.sees [.flowMappingEnd] then return ([], r.next)
    else
      let r ← if first then pure r else r.expect .flowEntry
      if r.sees [.flowMappingEnd] then return ([], r.next)
      else
        let (entry, r) ←
          if r.sees [.key] then do
            let (key, r) ← nodeUnless .flow [.value, .flowEntry, .flowMappingEnd] fuel r.next
            let (value, r) ←
              if r.sees [.value] then nodeUnless .flow [.flowEntry, .flowMappingEnd] fuel r.next
              else pure (.empty, r)
            pure ((key, value), r)
          else do
            let (key, r) ← node .flow fuel r
            pure ((key, Node.empty), r)
        let (entries, r) ← flowEntries false fuel r
        return (entry :: entries, r)

end

/-- Read the directives before a document: at most one version, whose major number must be one,
and each handle at most once. -/
def directives : List Token → (version : Bool) → List (String × String) →
    Except YamlError (List (String × String) × List Token)
  | .directive (.version major _) :: rest, version, handles =>
    if version || major != 1 then .error .malformed else directives rest true handles
  | .directive (.handle name replacement) :: rest, version, handles =>
    if (handles.lookup name).isSome then .error .malformed
    else directives rest version (handles ++ [(name, replacement)])
  | .directive .other :: rest, version, handles => directives rest version handles
  | rest, _, handles => .ok (handles ++ standardHandles, rest)

/-- Read the node of a document. -/
def root (r : Reader) : Except YamlError (Node × Reader) :=
  node .block (4 * r.tokens.length + 4) r

/-- Read the document that tokens make up. A document with a mark may be empty. -/
def document (tokens : List Token) : Except YamlError (Option Node × Reader) := do
  match tokens with
  | [] => return (none, ⟨[], [], standardHandles⟩)
  | .directive _ :: _ | .documentStart :: _ =>
    let (handles, tokens) ← directives tokens false []
    let r ← Reader.expect ⟨tokens, [], handles⟩ .documentStart
    if r.tokens.isEmpty || r.sees [.documentStart, .documentEnd] then return (some .empty, r)
    else
      match r.tokens with
      | .directive _ :: _ => return (some .empty, r)
      | _ => (root r).map fun (n, r) => (some n, r)
  | _ => (root ⟨tokens, [], standardHandles⟩).map fun (n, r) => (some n, r)

end Reader

/-- The root node of a text, none if the text is empty. There may be no second document. -/
def Node.ofText (text : List Char) : Except YamlError (Option Node) := do
  let (n, r) ← Reader.document (← Token.ofText text)
  if r.tokens.all fun t => t == .documentEnd then return n else .error .malformed

end ImportAtlas.Yaml
