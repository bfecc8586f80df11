import ImportAtlas.Calendar
import ImportAtlas.Text.Base64
import ImportAtlas.Text.Blank
import ImportAtlas.Text.Digit
import ImportAtlas.Text.Split
import ImportAtlas.Yaml.Node

/-!
# Values

The value of a document is read off its nodes by their tags, after checking that each node has
the form that its tag asks for. Numbers and points in time are checked and not computed: nothing
here calculates with them.
-/

namespace ImportAtlas

/-- A value of a YAML text. -/
inductive Yaml where
  | null
  | str (s : String)
  | list (items : List Yaml)
  /-- The entries in order; of two with the same key the last counts. -/
  | mapping (entries : List (Yaml × Yaml))
  /-- Any other value: a number, a truth value, a point in time, bytes, a set or a pair. -/
  | other

namespace Yaml

/-- Whether a text without its sign, if it has one, is empty. -/
def dropSign (s : List Char) : List Char :=
  match s with
  | c :: rest => if c = '+' ∨ c = '-' then rest else s
  | [] => []

/-- Whether underscores stand only between digits. -/
def separated : List Char → Bool
  | [] => true
  | ['_'] => false
  | '_' :: '_' :: _ => false
  | _ :: rest => separated rest

/-- Whether a text is digits below a base, with single underscores between them. -/
def areDigits (base : Nat) (s : List Char) : Bool :=
  let value (c : Char) : Option Nat :=
    match Text.decimalValue? c with
    | some n => some n
    | none =>
      if 'a' ≤ c && c ≤ 'z' then some (c.toNat - 'a'.toNat + 10)
      else if 'A' ≤ c && c ≤ 'Z' then some (c.toNat - 'A'.toNat + 10)
      else none
  !s.isEmpty && s.head? != some '_' && separated s &&
    s.all fun c => c == '_' || (value c).any (· < base)

/-- Whether a text without the mark of a base, if it has one, has a number. -/
def dropMark (letter : Char) (s : List Char) : List Char :=
  match s with
  | '0' :: c :: rest =>
    if c = letter ∨ c = letter.toUpper then (if rest.head? = some '_' then rest.tail else rest)
    else s
  | _ => s

/-- Whether a text writes a whole number in a base, blanks around it and its sign apart. -/
def isWhole (base : Nat) (s : List Char) : Bool :=
  let s := dropSign (Text.strip s)
  let digits :=
    if base = 2 then dropMark 'b' s
    else if base = 8 then dropMark 'o' s
    else if base = 16 then dropMark 'x' s
    else s
  areDigits base digits

/-- Whether a text writes a decimal number with a fraction or an exponent, or one of the words for
no number and infinity, blanks around it apart. -/
def isDecimal (s : List Char) : Bool :=
  let s := dropSign (Text.strip s)
  let word := String.ofList (s.map Char.toLower)
  if word = "nan" ∨ word = "inf" ∨ word = "infinity" then true
  else
    let isMark (c : Char) : Bool := c == 'e' || c == 'E'
    let mantissa := s.takeWhile fun c => !isMark c
    let exponent := s.dropWhile fun c => !isMark c
    let whole := mantissa.takeWhile (· != '.')
    let fraction := (mantissa.dropWhile (· != '.')).drop 1
    let optionalDigits (d : List Char) : Bool := d.isEmpty || areDigits 10 d
    optionalDigits whole && optionalDigits fraction && !(whole.isEmpty && fraction.isEmpty) &&
      (exponent.isEmpty || areDigits 10 (dropSign (exponent.drop 1)))

/-- Check a whole number. A base is marked at its start; groups of base sixty are parted by
colons. -/
def checkInt (text : List Char) : Except YamlError Unit :=
  let text := text.filter (· != '_')
  if text.isEmpty then .error .emptyNumber
  else
    let s := dropSign text
    let ok (valid : Bool) : Except YamlError Unit := if valid then .ok () else .error .badValue
    match s with
    | [] => .error .emptyNumber
    | ['0'] => .ok ()
    | '0' :: 'b' :: rest => ok (isWhole 2 rest)
    | '0' :: 'x' :: rest => ok (isWhole 16 rest)
    | '0' :: _ => ok (isWhole 8 s)
    | _ =>
      if s.contains ':' then ok ((Text.splitAt ':' s).all (isWhole 10)) else ok (isWhole 10 s)

/-- Check a number. -/
def checkFloat (text : List Char) : Except YamlError Unit :=
  let text := (text.filter (· != '_')).map Char.toLower
  if text.isEmpty then .error .emptyNumber
  else
    let s := dropSign text
    let ok (valid : Bool) : Except YamlError Unit := if valid then .ok () else .error .badValue
    if s = ".inf".toList ∨ s = ".nan".toList then .ok ()
    else if s.contains ':' then ok ((Text.splitAt ':' s).all isDecimal)
    else ok (isDecimal s)

/-- The words for truth values. -/
def truthWords : List String := ["yes", "no", "true", "false", "on", "off"]

/-- Check a truth value. -/
def checkTruth (text : List Char) : Except YamlError Unit :=
  let word := String.ofList (text.map Char.toLower)
  if truthWords.contains word then .ok () else .error (.unknownTruth word)

/-- The parts of a point in time. -/
structure Moment where
  date : Calendar.Date
  /-- The hour, the minute and the second, if a time is given. -/
  time : Option (Nat × Nat × Nat)
  /-- The hours and minutes away from world time, if a zone is given by them. -/
  offset : Option (Nat × Nat)

namespace Moment

open Tag in
/-- The form of a point in time, each part remembered. -/
def form : Pattern :=
  let year := Pattern.capture (.all [digit, digit, digit, digit])
  let short := Pattern.capture shortNumber
  let two := Pattern.capture (.seq digit digit)
  let time := Pattern.all [.alt (oneOf "Tt") (.some " \t".toList.contains), short,
    mark ':', two, mark ':', two, .optional (.seq (mark '.') (.many Char.isDigit))]
  let zone := Pattern.seq (manyOf " \t") (.alt (mark 'Z')
    (.all [oneOf "-+", short, .optional (.seq (mark ':') two)]))
  whole (.all [year, mark '-', short, mark '-', short, .optional (.seq time (.optional zone))])

/-- The number that decimal digits write. -/
def number (digits : List Char) : Nat :=
  digits.foldl (fun n c => n * 10 + (c.toNat - '0'.toNat)) 0

/-- Read a point in time. -/
def ofText? (text : List Char) : Option Moment :=
  match ((form.matchStart text).map fun m => m.groups.map number) with
  | some [y, mo, d] => some ⟨⟨y, mo, d⟩, none, none⟩
  | some [y, mo, d, h, mi, s] => some ⟨⟨y, mo, d⟩, some (h, mi, s), none⟩
  | some [y, mo, d, h, mi, s, oh] => some ⟨⟨y, mo, d⟩, some (h, mi, s), some (oh, 0)⟩
  | some [y, mo, d, h, mi, s, oh, om] => some ⟨⟨y, mo, d⟩, some (h, mi, s), some (oh, om)⟩
  | _ => none

/-- Whether a point in time exists in the calendar and on the clock. -/
def isValid (m : Moment) : Bool :=
  m.date.isValid &&
    m.time.all (fun (h, mi, s) => h < 24 && mi < 60 && s < 60) &&
    m.offset.all fun (h, mi) => h * 60 + mi < 24 * 60

end Moment

/-- Check a point in time. -/
def checkMoment (text : List Char) : Except YamlError Unit :=
  match Moment.ofText? text with
  | none => .error .badMoment
  | some m => if m.isValid then .ok () else .error .badValue

/-- The text of a scalar; a mapping with the key for it stands for its value. The number bounds
how often that may be nested. -/
def scalarText? : Nat → Node → Option (List Char)
  | 0, _ => none
  | _ + 1, .scalar _ text => some text
  | depth + 1, .mapping _ entries =>
    ((entries.find? fun entry => entry.1.tag == .default).map Prod.snd).bind (scalarText? depth)
  | _, _ => none

/-- The nesting that is looked through for the text of a scalar. -/
def scalarDepth : Nat := 1000

/-- The text of a node that must have one. -/
def needText (n : Node) : Except YamlError (List Char) :=
  match scalarText? scalarDepth n with
  | some text => .ok text
  | none => .error .malformed

/-- The entries of a mapping with those of the mappings merged into it in front; of several
merged at once the first counts most. The number bounds how often merging may be nested. -/
def mergedEntries : Nat → List (Node × Node) → Except YamlError (List (Node × Node))
  | 0, _ => .error .malformed
  | depth + 1, entries => do
    let merged ← (entries.filter fun entry => entry.1.tag == .merge).mapM fun entry =>
      match entry.2 with
      | .mapping _ others => mergedEntries depth others
      | .again true _ => .ok []
      | .sequence _ items => do
        let lists ← items.mapM fun item =>
          match item with
          | .mapping _ others => mergedEntries depth others
          | .again true _ => .ok []
          | _ => .error .malformed
        return lists.reverse.flatten
      | .again false _ => .ok []
      | _ => .error .malformed
    let own := (entries.filter fun entry => entry.1.tag != .merge).map fun entry =>
      match entry.1 with
      | .scalar .default text => (Node.scalar .text text, entry.2)
      | _ => entry
    return merged.flatten ++ own

/-- Check a node by itself. What is in a collection is checked later. -/
def checkScalar (n : Node) : Except YamlError Unit := do
  match n.tag with
  | .null | .text => let _ ← needText n
  | .truth => checkTruth (← needText n)
  | .int => checkInt (← needText n)
  | .float => checkFloat (← needText n)
  | .moment => checkMoment (← needText n)
  | .binary =>
    match Text.base64? (← needText n) with
    | some _ => pure ()
    | none => .error .malformed
  | .merge | .default | .unknown => .error .malformed
  | .orderedMapping | .pairs | .set | .sequence | .mapping => pure ()

/-- Check the entries of a mapping one after the other: each key, which may be no collection,
and each value. -/
def checkEntries : List (Node × Node) → Except YamlError (List Node)
  | [] => .ok []
  | (key, value) :: rest => do
    checkScalar key
    if key.tag.isKey then pure () else .error .malformed
    checkScalar value
    return key :: value :: (← checkEntries rest)

/-- Check items one after the other. -/
def checkItems : List Node → Except YamlError (List Node)
  | [] => .ok []
  | item :: rest => do
    checkScalar item
    return item :: (← checkItems rest)

/-- The nodes of a list of mappings with one entry each. -/
def checkPairs : List Node → Except YamlError (List Node)
  | [] => .ok []
  | .mapping _ [(key, value)] :: rest => do
    checkScalar key
    checkScalar value
    return key :: value :: (← checkPairs rest)
  | _ => .error .malformed

/-- Check what is in a collection; the nodes in it come with the result. -/
def checkContent (n : Node) : Except YamlError (List Node) := do
  match n.tag, n with
  | .sequence, .sequence _ items => checkItems items
  | .orderedMapping, .sequence _ items => checkPairs items
  | .pairs, .sequence _ items => checkPairs items
  | .mapping, .mapping _ entries => checkEntries (← mergedEntries scalarDepth entries)
  | .set, .mapping _ entries => checkEntries (← mergedEntries scalarDepth entries)
  | _, .again _ _ => return []
  | .sequence, _ | .orderedMapping, _ | .pairs, _ | .mapping, _ | .set, _ => .error .malformed
  | _, _ => return []

/-- Check level by level what is in the nodes of a level and below them. The number bounds the
depth. -/
def checkLevels : Nat → List Node → Except YamlError Unit
  | 0, _ => .ok ()
  | _, [] => .ok ()
  | depth + 1, level => do
    let inner ← level.mapM checkContent
    checkLevels depth inner.flatten

mutual

/-- The number of levels of a node. -/
def levels : Node → Nat
  | .sequence _ items => levelsOf items + 1
  | .mapping _ entries => levelsOfEntries entries + 1
  | _ => 1
termination_by structural n => n

/-- The number of levels of the deepest of several nodes. -/
def levelsOf : List Node → Nat
  | [] => 0
  | n :: rest => max (levels n) (levelsOf rest)
termination_by structural ns => ns

/-- The number of levels of the deeper node of an entry. -/
def levelsOfEntry : Node × Node → Nat
  | (key, value) => max (levels key) (levels value)
termination_by structural entry => entry

/-- The number of levels of the deepest node of several entries. -/
def levelsOfEntries : List (Node × Node) → Nat
  | [] => 0
  | entry :: rest => max (levelsOfEntry entry) (levelsOfEntries rest)
termination_by structural entries => entries

end

/-- The value of a checked node. The number bounds the depth, below which all values are the
same. -/
def ofNode : Nat → Node → Yaml
  | 0, _ => .other
  | depth + 1, n =>
    match n.tag, n with
    | .null, _ => .null
    | .text, n => .str (String.ofList ((scalarText? scalarDepth n).getD []))
    | .sequence, .sequence _ items => .list (items.map (ofNode depth))
    | .orderedMapping, .sequence _ items => .list (items.map fun _ => .other)
    | .pairs, .sequence _ items => .list (items.map fun _ => .other)
    | .mapping, .mapping _ entries =>
      .mapping ((((mergedEntries scalarDepth entries).toOption).getD []).map fun entry =>
        (ofNode depth entry.1, ofNode depth entry.2))
    | _, _ => .other

/-- The value of a text. -/
def read (text : List Char) : Except YamlError Yaml := do
  match ← Node.ofText text with
  | none => return .null
  | some n =>
    checkScalar n
    let depth := levels n
    checkLevels (depth + 1) [n]
    return ofNode (depth + 1) n

/-- The value of a key in a mapping, the last if there are several. -/
def get? (entries : List (Yaml × Yaml)) (key : String) : Option Yaml :=
  (entries.reverse.find? fun entry =>
    match entry.1 with
    | .str s => s == key
    | _ => false).map Prod.snd

end Yaml

end ImportAtlas
