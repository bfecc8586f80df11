import ImportAtlas.Pattern

/-!
# Tags

A tag says what kind of value a node has. A plain scalar without a tag gets one by its form: the
words for nothing and for truth values, numbers in several bases and with the colons of base
sixty, points in time, and two marks for mappings. Anything else is text.
-/

namespace ImportAtlas.Yaml

/-- The kind of value that a node has. -/
inductive Tag where
  | null
  | truth
  | int
  | float
  | binary
  | moment
  | orderedMapping
  | pairs
  | set
  | text
  | sequence
  | mapping
  /-- The key under which other mappings are merged in. -/
  | merge
  /-- The key of the value that stands for a whole mapping. -/
  | default
  /-- A tag that is not known. -/
  | unknown
deriving DecidableEq, Repr

namespace Tag

/-- What the names of the known tags begin with. -/
def namespaceText : String := "tag:yaml.org,2002:"

/-- The tag of a name written in full. -/
def ofName (name : String) : Tag :=
  let known : List (String × Tag) := [("null", .null), ("bool", .truth), ("int", .int),
    ("float", .float), ("binary", .binary), ("timestamp", .moment), ("omap", .orderedMapping),
    ("pairs", .pairs), ("set", .set), ("str", .text), ("seq", .sequence), ("map", .mapping),
    ("merge", .merge), ("value", .default)]
  ((known.find? fun entry => namespaceText ++ entry.1 == name).map Prod.snd).getD .unknown

/-- Whether the value of a tag can be a key of a mapping. -/
def isKey : Tag → Bool
  | .orderedMapping | .pairs | .set | .sequence | .mapping => false
  | _ => true

open Pattern

/-- A whole text of a pattern. -/
def whole (p : Pattern) : Pattern := .all [.textStart, p, .textEnd]

/-- One of several words. -/
def words (ws : List String) : Pattern := .firstOf (ws.map fun w => .text w.toList)

/-- A fixed character. -/
def mark (c : Char) : Pattern := .one (· == c)

/-- One of several characters. -/
def oneOf (cs : String) : Pattern := .one cs.toList.contains

/-- Characters of a class, or none. -/
def manyOf (cs : String) : Pattern := .many cs.toList.contains

/-- A decimal digit. -/
def digit : Pattern := .one Char.isDigit

/-- One or two decimal digits. -/
def shortNumber : Pattern := .seq digit (.optional digit)

/-- A sign or none. -/
def sign : Pattern := .optional (oneOf "-+")

/-- Groups of base sixty after a first number. -/
def sixties : Pattern :=
  let group := Pattern.all [mark ':', .optional (oneOf "012345"), digit]
  .seq group (.star group)

/-- A decimal exponent with its sign, or none. -/
def exponent : Pattern := .optional (.all [oneOf "eE", oneOf "-+", .some Char.isDigit])

/-- The forms of truth values. -/
def truthForm : Pattern := words ["yes", "Yes", "YES", "no", "No", "NO", "true", "True", "TRUE",
  "false", "False", "FALSE", "on", "On", "ON", "off", "Off", "OFF"]

/-- The forms of nothing. -/
def nullForm : Pattern := .alt (words ["~", "null", "Null", "NULL"]) .empty

/-- The forms of whole numbers. -/
def intForm : Pattern := .firstOf [
  .all [sign, words ["0b"], .some "01_".toList.contains],
  .all [sign, mark '0', .some "01234567_".toList.contains],
  .all [sign, .alt (mark '0') (.seq (oneOf "123456789") (manyOf "0123456789_"))],
  .all [sign, words ["0x"], .some "0123456789abcdefABCDEF_".toList.contains],
  .all [sign, oneOf "123456789", manyOf "0123456789_", sixties]]

/-- The forms of other numbers. -/
def floatForm : Pattern := .firstOf [
  .all [sign, digit, manyOf "0123456789_", mark '.', manyOf "0123456789_", exponent],
  .all [mark '.', digit, manyOf "0123456789_", exponent],
  .all [sign, digit, manyOf "0123456789_", sixties, mark '.', manyOf "0123456789_"],
  .all [sign, mark '.', words ["inf", "Inf", "INF"]],
  .all [mark '.', words ["nan", "NaN", "NAN"]]]

/-- The forms of points in time. -/
def momentForm : Pattern :=
  let year := Pattern.all [digit, digit, digit, digit]
  let two := Pattern.seq digit digit
  .alt (.all [year, mark '-', two, mark '-', two])
    (.all [year, mark '-', shortNumber, mark '-', shortNumber,
      .alt (oneOf "Tt") (.some " \t".toList.contains),
      shortNumber, mark ':', two, mark ':', two, .optional (.seq (mark '.') (.many Char.isDigit)),
      .optional (.seq (manyOf " \t")
        (.alt (mark 'Z') (.all [oneOf "-+", shortNumber, .optional (.seq (mark ':') two)])))])

/-- The forms of scalars in the order in which they are tried, and what a form makes of a
scalar. -/
def forms : List (Pattern × Tag) := [(truthForm, .truth), (floatForm, .float), (intForm, .int),
  (words ["<<"], .merge), (nullForm, .null), (momentForm, .moment), (words ["="], .default),
  (.alt (mark '!') (.alt (mark '&') (mark '*')), .unknown)]

/-- The tag of a plain scalar by its form. No form begins with a newline. -/
def ofForm (scalar : List Char) : Tag :=
  if scalar.head? = some '\n' then .text
  else ((forms.find? fun form => ((whole form.1).matchStart scalar).isSome).map Prod.snd).getD .text

end Tag

end ImportAtlas.Yaml
