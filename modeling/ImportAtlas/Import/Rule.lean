import ImportAtlas.Pattern

/-!
# Import rules

The constructs of JavaScript and TypeScript text that load a module, each with the pattern it is
recognised by. The rules are listed by priority: an earlier rule owns a statement that a later
one would match as well. One pattern, the union of all rules in this order, finds the places
that are worth a closer look.
-/

namespace ImportAtlas

/-- The kinds of construct that name, or compute, a module. -/
inductive ImportKind where
  /-- An import of types alone. -/
  | typeImport
  /-- A re-export of types alone. -/
  | typeReexport
  /-- A loading call whose argument is computed. -/
  | dynamicExpression
  /-- A static import with a clause of attributes. -/
  | importAttributes
  /-- A source phase import. -/
  | sourcePhase
  /-- A default binding together with named bindings or a namespace. -/
  | mixedImport
  /-- Named bindings. -/
  | namedImport
  /-- A namespace binding. -/
  | namespaceImport
  /-- A default binding. -/
  | defaultImport
  /-- An import without bindings. -/
  | sideEffectImport
  /-- A source phase loading call. -/
  | dynamicSource
  /-- A loading call. -/
  | dynamicImport
  /-- A call of the older loader. -/
  | requireCall
  /-- A re-export of everything. -/
  | exportAll
  /-- A re-export of named bindings. -/
  | exportNamed
deriving DecidableEq, Repr

/-- The name under which a kind is reported. -/
def ImportKind.name : ImportKind → String
  | .typeImport => "type_import"
  | .typeReexport => "type_reexport"
  | .dynamicExpression => "dynamic_expression"
  | .importAttributes => "import_attributes"
  | .sourcePhase => "source_phase"
  | .mixedImport => "mixed_import"
  | .namedImport => "named_import"
  | .namespaceImport => "namespace_import"
  | .defaultImport => "default_import"
  | .sideEffectImport => "side_effect_import"
  | .dynamicSource => "dynamic_source"
  | .dynamicImport => "dynamic_import"
  | .requireCall => "require_call"
  | .exportAll => "export_all"
  | .exportNamed => "export_named"

/-- A construct that is recognised, and what finding one means. -/
structure ImportRule where
  kind : ImportKind
  pattern : Pattern
  /-- Whether the construct creates no dependency when the program runs. -/
  skip : Bool := false
  /-- Whether the construct stands at the start of a line, so that its context is known. -/
  anchored : Bool := true

namespace ImportRule

open Pattern

/-- Whether a character is one of the three quotes. -/
def isQuote (c : Char) : Bool := c == '\x27' || c == '\x22' || c == '\x60'

/-- Whether a character can stand in a quoted specifier. -/
def inSpecifier (c : Char) : Bool := !isQuote c && c != '\n'

/-- Whether a character can stand in a name. -/
def inName (c : Char) : Bool := Text.isWord c || c == '$'

/-- A fixed word. -/
def word (s : String) : Pattern := Pattern.text s.toList

/-- Blanks, or none. -/
def blanks : Pattern := many Text.isBlank

/-- At least one blank. -/
def gap : Pattern := Pattern.some Text.isBlank

/-- A fixed character. -/
def mark (c : Char) : Pattern := one (· == c)

/-- A quoted specifier, remembered without its quotes. -/
def quoted : Pattern := all [one isQuote, capture (Pattern.some inSpecifier), one isQuote]

/-- A comment between slash and star, whose body holds no star. -/
def blockComment : Pattern := all [mark '/', mark '*', many (· != '*'), mark '*', mark '/']

/-- A comment from two slashes to the end of the line. -/
def lineComment : Pattern := all [mark '/', mark '/', many (· != '\n')]

/-- Any comments with the blanks after them, as they may stand in the parentheses of a call. -/
def comments : Pattern := star (.seq (.alt blockComment lineComment) blanks)

/-- A name. -/
def name : Pattern := Pattern.some inName

/-- A list in braces, up to the first closing brace. -/
def braces : Pattern := all [mark '\x7b', many (· != '\x7d'), mark '\x7d']

/-- A star bound to a name. -/
def namespaceBinding : Pattern := all [mark '*', blanks, word "as", gap, name]

/-- The start of a line and its indentation. -/
def indentation : Pattern := .seq lineStart (many fun c => c == ' ' || c == '\t')

/-- The word before a specifier and the specifier. -/
def fromQuoted : Pattern := all [blanks, word "from", blanks, quoted]

/-- As `fromQuoted`, with a blank before the word. -/
def gapFromQuoted : Pattern := all [gap, word "from", blanks, quoted]

/-- An opening parenthesis with the comments on both sides of it. -/
def openCall : Pattern := all [blanks, comments, mark '(', blanks, comments]

/-- The start of an argument that is no plain literal: a character that opens neither a literal
nor a comment, or a template literal with a substitution. -/
def computedArgument : Pattern :=
  .alt (one fun c => !isQuote c && !Text.isBlank c && c != '/')
    (all [mark '\x60', many (· != '\x60'), mark '$', mark '\x7b'])

end ImportRule

open Pattern ImportRule in
/-- The rules, by priority. -/
def importRules : List ImportRule := [
  { kind := .typeImport, skip := true,
    pattern := all [indentation, word "import", gap, word "type", gap,
      firstOf [braces, namespaceBinding, name], fromQuoted] },
  { kind := .typeReexport, skip := true,
    pattern := all [indentation, word "export", gap, word "type", gap,
      .alt braces (.seq (mark '*') (optional (all [blanks, word "as", gap, name]))),
      fromQuoted] },
  { kind := .dynamicExpression, skip := true, anchored := false,
    pattern := all [wordEdge, word "import", optional (word ".source"), openCall,
      computedArgument] },
  { kind := .importAttributes,
    pattern := all [indentation, word "import", blanks,
      optional (all [name, blanks, mark ',', blanks]),
      firstOf [braces, namespaceBinding, name], fromQuoted, blanks,
      .alt (word "assert") (word "with"), blanks, braces] },
  { kind := .sourcePhase,
    pattern := all [indentation, word "import", gap, word "source", gap, name, gapFromQuoted] },
  { kind := .mixedImport,
    pattern := all [indentation, word "import", gap, name, blanks, mark ',', blanks,
      .alt braces namespaceBinding, fromQuoted] },
  { kind := .namedImport,
    pattern := all [indentation, word "import", blanks, braces, fromQuoted] },
  { kind := .namespaceImport,
    pattern := all [indentation, word "import", blanks, namespaceBinding, gapFromQuoted] },
  { kind := .defaultImport,
    pattern := all [indentation, word "import", gap, name, gapFromQuoted] },
  { kind := .sideEffectImport,
    pattern := all [indentation, word "import", blanks, quoted] },
  { kind := .dynamicSource, anchored := false,
    pattern := all [wordEdge, word "import.source", openCall, quoted] },
  { kind := .dynamicImport, anchored := false,
    pattern := all [wordEdge, word "import", openCall, quoted] },
  { kind := .requireCall, anchored := false,
    pattern := all [wordEdge, word "require", blanks, mark '(', blanks, comments, quoted,
      blanks, comments, mark ')'] },
  { kind := .exportAll,
    pattern := all [indentation, word "export", blanks, mark '*',
      optional (all [blanks, word "as", gap, name]), fromQuoted] },
  { kind := .exportNamed,
    pattern := all [indentation, word "export", blanks, braces, fromQuoted] }]

/-- The union of the rules in their order, with which a search looks for places to extract
from. -/
def importSearchPattern : Pattern := Pattern.firstOf (importRules.map ImportRule.pattern)

end ImportAtlas
