import ImportAtlas.Proofs.Import.Calls
import ImportAtlas.Proofs.Import.Windows

/-!
# Clean modules

A clean module is a sequence of statements that import, export or load a module, each on a line of
its own and closed by a semicolon. This is what such a statement looks like, and what is to be found
in it: the specifier as written, under the kind of the statement, at its place.
-/

namespace ImportAtlas.Clean

open ImportRule

/-- A name other than the two words that mean something right behind the keyword of an import. -/
structure Name where
  chars : List Char
  ne_nil : chars ≠ []
  inName : ∀ c ∈ chars, inName c
  ne_type : chars ≠ "type".toList
  ne_source : chars ≠ "source".toList

/-- A specifier between two equal quotes. It opens no parenthesis and holds no substitution. -/
structure Literal where
  quote : Char
  inner : List Char
  isQuote : isQuote quote
  ne_nil : inner ≠ []
  plain : ∀ c ∈ inner, inSpecifier c ∧ c ≠ '('
  fixed : ¬ ['$', '\x7b'] <:+: inner

/-- Whether a character can stand in a listing. -/
def inListing (c : Char) : Bool := inName c || Text.isBlank c || c == ','

/-- What stands in braces: names, commas and blanks, newlines included. Any list of names, each with
or without another name behind `as`, is written so, on one line or on several. -/
structure Listing where
  chars : List Char
  plain : ∀ c ∈ chars, inListing c

/-- A binding of a whole module, or bindings of some of its names. -/
inductive Group where
  /-- The module under a name. -/
  | star (bound : Name)
  /-- Names of the module. -/
  | list (names : Listing)

/-- A single binding or a group of bindings. -/
inductive Binding where
  /-- The default of the module under a name. -/
  | default (bound : Name)
  /-- A group. -/
  | group (names : Group)

/-- What an import binds. -/
inductive Clause where
  /-- One binding or one group. -/
  | one (binding : Binding)
  /-- The default of the module and a group. -/
  | both (bound : Name) (names : Group)

/-- What a statement with a keyword asks for. -/
inductive Form where
  /-- An import of bindings. -/
  | bindings (clause : Clause)
  /-- An import of the source phase. -/
  | source (bound : Name)
  /-- An import without bindings. -/
  | bare
  /-- An import of types. -/
  | types (binding : Binding)
  /-- A re-export of everything, under a name or not. -/
  | all (bound : Option Name)
  /-- A re-export of some names. -/
  | list (names : Listing)
  /-- A re-export of all types. -/
  | allTypes
  /-- A re-export of some types. -/
  | listTypes (names : Listing)

/-- The words that open a clause of attributes. -/
inductive Attributes where
  /-- The older word. -/
  | assertion
  /-- The newer word. -/
  | options

/-- A call that loads a module. -/
inductive Call where
  /-- A call of the older loader. -/
  | require (specifier : Literal)
  /-- A call of the loader. -/
  | load (specifier : Literal)
  /-- A call for the source phase. -/
  | loadSource (specifier : Literal)
  /-- A call whose argument is computed. -/
  | computed (argument : Name)

/-- A statement of a clean module. -/
inductive Statement where
  /-- A statement with a keyword, which may have a clause of attributes. -/
  | static (form : Form) (specifier : Literal) (attributes : Option Attributes)
  /-- A constant bound to what a call loads. -/
  | call (bound : Name) (loading : Call)

/-- A literal as written. -/
def Literal.text (q : Literal) : List Char := q.quote :: (q.inner ++ [q.quote])

/-- A listing as written. -/
def Listing.text (names : Listing) : List Char := '\x7b' :: (names.chars ++ ['\x7d'])

/-- A star as written, under a name or not. -/
def starText : Option Name → List Char
  | none => ['*']
  | some bound => '*' :: (" as ".toList ++ bound.chars)

/-- A group as written. -/
def Group.text : Group → List Char
  | .star bound => starText (some bound)
  | .list names => names.text

/-- A binding as written. -/
def Binding.text : Binding → List Char
  | .default bound => bound.chars
  | .group names => names.text

/-- Bindings as written. -/
def Clause.text : Clause → List Char
  | .one binding => binding.text
  | .both bound names => bound.chars ++ (", ".toList ++ names.text)

/-- The keyword of a statement. -/
def Form.keyword : Form → String
  | .bindings _ | .source _ | .bare | .types _ => "import"
  | .all _ | .list _ | .allTypes | .listTypes _ => "export"

/-- The word before a specifier as written. -/
def fromText : List Char := " from ".toList

/-- The word that marks types as written. -/
def typeText : List Char := "type ".toList

/-- The word that marks the source phase as written. -/
def sourceText : List Char := "source ".toList

-- Lean would read the literals to find out the equations of these definitions; stated here, they cost
-- nothing.

/-- The word before a specifier. -/
theorem fromText_eq : fromText = " from ".toList := rfl

/-- The word that marks types. -/
theorem typeText_eq : typeText = "type ".toList := rfl

/-- The word that marks the source phase. -/
theorem sourceText_eq : sourceText = "source ".toList := rfl

/-- What stands between the keyword of a statement and its specifier. -/
def Form.subject : Form → List Char
  | .bindings clause => clause.text ++ fromText
  | .source bound => sourceText ++ (bound.chars ++ fromText)
  | .bare => []
  | .types binding => typeText ++ (binding.text ++ fromText)
  | .all bound => starText bound ++ fromText
  | .list names => names.text ++ fromText
  | .allTypes => typeText ++ (starText none ++ fromText)
  | .listTypes names => typeText ++ (names.text ++ fromText)

/-- A statement as written up to its specifier. -/
def Form.head (form : Form) : List Char := form.keyword.toList ++ ' ' :: form.subject

/-- The word that opens a clause of attributes. -/
def Attributes.word : Attributes → String
  | .assertion => "assert"
  | .options => "with"

/-- A clause of attributes as written. -/
def Attributes.text (attributes : Attributes) : List Char :=
  ' ' :: (attributes.word.toList ++ " \x7b type: \x27json\x27 \x7d".toList)

/-- What is written between the name a statement binds and the function it calls. -/
def Call.binding : Call → List Char
  | .require _ => " = ".toList
  | _ => " = await ".toList

/-- A statement as written before the function it calls. -/
def Call.lead (bound : Name) (loading : Call) : List Char :=
  "const ".toList ++ (bound.chars ++ loading.binding)

/-- What a statement has before the function it calls. -/
theorem Call.lead_eq (bound : Name) (loading : Call) :
    loading.lead bound = "const ".toList ++ (bound.chars ++ loading.binding) := rfl

/-- The function that is called. -/
def Call.callee : Call → String
  | .require _ => "require"
  | .load _ | .computed _ => "import"
  | .loadSource _ => "import.source"

/-- The argument of a call as written. -/
def Call.argument : Call → List Char
  | .require specifier | .load specifier | .loadSource specifier => specifier.text
  | .computed argument => argument.chars

/-- What belongs to a call behind its opening parenthesis. Of a computed argument only the first
character does. -/
def Call.taken : Call → List Char
  | .require specifier => specifier.text ++ [')']
  | .load specifier | .loadSource specifier => specifier.text
  | .computed argument => argument.chars.take 1

/-- What is written behind the specifier of a statement. -/
def attributesText : Option Attributes → List Char
  | none => []
  | some attributes => attributes.text

namespace Statement

/-- A statement as written, with the end of its line. -/
def text : Statement → List Char
  | static form specifier attributes =>
    form.head ++ (specifier.text ++ (attributesText attributes ++ [';', '\n']))
  | call bound loading =>
    loading.lead bound ++ (loading.callee.toList ++ '(' :: (loading.argument ++ [')', ';', '\n']))

/-- The specifier of a statement, empty if it is computed. -/
def specifier : Statement → List Char
  | static _ specifier _ => specifier.inner
  | call _ (.require specifier) | call _ (.load specifier) | call _ (.loadSource specifier) =>
    specifier.inner
  | call _ (.computed _) => []

/-- The kind of a statement. -/
def kind : Statement → ImportKind
  | static (.bindings _) _ (some _) => .importAttributes
  | static (.bindings (.both _ _)) _ none => .mixedImport
  | static (.bindings (.one (.default _))) _ none => .defaultImport
  | static (.bindings (.one (.group (.star _)))) _ none => .namespaceImport
  | static (.bindings (.one (.group (.list _)))) _ none => .namedImport
  | static (.source _) _ _ => .sourcePhase
  | static .bare _ _ => .sideEffectImport
  | static (.types _) _ _ => .typeImport
  | static (.all _) _ _ => .exportAll
  | static (.list _) _ _ => .exportNamed
  | static .allTypes _ _ | static (.listTypes _) _ _ => .typeReexport
  | call _ (.require _) => .requireCall
  | call _ (.load _) => .dynamicImport
  | call _ (.loadSource _) => .dynamicSource
  | call _ (.computed _) => .dynamicExpression

/-- Whether a statement creates no dependency when the program runs: it asks for types alone, or for
a module that is computed. -/
def skip : Statement → Bool
  | static (.types _) _ _ | static .allTypes _ _ | static (.listTypes _) _ _ => true
  | call _ (.computed _) => true
  | _ => false

/-- What a statement has before the construct in it. -/
def lead : Statement → List Char
  | static _ _ _ => []
  | call bound loading => loading.lead bound

/-- The construct in a statement. A clause of attributes belongs to it behind bindings alone. -/
def construct : Statement → List Char
  | static form@(.bindings _) specifier attributes =>
    form.head ++ (specifier.text ++ attributesText attributes)
  | static form specifier _ => form.head ++ specifier.text
  | call _ loading => loading.callee.toList ++ '(' :: loading.taken

/-- What is to be found in a statement. -/
def found (statement : Statement) : ImportMatch where
  specifier := String.ofList statement.specifier
  kind := statement.kind
  offset := statement.lead.length
  stop := (statement.lead ++ statement.construct).length
  skip := statement.skip

end Statement

/-- A module as written. -/
def moduleText (statements : List Statement) : List Char := statements.flatMap Statement.text

/-- What is to be found in a module. -/
def foundIn : List Statement → List ImportMatch
  | [] => []
  | statement :: rest =>
    statement.found :: (foundIn rest).map (ImportMatch.shift statement.text.length)

end ImportAtlas.Clean
