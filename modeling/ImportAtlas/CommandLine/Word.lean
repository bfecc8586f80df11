import ImportAtlas.CommandLine.Key
import ImportAtlas.Text.Digit
import ImportAtlas.Text.Quoted

/-!
# Words of a command line

A word that begins with a dash is an option, unless it is only the dash, a negative number, or
unknown and holds a blank. A long name may be cut short as long as only one option begins so. A
value may follow an equals sign; after a short name it may follow at once. After two dashes by
themselves no word is an option.
-/

namespace ImportAtlas.CommandLine

/-- Why a command line is not understood. -/
inductive UsageError where
  /-- Several options have names that begin so. -/
  | ambiguous (text : String) (names : List String)
  /-- An option has no value. -/
  | missingValue (key : OptionKey)
  /-- An option has a value and takes none. -/
  | needlessValue (key : OptionKey) (value : String)
  /-- An option has a value that it is not limited to. -/
  | unknownChoice (key : OptionKey) (value : String)
  /-- There are words that mean nothing. -/
  | unrecognized (texts : List String)
deriving DecidableEq, Repr

/-- What the error is. -/
def UsageError.message : UsageError → String
  | .ambiguous text names =>
    "ambiguous option: " ++ text ++ " could match " ++ ", ".intercalate names
  | .missingValue key =>
    "argument " ++ key.title ++ ": expected " ++
      if key.arity = .several then "at least one argument" else "one argument"
  | .needlessValue key value =>
    "argument " ++ key.title ++ ": ignored explicit argument " ++ Text.quoted value
  | .unknownChoice key value =>
    "argument " ++ key.title ++ ": invalid choice: " ++ Text.quoted value ++ " (choose from " ++
      ", ".intercalate (key.choices.map Text.quoted) ++ ")"
  | .unrecognized texts => "unrecognized arguments: " ++ " ".intercalate texts

/-- What is written in one word with the name of an option. -/
inductive Attached where
  | nothing
  /-- A value after an equals sign. -/
  | equals (value : List Char)
  /-- Characters after a short name: a value, or further short names. -/
  | joined (letters : List Char)
deriving DecidableEq, Repr

/-- What a word is by itself. -/
inductive Word where
  /-- A value of an option, or a file. -/
  | plain (text : String)
  | option (key : OptionKey) (attached : Attached)
  /-- An option that is not known. -/
  | unknown (text : String)
deriving DecidableEq, Repr

/-- The word after which no word is an option. -/
def divider : String := "--"

/-- Whether a character is a decimal digit of any script. -/
def isDigit (c : Char) : Bool := (Text.decimalValue? c).isSome

/-- Whether characters after a minus write a number; a newline may end them. -/
def isNumber (s : List Char) : Bool :=
  let s := if s.getLast? = some '\n' then s.dropLast else s
  let fraction := s.dropWhile isDigit
  match fraction with
  | [] => !s.isEmpty
  | '.' :: digits => !digits.isEmpty && digits.all isDigit
  | _ => false

namespace Word

/-- The part of a word before its first equals sign, and the value after it if there is one. -/
def cut (text : List Char) : List Char × Attached :=
  match text.dropWhile (· != '=') with
  | [] => (text, .nothing)
  | _ :: value => (text.takeWhile (· != '='), .equals value)

/-- What a word of two or more characters with a dash may mean: each name that it stands for,
with its option and what is attached. -/
def readings (text : List Char) : List (String × OptionKey × Attached) :=
  match text with
  | '-' :: '-' :: _ =>
    let (name, attached) := cut text
    (OptionKey.named.filter fun entry => name.isPrefixOf entry.1.toList).map fun (name, key) =>
      (name, key, attached)
  | '-' :: letter :: rest =>
    (OptionKey.named.filter fun entry => entry.1.toList == ['-', letter]).map fun (name, key) =>
      (name, key, .joined rest)
  | _ => []

/-- The option that a word names in full, with what follows an equals sign. -/
def named? (text : String) : Option (OptionKey × Attached) :=
  match OptionKey.ofName? text with
  | some key => some (key, .nothing)
  | none =>
    match cut text.toList with
    | (_, .nothing) => none
    | (name, attached) => (OptionKey.ofName? (String.ofList name)).map fun key => (key, attached)

/-- Read a word. -/
def ofString (text : String) : Except UsageError Word :=
  match text.toList with
  | '-' :: second :: rest =>
    match named? text with
    | some (key, attached) => .ok (.option key attached)
    | none =>
      match readings text.toList with
      | [(_, key, attached)] => .ok (.option key attached)
      | [] =>
        if isNumber (second :: rest) || text.toList.contains ' ' then .ok (.plain text)
        else .ok (.unknown text)
      | several => .error (.ambiguous text (several.map Prod.fst))
  | _ => .ok (.plain text)

/-- Read the words of a command line. The divider stays among the plain words. -/
def readAll : List String → Except UsageError (List Word)
  | [] => .ok []
  | text :: rest =>
    if text = divider then .ok ((text :: rest).map .plain)
    else do
      let word ← ofString text
      let words ← readAll rest
      return word :: words

/-- The plain words before the first option, and each option with the plain words after it. -/
def groups : List Word → List String × List (Word × List String)
  | [] => ([], [])
  | .plain text :: rest =>
    let (run, others) := groups rest
    (text :: run, others)
  | word :: rest =>
    let (run, others) := groups rest
    ([], (word, run) :: others)

end Word

end ImportAtlas.CommandLine
