import ImportAtlas.CommandLine.Word

/-!
# Reading options

Options are taken one after the other, and of one given twice the last counts. An option takes
its values from the plain words after it; what it leaves is the files, of which there is only one
run, and any further plain words are refused in the end.
-/

namespace ImportAtlas.CommandLine

/-- What a command line asks for. -/
structure Options where
  /-- The files to start from. -/
  files : List String := []
  root : String := "."
  output : Option String := none
  format : OutputFormat := .json
  config : Option String := none
  includes : Option (List String) := none
  excludes : Option (List String) := none
  backend : Option Backend := none
  settings : Option String := none
  cycles : Bool := false
  entryPointsFor : Option (List String) := none
  debug : Bool := false
deriving DecidableEq, Repr

/-- Why there is nothing to run. -/
inductive Stop where
  /-- The options are asked for. -/
  | help
  /-- The version is asked for. -/
  | version
  /-- The command line is not understood. -/
  | misuse (cause : UsageError)
deriving DecidableEq, Repr

namespace Stop

/-- The name of the program. -/
def program : String := "modgraph"

/-- The version of the program. -/
def versionText : String := "0.1.0"

/-- A list of the options. -/
def helpText : String :=
  "usage: " ++ program ++ " [options] [file ...]\n\n" ++
    String.join (OptionKey.all.map fun key =>
      "  " ++ ", ".intercalate key.names ++ ": " ++ key.summary ++ "\n")

/-- The status that the program ends with. -/
def status : Stop → Nat
  | .misuse _ => 2
  | _ => 0

/-- What is answered. -/
def output : Stop → String
  | .help => helpText
  | .version => program ++ " " ++ versionText ++ "\n"
  | .misuse _ => ""

/-- What is complained about. -/
def complaint : Stop → String
  | .misuse cause => program ++ ": error: " ++ cause.message ++ "\n"
  | _ => ""

end Stop

/-- What one word asks for: flags, then an option with its value if that is attached, and what is
left over because no option goes by the next letter. -/
structure Expansion where
  flags : List OptionKey := []
  last : OptionKey
  value : Option String := none
  leftover : Option String := none
deriving DecidableEq, Repr

namespace Expansion

/-- An option with a value after an equals sign. -/
def ofEquals (key : OptionKey) (value : List Char) : Except UsageError Expansion :=
  if key.arity = .nothing then .error (.needlessValue key (String.ofList value))
  else .ok { last := key, value := some (String.ofList value) }

/-- A short name with characters after it. Those after a flag are further short names. -/
def ofJoined (key : OptionKey) : List Char → Except UsageError Expansion
  | [] => .ok { last := key }
  | letter :: rest =>
    if key.arity ≠ .nothing then
      .ok { last := key, value := some (String.ofList (letter :: rest)) }
    else if letter = '-' then .error (.needlessValue key (String.ofList (letter :: rest)))
    else
      match OptionKey.ofName? (String.ofList ['-', letter]) with
      | none => .ok { last := key, leftover := some (String.ofList ('-' :: letter :: rest)) }
      | some next => do
        let e ← match rest with
          | '=' :: value => ofEquals next value
          | _ => ofJoined next rest
        return { e with flags := key :: e.flags }

/-- What an option asks for with what is attached to it. -/
def ofAttached (key : OptionKey) : Attached → Except UsageError Expansion
  | .nothing => .ok { last := key }
  | .equals value => ofEquals key value
  | .joined letters => ofJoined key letters

end Expansion

/-- The values that an option takes from the plain words after it, and those it leaves. It takes
none from behind the divider. -/
def OptionKey.takeValues (key : OptionKey) (run : List String) :
    Except UsageError (List String × List String) :=
  let count := match key.arity with
    | .nothing => 0
    | .one => 1
    | .several => run.length
  let values := (run.take count).takeWhile (· != divider)
  if key.arity ≠ .nothing ∧ values = [] then .error (.missingValue key)
  else .ok (values, run.drop values.length)

namespace Options

/-- Take an option with its values. -/
def take (options : Options) (key : OptionKey) (values : List String) : Except Stop Options :=
  let value := values.headD ""
  match key with
  | .help => .error .help
  | .version => .error .version
  | .root => .ok { options with root := value }
  | .output => .ok { options with output := some value }
  | .format =>
    match OutputFormat.ofName? value with
    | some format => .ok { options with format }
    | none => .error (.misuse (.unknownChoice key value))
  | .config => .ok { options with config := some value }
  | .includes => .ok { options with includes := some values }
  | .excludes => .ok { options with excludes := some values }
  | .backend =>
    match Backend.ofName? value with
    | some backend => .ok { options with backend := some backend }
    | none => .error (.misuse (.unknownChoice key value))
  | .settings => .ok { options with settings := some value }
  | .cycles => .ok { options with cycles := true }
  | .entryPointsFor => .ok { options with entryPointsFor := some values }
  | .debug => .ok { options with debug := true }

end Options

/-- What reading a command line has come to so far. -/
structure Progress where
  options : Options := {}
  /-- Whether there was a run of files. -/
  filesGiven : Bool := false
  /-- The words that mean nothing. -/
  unrecognized : List String := []
deriving DecidableEq, Repr

namespace Progress

/-- Take plain words that no option takes: the first run of them is the files. -/
def takeRun (p : Progress) (run : List String) : Progress :=
  if run.isEmpty then p
  else if p.filesGiven then { p with unrecognized := p.unrecognized ++ run }
  else { p with options := { p.options with files := run.erase divider }, filesGiven := true }

/-- Take an option and the plain words after it. -/
def takeGroup (p : Progress) (group : Word × List String) : Except Stop Progress :=
  match group with
  | (.plain text, run) => .ok (p.takeRun (text :: run))
  | (.unknown text, run) =>
    .ok ({ p with unrecognized := p.unrecognized ++ [text] }.takeRun run)
  | (.option key attached, run) => do
    let e ← (Expansion.ofAttached key attached).mapError .misuse
    let (values, run) ← match e.value with
      | some value => pure ([value], run)
      | none => (e.last.takeValues run).mapError .misuse
    let options ← e.flags.foldlM (fun options key => options.take key []) p.options
    let options ← options.take e.last values
    return { p with options, unrecognized := p.unrecognized ++ e.leftover.toList }.takeRun run

end Progress

/-- Read a command line. -/
def Options.read (arguments : List String) : Except Stop Options := do
  let words ← (Word.readAll arguments).mapError .misuse
  let (run, groups) := Word.groups words
  let p ← groups.foldlM Progress.takeGroup (Progress.takeRun {} run)
  if p.unrecognized.isEmpty then return p.options
  else .error (.misuse (.unrecognized p.unrecognized))

end ImportAtlas.CommandLine
