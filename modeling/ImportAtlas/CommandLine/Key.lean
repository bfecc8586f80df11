import ImportAtlas.Search.Backend

/-!
# Options by name

What can be asked for on a command line, the names that each option goes by, and how many values
it takes. A short name is a dash and a letter, a long one begins with two dashes.
-/

namespace ImportAtlas.CommandLine

/-- The forms in which a graph is written. -/
inductive OutputFormat where
  | json
  | tree
  /-- A tree drawn with characters of ASCII. -/
  | ascii
deriving DecidableEq, Repr

namespace OutputFormat

/-- The name of a form. -/
def name : OutputFormat → String
  | .json => "json"
  | .tree => "tree"
  | .ascii => "ascii"

/-- All forms. -/
def all : List OutputFormat := [.json, .tree, .ascii]

/-- The form of a name. -/
def ofName? (name : String) : Option OutputFormat := all.find? fun f => f.name == name

end OutputFormat

/-- How many values an option takes. -/
inductive Arity where
  | nothing
  | one
  /-- At least one. -/
  | several
deriving DecidableEq, Repr

/-- What an option is for. -/
inductive OptionKey where
  | help
  | root
  | output
  | format
  | config
  | includes
  | excludes
  | backend
  | settings
  | cycles
  | entryPointsFor
  | debug
  | version
deriving DecidableEq, Repr

namespace OptionKey

/-- All options. -/
def all : List OptionKey := [.help, .root, .output, .format, .config, .includes, .excludes,
  .backend, .settings, .cycles, .entryPointsFor, .debug, .version]

/-- The names of an option, the short one first. -/
def names : OptionKey → List String
  | .help => ["-h", "--help"]
  | .root => ["-C", "--root"]
  | .output => ["-o", "--output"]
  | .format => ["-f", "--format"]
  | .config => ["-c", "--config"]
  | .includes => ["-i", "--include"]
  | .excludes => ["-e", "--exclude"]
  | .backend => ["--backend"]
  | .settings => ["--settings"]
  | .cycles => ["--cycles"]
  | .entryPointsFor => ["--entry-points-for"]
  | .debug => ["-d", "--debug"]
  | .version => ["--version"]

/-- How many values an option takes. -/
def arity : OptionKey → Arity
  | .help | .cycles | .debug | .version => .nothing
  | .includes | .excludes | .entryPointsFor => .several
  | _ => .one

/-- The values that an option is limited to. -/
def choices : OptionKey → List String
  | .format => OutputFormat.all.map OutputFormat.name
  | .backend => Backend.all.map Backend.name
  | _ => []

/-- What an option does. -/
def summary : OptionKey → String
  | .help => "show this text"
  | .root => "the root of the project, by default the current folder"
  | .output => "the file to write to"
  | .format => "the form of the graph"
  | .config => "the configuration of path aliases"
  | .includes => "globs of the files to scan"
  | .excludes => "further globs of what is left out"
  | .backend => "the way to search"
  | .settings => "the settings file"
  | .cycles => "list circular imports as well"
  | .entryPointsFor => "name the entry points that lead to files instead"
  | .debug => "tell more"
  | .version => "show the version"

/-- How messages name an option. -/
def title (key : OptionKey) : String := "/".intercalate key.names

/-- Each name with its option. -/
def named : List (String × OptionKey) := all.flatMap fun key => key.names.map (·, key)

/-- The option of a name. -/
def ofName? (name : String) : Option OptionKey := named.lookup name

end OptionKey

end ImportAtlas.CommandLine
