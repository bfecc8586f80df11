import ImportAtlas.Import.Find
import ImportAtlas.Json.Printer
import ImportAtlas.Json.Relaxed
import ImportAtlas.Glob.Match
import ImportAtlas.Graph.Cycle
import ImportAtlas.Graph.Drawing
import ImportAtlas.Graph.Export
import ImportAtlas.Graph.Reach
import ImportAtlas.Resolver
import ImportAtlas.Search.Walk
import ImportAtlas.Search.Tool
import ImportAtlas.Yaml.Token
import ImportAtlas.Scan
import ImportAtlas.Yaml.Node
import ImportAtlas.Text.Digit
import ImportAtlas.Yaml.Value
import ImportAtlas.Text.Printable
import ImportAtlas.Text.Quoted
import ImportAtlas.Search.Backend
import ImportAtlas.Settings
import ImportAtlas.CommandLine.Key
import ImportAtlas.CommandLine.Options
import ImportAtlas.CommandLine.Run
import ImportAtlas.Main
import ImportAtlas.Proofs.Graph.Canonical
import ImportAtlas.Proofs.Graph.Collecting
import ImportAtlas.Proofs.Graph.Building
import ImportAtlas.Proofs.Resolver.Memory
import ImportAtlas.Proofs.Scan.Ingest
import ImportAtlas.Proofs.Graph.Reachability
import ImportAtlas.Proofs.Graph.Scoping
import ImportAtlas.Proofs.Text.Splitting
import ImportAtlas.Proofs.Text.Encoding
import ImportAtlas.Proofs.Text.Decoding
import ImportAtlas.Proofs.Path.Naming
import ImportAtlas.Proofs.FileTree.Places
import ImportAtlas.Proofs.Scan.Entries
import ImportAtlas.Proofs.Pattern.Locality
import ImportAtlas.Proofs.Pattern.Scanning
import ImportAtlas.Proofs.Pattern.Language
import ImportAtlas.Proofs.Text.Runs
import ImportAtlas.Proofs.Search.Stretches
import ImportAtlas.Proofs.Search.Reading
import ImportAtlas.Proofs.Search.Matches
import ImportAtlas.Proofs.Import.Claiming
import ImportAtlas.Proofs.Import.Skimming
import ImportAtlas.Proofs.Import.Anchored
import ImportAtlas.Proofs.Import.Windows
import ImportAtlas.Proofs.Graph.Duality
import ImportAtlas.Proofs.Graph.Induced
import ImportAtlas.Proofs.Graph.DepthFirst
import ImportAtlas.Proofs.Graph.Closing
import ImportAtlas.Proofs.Graph.Cycles
import ImportAtlas.Proofs.Graph.Isolated
import ImportAtlas.Proofs.Graph.Outline
import ImportAtlas.Proofs.Graph.Drawing
import ImportAtlas.Proofs.Graph.Expanding
import ImportAtlas.Proofs.Graph.Blocks
import ImportAtlas.Proofs.Graph.Omitted
import ImportAtlas.Proofs.Scan.Covered
import ImportAtlas.Proofs.Resolver.Keys
import ImportAtlas.Proofs.Resolver.Snapshot
import ImportAtlas.Proofs.Scan.Keys
import ImportAtlas.Proofs.Json.Fields
import ImportAtlas.Proofs.Json.Lexemes
import ImportAtlas.Proofs.Json.Quotations
import ImportAtlas.Proofs.Json.Scalars
import ImportAtlas.Proofs.Alias.Chain
import ImportAtlas.Proofs.Alias.Loading
import ImportAtlas.Proofs.FileTree.Counting
import ImportAtlas.Proofs.Import.Calls
import ImportAtlas.Proofs.Import.CleanModule
import ImportAtlas.Proofs.Import.Statements
import ImportAtlas.Proofs.Import.StatementMatches
import ImportAtlas.Proofs.Import.WrittenStatements
import ImportAtlas.Proofs.Import.Greedy
import ImportAtlas.Proofs.Import.ModuleImports
import ImportAtlas.Proofs.Search.Spans
import ImportAtlas.Proofs.Import.Searched
import ImportAtlas.Proofs.Text.Replacing
import ImportAtlas.Proofs.Search.MatchedTexts
import ImportAtlas.Proofs.Import.Selection
import ImportAtlas.Proofs.Import.Filler
import ImportAtlas.Proofs.Import.CallMatches
import ImportAtlas.Proofs.Import.CommentedCalls
import ImportAtlas.Proofs.Import.Literals
import ImportAtlas.Proofs.Pattern.Preference
import ImportAtlas.Proofs.FileTree.Rewriting
import ImportAtlas.Proofs.Path.Ending
import ImportAtlas.Proofs.Alias.Endings
import ImportAtlas.Proofs.Json.Written
import ImportAtlas.Proofs.Json.Relaxing
import ImportAtlas.Proofs.FileTree.Listing
import ImportAtlas.Proofs.Alias.Matching
import ImportAtlas.Proofs.Glob.Alternation
import ImportAtlas.Proofs.CommandLine.FileKeys
import ImportAtlas.Proofs.Outcome
import ImportAtlas.Proofs.Pattern.Searching
import ImportAtlas.Proofs.Glob.Segments
import ImportAtlas.Proofs.Glob.Selecting
import ImportAtlas.Proofs.Glob.Continuing
import ImportAtlas.Proofs.FileTree.Pruning
import ImportAtlas.Proofs.Glob.NameGlobs
import ImportAtlas.Proofs.FileTree.Basenames
import ImportAtlas.Proofs.Import.LineReading
import ImportAtlas.Proofs.Json.Printing
import ImportAtlas.Proofs.Graph.Exporting
import ImportAtlas.Proofs.CommandLine.SettingsFile
