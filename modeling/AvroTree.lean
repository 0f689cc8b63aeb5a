import AvroTree.Benchmark.MiddleEdit
import AvroTree.Benchmark.Result
import AvroTree.Benchmark.Run
import AvroTree.Benchmark.Times
import AvroTree.Benchmark.Timestamp
import AvroTree.Cli.Arguments
import AvroTree.Cli.Command
import AvroTree.Cli.Report
import AvroTree.Cli.Run
import AvroTree.Cli.TokenList
import AvroTree.Diagnostic
import AvroTree.Files.Disk
import AvroTree.Files.Host
import AvroTree.Files.Path
import AvroTree.Grammar.Avro
import AvroTree.Grammar.Basic
import AvroTree.Grammar.Export
import AvroTree.Grammar.First
import AvroTree.Grammar.Overlap
import AvroTree.Grammar.Rule
import AvroTree.Grammar.Validate
import AvroTree.Json.Printer
import AvroTree.Json.Reader
import AvroTree.Json.Settings
import AvroTree.Json.Value
import AvroTree.Lexer.Config
import AvroTree.Lexer.Cursor
import AvroTree.Lexer.JsonValue
import AvroTree.Lexer.Literal
import AvroTree.Lexer.Reading
import AvroTree.Lexer.Relex
import AvroTree.Lexer.Scan
import AvroTree.Lexer.State
import AvroTree.Lexer.Stream
import AvroTree.Main
import AvroTree.Parse.Config
import AvroTree.Parse.Idl
import AvroTree.Parse.Parser
import AvroTree.Parse.Schema
import AvroTree.Parse.Session
import AvroTree.Parse.Tree
import AvroTree.Proofs.Acceptance
import AvroTree.Proofs.Advancing
import AvroTree.Proofs.Attempts
import AvroTree.Proofs.Balance
import AvroTree.Proofs.Building
import AvroTree.Proofs.Completeness
import AvroTree.Proofs.Constructs
import AvroTree.Proofs.Contexts
import AvroTree.Proofs.Counterparts
import AvroTree.Proofs.Cursors
import AvroTree.Proofs.Depths
import AvroTree.Proofs.Derivations
import AvroTree.Proofs.Deriving
import AvroTree.Proofs.Editing
import AvroTree.Proofs.Elements
import AvroTree.Proofs.Extending
import AvroTree.Proofs.Finishing
import AvroTree.Proofs.FirstSets
import AvroTree.Proofs.FirstTokens
import AvroTree.Proofs.Following
import AvroTree.Proofs.Foresight
import AvroTree.Proofs.Frontiers
import AvroTree.Proofs.Gaps
import AvroTree.Proofs.Growth
import AvroTree.Proofs.IdlMirroring
import AvroTree.Proofs.IdlRunning
import AvroTree.Proofs.IdlTaking
import AvroTree.Proofs.Insertion
import AvroTree.Proofs.Isolation
import AvroTree.Proofs.JsonGrammar
import AvroTree.Proofs.JsonLocality
import AvroTree.Proofs.JsonSpans
import AvroTree.Proofs.Likeness
import AvroTree.Proofs.Limits
import AvroTree.Proofs.Locality
import AvroTree.Proofs.Lockstep
import AvroTree.Proofs.Lossless
import AvroTree.Proofs.Making
import AvroTree.Proofs.Metering
import AvroTree.Proofs.Munching
import AvroTree.Proofs.Nesting
import AvroTree.Proofs.NodeLayout
import AvroTree.Proofs.Padding
import AvroTree.Proofs.Partition
import AvroTree.Proofs.Places
import AvroTree.Proofs.Positions
import AvroTree.Proofs.Relexing
import AvroTree.Proofs.Relocation
import AvroTree.Proofs.Rendering
import AvroTree.Proofs.Reparsing
import AvroTree.Proofs.Resuming
import AvroTree.Proofs.Retracing
import AvroTree.Proofs.Running
import AvroTree.Proofs.Scanning
import AvroTree.Proofs.SchemaReading
import AvroTree.Proofs.SchemaRunning
import AvroTree.Proofs.SchemaTaking
import AvroTree.Proofs.SchemaText
import AvroTree.Proofs.Sessions
import AvroTree.Proofs.Settling
import AvroTree.Proofs.Shaping
import AvroTree.Proofs.Shifting
import AvroTree.Proofs.Soundness
import AvroTree.Proofs.Spacing
import AvroTree.Proofs.Spelling
import AvroTree.Proofs.Standing
import AvroTree.Proofs.StateBytes
import AvroTree.Proofs.Taking
import AvroTree.Proofs.Tallies
import AvroTree.Proofs.Termination
import AvroTree.Proofs.TokenShape
import AvroTree.Proofs.TreeOrder
import AvroTree.Proofs.TreeShape
import AvroTree.Proofs.TreeTallies
import AvroTree.Proofs.Validation
import AvroTree.Proofs.Wanting
import AvroTree.Proofs.Windows
import AvroTree.Text.Alphabetic
import AvroTree.Text.Bytes
import AvroTree.Text.CharClass
import AvroTree.Text.Edit
import AvroTree.Text.Layout
import AvroTree.Text.Lowercase
import AvroTree.Text.Point
import AvroTree.Text.Printable
import AvroTree.Text.Quoted
import AvroTree.Text.Ranges
import AvroTree.Token.Basic
import AvroTree.Token.Export
import AvroTree.Token.Keyword
import AvroTree.Token.Kind
import AvroTree.Token.Set
import AvroTree.Tree.Check
import AvroTree.Tree.Node
import AvroTree.Tree.NodeKind
import AvroTree.Tree.Render
