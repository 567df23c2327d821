import SqlMigration.Cloud.Request
import SqlMigration.Cloud.Service
import SqlMigration.Cloud.Storage
import SqlMigration.CommandLine.Arguments
import SqlMigration.CommandLine.Command
import SqlMigration.CommandLine.Opt
import SqlMigration.CommandLine.PathCheck
import SqlMigration.Conversion
import SqlMigration.Document.Calendar
import SqlMigration.Document.Json
import SqlMigration.Document.Layout
import SqlMigration.Document.Literal
import SqlMigration.Document.Value
import SqlMigration.Files.Action
import SqlMigration.Files.Disk
import SqlMigration.Files.Fault
import SqlMigration.Files.Path
import SqlMigration.Files.Tree
import SqlMigration.Job.Batch
import SqlMigration.Job.Credentials
import SqlMigration.Job.Event
import SqlMigration.Job.Failure
import SqlMigration.Job.Given
import SqlMigration.Job.Loading
import SqlMigration.Job.Processing
import SqlMigration.Job.Transfer
import SqlMigration.Job.World
import SqlMigration.Macro.Escape
import SqlMigration.Macro.Expansion
import SqlMigration.Macro.Glob
import SqlMigration.Macro.Macros
import SqlMigration.Main
import SqlMigration.Message
import SqlMigration.NameMapping
import SqlMigration.Number.Double
import SqlMigration.Number.Numeral
import SqlMigration.Number.Shortest
import SqlMigration.Proofs.Cloud.Neat
import SqlMigration.Proofs.Cloud.Service
import SqlMigration.Proofs.Cloud.Storage
import SqlMigration.Proofs.Effect
import SqlMigration.Proofs.Files.Absolute
import SqlMigration.Proofs.Files.Acts
import SqlMigration.Proofs.Files.Joined
import SqlMigration.Proofs.Files.Laid
import SqlMigration.Proofs.Files.Lookup
import SqlMigration.Proofs.Files.PathText
import SqlMigration.Proofs.Files.Trees
import SqlMigration.Proofs.Files.Twin
import SqlMigration.Proofs.Job.Layout
import SqlMigration.Proofs.Job.Leftovers
import SqlMigration.Proofs.Job.Paired
import SqlMigration.Proofs.Job.Pipeline
import SqlMigration.Proofs.Job.Polling
import SqlMigration.Proofs.Job.Processing
import SqlMigration.Proofs.Job.Transfer
import SqlMigration.Proofs.Job.Walk
import SqlMigration.Proofs.Macro.Merging
import SqlMigration.Proofs.Macro.RoundTrip
import SqlMigration.Proofs.Macro.Segments
import SqlMigration.Proofs.Tables
import SqlMigration.Proofs.Text.Codes
import SqlMigration.Proofs.Text.Utf8
import SqlMigration.Schema.Field
import SqlMigration.Schema.Report
import SqlMigration.Settings
import SqlMigration.Table
import SqlMigration.Text.Blank
import SqlMigration.Text.Codes
import SqlMigration.Text.Digit
import SqlMigration.Text.Lowercase
import SqlMigration.Text.Newline
import SqlMigration.Text.Printable
import SqlMigration.Text.Quoted
import SqlMigration.Text.Runs
import SqlMigration.Text.Supply
import SqlMigration.Text.Utf8
import SqlMigration.Yaml.Cursor
import SqlMigration.Yaml.Document
import SqlMigration.Yaml.Fault
import SqlMigration.Yaml.Graph
import SqlMigration.Yaml.Lexeme
import SqlMigration.Yaml.Scalar
import SqlMigration.Yaml.Tag
import SqlMigration.Yaml.Token
import SqlMigration.Yaml.TokenStream
import SqlMigration.Proofs.Files.Passage
import SqlMigration.Proofs.Files.Removal
import SqlMigration.Proofs.CommandLine.Reading
import SqlMigration.Proofs.Files.Making
import SqlMigration.Proofs.Files.Setting
import SqlMigration.Proofs.Job.RoundTrip
import SqlMigration.Proofs.Job.Confinement
import SqlMigration.Proofs.Job.Order
import SqlMigration.Proofs.CommandLine.Documents
import SqlMigration.Proofs.CommandLine.Clearance
import SqlMigration.Proofs.Job.Separation
import SqlMigration.Proofs.Job.Verbatim
import SqlMigration.Proofs.Job.Image
import SqlMigration.Proofs.Macro.SinglePass
import SqlMigration.Proofs.Files.Attempts
import SqlMigration.Proofs.Job.Interruption
import SqlMigration.Proofs.Job.Deadline
import SqlMigration.Proofs.Job.Overlay
import SqlMigration.Proofs.Job.Retrieval
import SqlMigration.Proofs.Job.Reach
import SqlMigration.Proofs.Macro.Precedence
import SqlMigration.Proofs.Macro.Scans
import SqlMigration.Proofs.Job.Markers
import SqlMigration.Proofs.Document.Parts
import SqlMigration.Proofs.Macro.Selection
import SqlMigration.Proofs.Schema.Checks
import SqlMigration.Proofs.Schema.Records
import SqlMigration.Proofs.Document.Heaps
import SqlMigration.Proofs.Document.JsonParts
import SqlMigration.Proofs.Schema.Reports
import SqlMigration.Proofs.Schema.KeyOrder
import SqlMigration.Proofs.Yaml.Keys
import SqlMigration.Proofs.Job.Formats
import SqlMigration.Proofs.Settings
import SqlMigration.Proofs.NameMapping
import SqlMigration.Proofs.Macro.Documents
import SqlMigration.Proofs.Files.Erasure
import SqlMigration.Proofs.CommandLine.OutputPath
