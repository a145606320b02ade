import ChangeCapture.Action
import ChangeCapture.Cache
import ChangeCapture.Calendar
import ChangeCapture.Catalog
import ChangeCapture.Change
import ChangeCapture.Change.Assembly
import ChangeCapture.Change.Images
import ChangeCapture.Change.Row
import ChangeCapture.Change.Vector
import ChangeCapture.Chunk
import ChangeCapture.Column
import ChangeCapture.Config
import ChangeCapture.Config.Lines
import ChangeCapture.DataType
import ChangeCapture.Decimal.Binary
import ChangeCapture.Decimal.Fixed
import ChangeCapture.Decimal.Positional
import ChangeCapture.Decimal.Shortest
import ChangeCapture.Decimal.Wide
import ChangeCapture.Dictionary
import ChangeCapture.Entry
import ChangeCapture.Entry.Reader
import ChangeCapture.EntryKind
import ChangeCapture.Evolution
import ChangeCapture.Failure
import ChangeCapture.Field
import ChangeCapture.FileHeader
import ChangeCapture.Gate
import ChangeCapture.Image
import ChangeCapture.Image.Number
import ChangeCapture.Image.Temporal
import ChangeCapture.Include
import ChangeCapture.Json
import ChangeCapture.Json.Members
import ChangeCapture.Json.Reader
import ChangeCapture.Json.Writer
import ChangeCapture.LogStream
import ChangeCapture.LogStream.Desk
import ChangeCapture.LogStream.Processing
import ChangeCapture.LogStream.Records
import ChangeCapture.LogStream.Session
import ChangeCapture.Parts
import ChangeCapture.Position
import ChangeCapture.Power
import ChangeCapture.Proofs.Abreast
import ChangeCapture.Proofs.Accounts
import ChangeCapture.Proofs.Admission
import ChangeCapture.Proofs.Adoption
import ChangeCapture.Proofs.BatchSizes
import ChangeCapture.Proofs.ChosenTables
import ChangeCapture.Proofs.Conflicts
import ChangeCapture.Proofs.Courses
import ChangeCapture.Proofs.Declarations
import ChangeCapture.Proofs.Decoding
import ChangeCapture.Proofs.Draining
import ChangeCapture.Proofs.Effects
import ChangeCapture.Proofs.EitherOrder
import ChangeCapture.Proofs.EncodedOrder
import ChangeCapture.Proofs.Evolutions
import ChangeCapture.Proofs.Fatal
import ChangeCapture.Proofs.Flow
import ChangeCapture.Proofs.Footprint
import ChangeCapture.Proofs.Framing
import ChangeCapture.Proofs.Growth
import ChangeCapture.Proofs.Hierarchy
import ChangeCapture.Proofs.InPlace
import ChangeCapture.Proofs.InlineColumns
import ChangeCapture.Proofs.IntervalTexts
import ChangeCapture.Proofs.Isolation
import ChangeCapture.Proofs.Iteration
import ChangeCapture.Proofs.Learning
import ChangeCapture.Proofs.Ledger
import ChangeCapture.Proofs.MergedRuns
import ChangeCapture.Proofs.Merging
import ChangeCapture.Proofs.NumberColumns
import ChangeCapture.Proofs.NumberForms
import ChangeCapture.Proofs.NumberImages
import ChangeCapture.Proofs.Overlooking
import ChangeCapture.Proofs.Pausing
import ChangeCapture.Proofs.Payloads
import ChangeCapture.Proofs.Phases
import ChangeCapture.Proofs.Pieces
import ChangeCapture.Proofs.Places
import ChangeCapture.Proofs.Precedence
import ChangeCapture.Proofs.Reading
import ChangeCapture.Proofs.Redefinitions
import ChangeCapture.Proofs.Requests
import ChangeCapture.Proofs.Resuming
import ChangeCapture.Proofs.RowKeys
import ChangeCapture.Proofs.RowSlots
import ChangeCapture.Proofs.SchemaOrdinals
import ChangeCapture.Proofs.Selection
import ChangeCapture.Proofs.Shadowing
import ChangeCapture.Proofs.Similarity
import ChangeCapture.Proofs.Steps
import ChangeCapture.Proofs.Succession
import ChangeCapture.Proofs.Summary
import ChangeCapture.Proofs.TableNames
import ChangeCapture.Proofs.Tallies
import ChangeCapture.Proofs.Termination
import ChangeCapture.Proofs.TimeImages
import ChangeCapture.Proofs.Trails
import ChangeCapture.Proofs.TransactionRuns
import ChangeCapture.Proofs.Truncation
import ChangeCapture.Proofs.Utf8Texts
import ChangeCapture.Proofs.Versions
import ChangeCapture.Proofs.Views
import ChangeCapture.Proofs.WideTexts
import ChangeCapture.Record
import ChangeCapture.Record.Reader
import ChangeCapture.Registry
import ChangeCapture.Schema.Cache
import ChangeCapture.Schema.Reader
import ChangeCapture.Source
import ChangeCapture.Tag
import ChangeCapture.Text.Blank
import ChangeCapture.Text.DecimalDigit
import ChangeCapture.Text.Hex
import ChangeCapture.Text.Numeral
import ChangeCapture.Text.Utf16
import ChangeCapture.Text.Utf8
import ChangeCapture.Timestamp
import ChangeCapture.Timestamp.Reader
import ChangeCapture.Transaction
import ChangeCapture.TypeSpec
import ChangeCapture.Warning
