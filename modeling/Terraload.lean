import Terraload.Main
import Terraload.Proofs.Text
import Terraload.Proofs.Members
import Terraload.Proofs.Session.Edit
import Terraload.Proofs.Session.Change
import Terraload.Proofs.Session.Pairing
import Terraload.Proofs.Hcl.Opening
import Terraload.Proofs.Json.Opening
import Terraload.Proofs.Encoding
import Terraload.Proofs.Parser.Exclusive
import Terraload.Proofs.Json.Grammar
import Terraload.Proofs.Json.Number
import Terraload.Proofs.Json.Reading
import Terraload.Proofs.Json.Halting
import Terraload.Proofs.Hcl.Redefinition
import Terraload.Proofs.Hcl.Run
import Terraload.Proofs.Parser.Contract
import Terraload.Proofs.Hcl.Operand
import Terraload.Proofs.Hcl.Plain
import Terraload.Proofs.Hcl.PlainReading
import Terraload.Proofs.Hcl.Entries
import Terraload.Proofs.Hcl.PlainDocument
import Terraload.Proofs.Parser.Agreement
import Terraload.Proofs.CanonicalKey
import Terraload.Proofs.Session.Counting
import Terraload.Proofs.Session.Independence
import Terraload.Proofs.FileSystem.Readable
import Terraload.Proofs.FileSystem.Relative
import Terraload.Proofs.Session.TemplateKey
import Terraload.Proofs.Session.Diagnostics
import Terraload.Proofs.Hcl.Declaration
import Terraload.Proofs.Hcl.Gathering
import Terraload.Proofs.Hcl.Lines
import Terraload.Proofs.Parser.Declarations
import Terraload.Proofs.Hcl.Scalar
import Terraload.Proofs.Number.Hexadecimal
import Terraload.Proofs.Parser.Scalars
import Terraload.Proofs.Session.LoadedState
import Terraload.Proofs.Session.Growth
import Terraload.Proofs.Command.Loading
import Terraload.Proofs.Command.LoadedVerdict
import Terraload.Proofs.Command.FailFast
import Terraload.Proofs.Json.Writing
import Terraload.Proofs.Json.Surrogates
import Terraload.Proofs.Json.Parts
import Terraload.Proofs.Validation
import Terraload.Proofs.Settings.Origin
import Terraload.Proofs.Session.KeyOrigin
import Terraload.Proofs.State
import Terraload.Proofs.Schema
import Terraload.Proofs.State.Schema
import Terraload.Proofs.State.RoundTrip
import Terraload.Proofs.Json.Insertion
import Terraload.Proofs.State.UnknownMembers
import Terraload.Proofs.Summary
import Terraload.Proofs.Command.Arguments
import Terraload.Proofs.Command.PrintedSummary
import Terraload.Proofs.Json.Printable
import Terraload.Proofs.Journal
import Terraload.Proofs.Command.SummaryForms
import Terraload.Proofs.Wildcard
import Terraload.Proofs.FileSystem.Searching
import Terraload.Proofs.Session.FirstFailure
import Terraload.Proofs.FileSystem.Tree
import Terraload.Proofs.FileSystem.Building
import Terraload.Proofs.FileSystem.Descent
import Terraload.Proofs.FileSystem.Cleaning
import Terraload.Proofs.FileSystem.Difference
import Terraload.Proofs.FileSystem.Discovery
import Terraload.Proofs.FileSystem.Escaped
import Terraload.Proofs.FileSystem.DeepSearch
import Terraload.Proofs.FileSystem.Doubled
import Terraload.Proofs.FileSystem.Spelling
import Terraload.Proofs.FileSystem.Distinct
import Terraload.Proofs.FileSystem.Links
import Terraload.Proofs.FileSystem.Normalized
import Terraload.Proofs.Session.ModuleFiles
import Terraload.Proofs.Session.ModuleKey
import Terraload.Proofs.Session.StateSource
import Terraload.Proofs.Session.Workspace
import Terraload.Proofs.Session.Overrides
import Terraload.Proofs.Session.Repetition
import Terraload.Proofs.Session.DirectoryFiles
import Terraload.Proofs.Session.ModuleCollision
import Terraload.Proofs.FileSystem.Reordered
import Terraload.Proofs.Session.ListingOrder
import Terraload.Proofs.Session.Sequence
import Terraload.Proofs.Session.SplitOverrides
import Terraload.Proofs.Settings.Resolution
import Terraload.Proofs.Session.StateCompletion
import Terraload.Proofs.Parser.Fallback
import Terraload.Proofs.Store
import Terraload.Proofs.Command.Reading
import Terraload.Proofs.Command.ModuleValues
import Terraload.Proofs.Session.SameReading
