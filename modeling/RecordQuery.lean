import RecordQuery.Binary64
import RecordQuery.Check
import RecordQuery.CommandLine.Arguments
import RecordQuery.CommandLine.Run
import RecordQuery.Decimal
import RecordQuery.Json.Basic
import RecordQuery.Json.Printer
import RecordQuery.Json.Reader
import RecordQuery.Json.Token
import RecordQuery.Limits
import RecordQuery.Limits.Text
import RecordQuery.Main
import RecordQuery.Manual
import RecordQuery.Numeral
import RecordQuery.Outcome
import RecordQuery.Proofs.Admission
import RecordQuery.Proofs.Broadcasts
import RecordQuery.Proofs.CanonicalForm
import RecordQuery.Proofs.Causes
import RecordQuery.Proofs.Comparisons
import RecordQuery.Proofs.CompatibleSchemas
import RecordQuery.Proofs.Conformance
import RecordQuery.Proofs.Connectives
import RecordQuery.Proofs.Declarations
import RecordQuery.Proofs.DocumentFaults
import RecordQuery.Proofs.Documents
import RecordQuery.Proofs.Elementwise
import RecordQuery.Proofs.Equality
import RecordQuery.Proofs.ExactValues
import RecordQuery.Proofs.Faults
import RecordQuery.Proofs.Folding
import RecordQuery.Proofs.Grammar
import RecordQuery.Proofs.Kinds
import RecordQuery.Proofs.Meaning
import RecordQuery.Proofs.Membership
import RecordQuery.Proofs.Mirroring
import RecordQuery.Proofs.Modes
import RecordQuery.Proofs.Narrowing
import RecordQuery.Proofs.NullFields
import RecordQuery.Proofs.Pairs
import RecordQuery.Proofs.Parallel
import RecordQuery.Proofs.PartialEquivalence
import RecordQuery.Proofs.Parts
import RecordQuery.Proofs.Pointers
import RecordQuery.Proofs.Points
import RecordQuery.Proofs.Postorder
import RecordQuery.Proofs.Precedence
import RecordQuery.Proofs.Reading
import RecordQuery.Proofs.Reordering
import RecordQuery.Proofs.Replacement
import RecordQuery.Proofs.Representation
import RecordQuery.Proofs.RoundTrips
import RecordQuery.Proofs.Rounding
import RecordQuery.Proofs.Route
import RecordQuery.Proofs.SchemaPaths
import RecordQuery.Proofs.Traversal
import RecordQuery.Proofs.Typing
import RecordQuery.Proofs.Undeclared
import RecordQuery.Proofs.Values
import RecordQuery.Proofs.Verdicts
import RecordQuery.Proofs.Violations
import RecordQuery.Proofs.Visits
import RecordQuery.Proofs.WholePart
import RecordQuery.Proofs.WrittenForm
import RecordQuery.Query.Basic
import RecordQuery.Query.Decision
import RecordQuery.Query.Error
import RecordQuery.Query.Evaluation
import RecordQuery.Query.Operator
import RecordQuery.Query.Path
import RecordQuery.Query.Wire
import RecordQuery.Schema.Basic
import RecordQuery.Schema.Conformance
import RecordQuery.Schema.Reader
import RecordQuery.Value.Basic
import RecordQuery.Value.Json
import RecordQuery.Value.Order
