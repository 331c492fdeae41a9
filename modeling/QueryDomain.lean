import QueryDomain.Binary64.Basic
import QueryDomain.Binary64.Decimal
import QueryDomain.Binary64.Rounding
import QueryDomain.Binary64.Scaling
import QueryDomain.Calendar.Basic
import QueryDomain.Calendar.Reader
import QueryDomain.Command
import QueryDomain.Domain.Algebra
import QueryDomain.Domain.Basic
import QueryDomain.Domain.Prefix
import QueryDomain.Domain.Term
import QueryDomain.Domain.Wire
import QueryDomain.Error
import QueryDomain.Event
import QueryDomain.FieldType
import QueryDomain.Invocation
import QueryDomain.Json.Basic
import QueryDomain.Json.Document
import QueryDomain.Json.Number
import QueryDomain.Level
import QueryDomain.Main
import QueryDomain.Operator
import QueryDomain.Optimization.Context
import QueryDomain.Optimization.Days
import QueryDomain.Optimization.Hierarchy
import QueryDomain.Optimization.Literals
import QueryDomain.Optimization.Merging
import QueryDomain.Optimization.Optimizer
import QueryDomain.Optimization.Readiness
import QueryDomain.Optimization.Registry
import QueryDomain.Optimization.Relations
import QueryDomain.Optimization.Vocabulary
import QueryDomain.Records.Matching
import QueryDomain.Records.Pattern
import QueryDomain.Report
import QueryDomain.Run
import QueryDomain.Schema.Catalog
import QueryDomain.Schema.Entity
import QueryDomain.Schema.Field
import QueryDomain.Schema.Reader
import QueryDomain.Sql.Dialect
import QueryDomain.Sql.Lowering
import QueryDomain.Sql.Piece
import QueryDomain.Sql.Predicate
import QueryDomain.Text.Basic
import QueryDomain.Text.CaseTable
import QueryDomain.Text.Lowercase
import QueryDomain.Value
import QueryDomain.ValueSet
import QueryDomain.Proofs.Domain.Valuation
import QueryDomain.Proofs.Optimization.Driver
import QueryDomain.Proofs.Optimization.Meaning
import QueryDomain.Proofs.Domain.Canonical
import QueryDomain.Proofs.Optimization.Merging
import QueryDomain.Proofs.Domain.Marks
import QueryDomain.Proofs.Domain.Unmarked
import QueryDomain.Proofs.Optimization.Replacing
import QueryDomain.Proofs.Optimization.Blind
import QueryDomain.Proofs.Optimization.Keeping
import QueryDomain.Proofs.Optimization.Settled
import QueryDomain.Proofs.Optimization.FixedPoint
import QueryDomain.Proofs.Optimization.NormalForm
import QueryDomain.Proofs.Optimization.Depth
import QueryDomain.Proofs.Optimization.Cap
import QueryDomain.Proofs.Optimization.Shortcut
import QueryDomain.Proofs.Optimization.Exact
import QueryDomain.Proofs.Records.Truth
import QueryDomain.Proofs.Records.Merging
import QueryDomain.Proofs.Optimization.Assembled
import QueryDomain.Proofs.Records.Search
import QueryDomain.Proofs.Records.MergedRuns
import QueryDomain.Proofs.Records.ParentLinks
import QueryDomain.Proofs.Sql.Lowering
import QueryDomain.Proofs.Sql.Readiness
import QueryDomain.Proofs.Sql.Columns
import QueryDomain.Proofs.Sql.Comparison
import QueryDomain.Proofs.Sql.Storage
import QueryDomain.Proofs.Sql.Agreement
import QueryDomain.Proofs.Optimization.Invariant
import QueryDomain.Proofs.Schema.Demands
import QueryDomain.Proofs.Optimization.Budget
import QueryDomain.Proofs.Optimization.Answers
import QueryDomain.Proofs.Optimization.Endings
import QueryDomain.Proofs.Optimization.Rounds
import QueryDomain.Proofs.Optimization.Phases
import QueryDomain.Proofs.Optimization.Stages
import QueryDomain.Proofs.Optimization.Calm
import QueryDomain.Proofs.Optimization.Termination
import QueryDomain.Proofs.Schema.Naming
import QueryDomain.Proofs.Calendar.Reading
import QueryDomain.Proofs.Domain.Built
import QueryDomain.Proofs.Domain.Grammar
import QueryDomain.Proofs.Domain.Prefix
import QueryDomain.Proofs.Domain.Laws
import QueryDomain.Proofs.Domain.Wire
import QueryDomain.Proofs.Domain.RoundTrip
import QueryDomain.Proofs.Sql.Placeholders
import QueryDomain.Proofs.Sql.Fragments
import QueryDomain.Proofs.Sql.Shape
import QueryDomain.Proofs.Sql.Aliases
import QueryDomain.Proofs.Sql.Quoting
import QueryDomain.Proofs.Sql.Tokens
import QueryDomain.Proofs.Sql.Expression
import QueryDomain.Proofs.Optimization.Mirror
import QueryDomain.Proofs.Optimization.Acceptance
import QueryDomain.Proofs.Optimization.Combining
import QueryDomain.Proofs.Optimization.AskedFor
import QueryDomain.Proofs.Optimization.Vanishing
import QueryDomain.Proofs.Optimization.Unsearchable
import QueryDomain.Proofs.Records.Decided
import QueryDomain.Proofs.Domain.Leaves
import QueryDomain.Proofs.Records.Complement
import QueryDomain.Proofs.Records.Opposites
import QueryDomain.Proofs.Records.Selection
import QueryDomain.Proofs.Records.Days
import QueryDomain.Proofs.Records.Patterns
import QueryDomain.Proofs.Records.ParentPaths
import QueryDomain.Proofs.Optimization.Making
import QueryDomain.Proofs.Optimization.Links
import QueryDomain.Proofs.Optimization.Members
import QueryDomain.Proofs.Records.RelatedMembers
import QueryDomain.Proofs.Optimization.Printable
import QueryDomain.Proofs.Optimization.Printed
import QueryDomain.Proofs.Binary64.Order
import QueryDomain.Proofs.Binary64.Integers
import QueryDomain.Proofs.Domain.SetSteps
import QueryDomain.Proofs.Records.Numbers
