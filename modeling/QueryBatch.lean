import QueryBatch.Main
import QueryBatch.Proofs.Batch.Aborted
import QueryBatch.Proofs.Batch.Accounted
import QueryBatch.Proofs.Batch.Alone
import QueryBatch.Proofs.Batch.Blamed
import QueryBatch.Proofs.Batch.Clean
import QueryBatch.Proofs.Batch.Compiled
import QueryBatch.Proofs.Batch.Ended
import QueryBatch.Proofs.Batch.Filed
import QueryBatch.Proofs.Batch.Fixes
import QueryBatch.Proofs.Batch.Gathered
import QueryBatch.Proofs.Batch.Identified
import QueryBatch.Proofs.Batch.Inserted
import QueryBatch.Proofs.Batch.Located
import QueryBatch.Proofs.Batch.MinimalText
import QueryBatch.Proofs.Batch.Missing
import QueryBatch.Proofs.Batch.Permuted
import QueryBatch.Proofs.Batch.Recompiled
import QueryBatch.Proofs.Batch.Reordered
import QueryBatch.Proofs.Batch.Rootless
import QueryBatch.Proofs.Batch.Settled
import QueryBatch.Proofs.Batch.Silent
import QueryBatch.Proofs.Batch.Typing
import QueryBatch.Proofs.Batch.Validation
import QueryBatch.Proofs.Closure
import QueryBatch.Proofs.Document.Canonical
import QueryBatch.Proofs.Document.Closed
import QueryBatch.Proofs.Document.Heads
import QueryBatch.Proofs.Document.Lexemes
import QueryBatch.Proofs.Document.Names
import QueryBatch.Proofs.Document.Nesting
import QueryBatch.Proofs.Document.Outline
import QueryBatch.Proofs.Document.Respanned
import QueryBatch.Proofs.Document.Searches
import QueryBatch.Proofs.Document.Spans
import QueryBatch.Proofs.Document.Traversal
import QueryBatch.Proofs.Document.WellFormed
import QueryBatch.Proofs.Location
import QueryBatch.Proofs.Parse.Costs
import QueryBatch.Proofs.Parse.Draws
import QueryBatch.Proofs.Parse.Ends
import QueryBatch.Proofs.Parse.Keeps
import QueryBatch.Proofs.Parse.Layout
import QueryBatch.Proofs.Parse.Limits
import QueryBatch.Proofs.Parse.Loops
import QueryBatch.Proofs.Parse.Places
import QueryBatch.Proofs.Parse.Reads
import QueryBatch.Proofs.Parse.ReadsSchema
import QueryBatch.Proofs.Parse.Runs
import QueryBatch.Proofs.Parse.Steps
import QueryBatch.Proofs.Parse.Types
import QueryBatch.Proofs.Parse.Yields
import QueryBatch.Proofs.Registry
import QueryBatch.Proofs.Registry.History
import QueryBatch.Proofs.RoundTrip
import QueryBatch.Proofs.Rules.Bare
import QueryBatch.Proofs.Rules.Clashes
import QueryBatch.Proofs.Rules.Comparisons
import QueryBatch.Proofs.Rules.Context
import QueryBatch.Proofs.Rules.Cycles
import QueryBatch.Proofs.Rules.Embedding
import QueryBatch.Proofs.Rules.Expansion
import QueryBatch.Proofs.Rules.Fixes
import QueryBatch.Proofs.Rules.Grounded
import QueryBatch.Proofs.Rules.Inheritance
import QueryBatch.Proofs.Rules.Kinds
import QueryBatch.Proofs.Rules.Mergeable
import QueryBatch.Proofs.Rules.Moved
import QueryBatch.Proofs.Rules.Names
import QueryBatch.Proofs.Rules.Overlap
import QueryBatch.Proofs.Rules.Positions
import QueryBatch.Proofs.Rules.Reachable
import QueryBatch.Proofs.Rules.Recast
import QueryBatch.Proofs.Rules.Shuffled
import QueryBatch.Proofs.Rules.Spans
import QueryBatch.Proofs.Rules.Subjectwise
import QueryBatch.Proofs.Rules.Subtypes
import QueryBatch.Proofs.Rules.Typing
import QueryBatch.Proofs.Rules.Usages
import QueryBatch.Proofs.Rules.Variables
import QueryBatch.Proofs.Schema.Additions
import QueryBatch.Proofs.Schema.Built
import QueryBatch.Proofs.Schema.Declarations
import QueryBatch.Proofs.Schema.Entries
import QueryBatch.Proofs.Schema.Kinds
import QueryBatch.Proofs.Schema.Notation
import QueryBatch.Proofs.Schema.Sources
import QueryBatch.Proofs.StaticId
import QueryBatch.Proofs.Text.BlockValue
import QueryBatch.Proofs.Text.Closest
import QueryBatch.Proofs.Text.EditDistance
import QueryBatch.Proofs.Text.Escapes
import QueryBatch.Proofs.Text.KebabCase
import QueryBatch.Proofs.Text.LetterCase
import QueryBatch.Proofs.Text.Number
import QueryBatch.Proofs.Text.Quoted
import QueryBatch.Proofs.Text.Words
import QueryBatch.Proofs.Token.Closing
import QueryBatch.Proofs.Token.Cut
import QueryBatch.Proofs.Token.Lexeme
import QueryBatch.Proofs.Token.Loop
import QueryBatch.Proofs.Token.Pattern
import QueryBatch.Proofs.Token.Place
import QueryBatch.Proofs.Token.Printed
import QueryBatch.Proofs.Token.Values
import QueryBatch.Proofs.TypeRef
