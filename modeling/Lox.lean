import Lox.Binding.Distance
import Lox.Binding.Resolve
import Lox.Command
import Lox.Machine.Basic
import Lox.Machine.Fault
import Lox.Machine.Frames
import Lox.Machine.Output
import Lox.Machine.Run
import Lox.Machine.Store
import Lox.Machine.Value
import Lox.Main
import Lox.Number.Binary
import Lox.Number.Shortest
import Lox.Number.Text
import Lox.Parser.Basic
import Lox.Parser.Expression
import Lox.Parser.Statement
import Lox.Proofs.Execution.Calls
import Lox.Proofs.Execution.Frames
import Lox.Proofs.Lexical.Agreement
import Lox.Proofs.Lexical.Declarations
import Lox.Proofs.Lexical.Evaluator
import Lox.Proofs.Lexical.Lockstep
import Lox.Proofs.Lexical.Operations
import Lox.Proofs.Lexical.Position
import Lox.Proofs.Lexical.Relation
import Lox.Proofs.Scoping.Places
import Lox.Report
import Lox.Session
import Lox.Source
import Lox.Table
import Lox.Text.Quoted
import Lox.Text.Unprintable
import Lox.Text.Utf8
import Lox.Token.Basic
import Lox.Token.Scan
import Lox.Token.Serial
import Lox.Tree.Basic
import Lox.Tree.Text
import Lox.Proofs.Lexical.Moments
import Lox.Proofs.Parser.Grammar
import Lox.Proofs.Tree.Marks
import Lox.Proofs.Parser.SoundExpressions
import Lox.Proofs.Parser.SoundStatements
import Lox.Proofs.Parser.CompleteExpressions
import Lox.Proofs.Parser.CompleteStatements
import Lox.Proofs.Parser.Exact
import Lox.Proofs.Token.Words
import Lox.Proofs.Scoping.Formed
import Lox.Proofs.Scoping.Resolution
import Lox.Proofs.Lexical.Programs
import Lox.Proofs.Session.History
import Lox.Proofs.Session.Steady
import Lox.Proofs.Session.Distances
import Lox.Proofs.Session.Refinement
import Lox.Proofs.Execution.Plain
import Lox.Proofs.Execution.Changes
import Lox.Proofs.Execution.Activations
import Lox.Proofs.Session.Restoration
import Lox.Proofs.Execution.Slots
import Lox.Proofs.Scoping.Returns
import Lox.Proofs.Session.Unreachable
import Lox.Proofs.Tree.Renaming
import Lox.Proofs.Execution.Renaming
import Lox.Proofs.Execution.Fuel
import Lox.Proofs.Parser.Renaming
import Lox.Proofs.Scoping.Indexing
import Lox.Proofs.Scoping.Renaming
import Lox.Proofs.Token.Pieces
import Lox.Proofs.Session.Steps
import Lox.Proofs.Session.StaticErrors
import Lox.Proofs.Session.Pieces
import Lox.Proofs.Session.Layout
import Lox.Proofs.Tree.Loops
import Lox.Proofs.Execution.Termination
import Lox.Proofs.Session.Loopless
import Lox.Proofs.Token.Grammar
import Lox.Proofs.Token.Exact
import Lox.Proofs.Parser.Identities
import Lox.Proofs.Session.Identities
import Lox.Proofs.Scoping.Rules
import Lox.Proofs.Scoping.Violations
import Lox.Proofs.Execution.Truncation
import Lox.Proofs.Session.ClosedOutput
import Lox.Proofs.Tree.Receivers
import Lox.Proofs.Session.Evaluation
import Lox.Proofs.Execution.References
import Lox.Proofs.Execution.Links
import Lox.Proofs.Session.Heap
import Lox.Proofs.Scoping.Nesting
import Lox.Proofs.Scoping.Markers
import Lox.Proofs.Scoping.Recorded
import Lox.Proofs.Parser.Cursor
import Lox.Proofs.Parser.Mirroring
import Lox.Proofs.Parser.Indexing
import Lox.Proofs.Parser.Loose
import Lox.Proofs.Parser.Expectation
import Lox.Proofs.Parser.BlameExpressions
import Lox.Proofs.Parser.BlameStatements
import Lox.Proofs.Parser.FirstError
import Lox.Proofs.Parser.Embedding
import Lox.Proofs.Parser.Isolation
import Lox.Proofs.Parser.Composition
import Lox.Proofs.Execution.Tables
import Lox.Proofs.Execution.Initializers
import Lox.Proofs.Session.Construction
import Lox.Proofs.Lexical.Fuel
import Lox.Proofs.Lexical.Blocks
import Lox.Proofs.Lexical.ForLoops
import Lox.Proofs.Session.ForLoops
import Lox.Proofs.Execution.Endings
import Lox.Proofs.Execution.Order
import Lox.Proofs.Execution.Origins
import Lox.Proofs.Scoping.Methods
import Lox.Proofs.Session.Origins
import Lox.Proofs.Session.Dispatch
import Lox.Proofs.Execution.Search
import Lox.Proofs.Token.Lines
import Lox.Proofs.Token.Rescanning
import Lox.Proofs.Execution.Properties
import Lox.Proofs.Session.Properties
import Lox.Proofs.Number.Neighbours
import Lox.Proofs.Number.Texts
import Lox.Proofs.Tree.Brackets
import Lox.Proofs.Tree.Printable
import Lox.Proofs.Parser.Printing
