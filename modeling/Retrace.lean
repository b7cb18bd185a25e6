import Retrace.Choice
import Retrace.Command.Options
import Retrace.Command.Run
import Retrace.Command.Words
import Retrace.Digest
import Retrace.Expr.Basic
import Retrace.Expr.Build
import Retrace.Expr.Constant
import Retrace.Expr.Equality
import Retrace.Expr.Operator
import Retrace.Expr.Order
import Retrace.Expr.Printer
import Retrace.Expr.Rebuild
import Retrace.Fault
import Retrace.Formula.Basic
import Retrace.Formula.Build
import Retrace.Formula.Order
import Retrace.Formula.Printer
import Retrace.Json
import Retrace.Limits
import Retrace.Main
import Retrace.Program.Block
import Retrace.Program.CType
import Retrace.Program.Variable
import Retrace.Proofs.Order.Expr
import Retrace.Proofs.Order.Formula
import Retrace.Proofs.Order.Lawful
import Retrace.Proofs.Order.Total
import Retrace.Proofs.Table.Buckets
import Retrace.Proofs.Table.Consing
import Retrace.Proofs.Table.Liveness
import Retrace.Proofs.Table.Runs
import Retrace.Proofs.Table.Structure
import Retrace.Proofs.Wire.Drafts
import Retrace.Proofs.Wire.Grammar
import Retrace.Proofs.Wire.Reading
import Retrace.Proofs.Walk.Returns
import Retrace.Proofs.Wire.RoundTrip
import Retrace.Proofs.Wire.Varint
import Retrace.Script.Basic
import Retrace.Script.Expr
import Retrace.Script.Formula
import Retrace.Search.Alternatives
import Retrace.Search.Attribution
import Retrace.Search.Callee
import Retrace.Search.Callsite
import Retrace.Search.Edge
import Retrace.Search.ExitValues
import Retrace.Search.Frames
import Retrace.Search.Heap
import Retrace.Search.Invariant
import Retrace.Search.Memory
import Retrace.Search.Obligation
import Retrace.Search.Oracle
import Retrace.Search.Placeholders
import Retrace.Search.Postcondition
import Retrace.Search.Precondition
import Retrace.Search.Priority
import Retrace.Search.Report
import Retrace.Search.Solver
import Retrace.Search.Worklist
import Retrace.Sharing
import Retrace.Table.Basic
import Retrace.Table.Store
import Retrace.Text.Blank
import Retrace.Text.Hex
import Retrace.Text.Printable
import Retrace.Text.Quoted
import Retrace.Text.Utf8
import Retrace.Walk.Expand
import Retrace.Walk.Map
import Retrace.Walk.Replace
import Retrace.Walk.Visit
import Retrace.Wire.Decode
import Retrace.Wire.Encode
import Retrace.Wire.File
import Retrace.Wire.Item
import Retrace.Wire.Operand
import Retrace.Wire.ParseError
import Retrace.Wire.Printer
import Retrace.Wire.Reader
import Retrace.Wire.Transaction
import Retrace.Proofs.Walk.Mapping
import Retrace.Proofs.Walk.Expansion
import Retrace.Proofs.Formula.Junction
import Retrace.Proofs.Formula.Normal
import Retrace.Proofs.Expr.Rebuilding
import Retrace.Proofs.Meaning.Arithmetic
import Retrace.Proofs.Meaning.Truth
import Retrace.Proofs.Meaning.Valuation
import Retrace.Proofs.Meaning.Rewriting
import Retrace.Proofs.Walk.Reach
import Retrace.Proofs.Search.Frames
import Retrace.Proofs.Search.Callsite
import Retrace.Proofs.Search.Precondition
import Retrace.Proofs.Search.Priority
import Retrace.Proofs.Search.Worklist
import Retrace.Proofs.Formula.Canonical
import Retrace.Proofs.Search.Alternatives
import Retrace.Proofs.Search.Placeholders
import Retrace.Proofs.Expr.Obtainable
import Retrace.Proofs.Walk.Completion
import Retrace.Proofs.Search.Oracle
import Retrace.Proofs.Search.Invariant
import Retrace.Proofs.Expr.Exchange
import Retrace.Proofs.Walk.Replacing
import Retrace.Proofs.Search.InvariantExit
import Retrace.Proofs.Formula.Sets
import Retrace.Proofs.Search.Ranking
import Retrace.Proofs.Wire.Files
import Retrace.Proofs.Wire.Trace
import Retrace.Proofs.Wire.Safety
import Retrace.Proofs.Meaning.Factories
import Retrace.Proofs.Expr.Refolding
import Retrace.Proofs.Meaning.Folding
import Retrace.Proofs.Walk.Unchanged
import Retrace.Proofs.Expr.Attachment
import Retrace.Proofs.Expr.Spine
import Retrace.Proofs.Expr.Composition
import Retrace.Proofs.Walk.Recursion
import Retrace.Proofs.Walk.SingleValued
import Retrace.Proofs.Walk.Limit
import Retrace.Proofs.Walk.Substitution
import Retrace.Proofs.Walk.Simultaneous
import Retrace.Proofs.Walk.Refusal
import Retrace.Proofs.Search.FrameRemoval
import Retrace.Proofs.Search.ExitConversion
import Retrace.Proofs.Search.Attribution
import Retrace.Proofs.Search.Selection
import Retrace.Proofs.Search.CalleeExit
import Retrace.Proofs.Walk.Locations
import Retrace.Proofs.Walk.Stopping
import Retrace.Proofs.Search.TermCount
import Retrace.Proofs.Wire.Freshness
import Retrace.Proofs.Wire.Numbers
