import QuoteLisp.Evaluation.Application
import QuoteLisp.Evaluation.Arguments
import QuoteLisp.Evaluation.Arithmetic
import QuoteLisp.Evaluation.Eval
import QuoteLisp.Evaluation.Fuel
import QuoteLisp.Evaluation.Load
import QuoteLisp.Evaluation.Machine
import QuoteLisp.Evaluation.Request
import QuoteLisp.Evaluation.Yields
import QuoteLisp.Failure.Evaluation
import QuoteLisp.Failure.Host
import QuoteLisp.File.Path
import QuoteLisp.File.ReadError
import QuoteLisp.File.Tree
import QuoteLisp.File.Walk
import QuoteLisp.Main
import QuoteLisp.Node.Basic
import QuoteLisp.Node.OfTokens
import QuoteLisp.Node.Parse
import QuoteLisp.Number.Decimal
import QuoteLisp.Number.Power
import QuoteLisp.Options.Basic
import QuoteLisp.Options.Sources
import QuoteLisp.Primitive
import QuoteLisp.Program
import QuoteLisp.Prompt
import QuoteLisp.Proofs.Evaluation.Action
import QuoteLisp.Proofs.Evaluation.Activation
import QuoteLisp.Proofs.Evaluation.Calls
import QuoteLisp.Proofs.Evaluation.Checked
import QuoteLisp.Proofs.Evaluation.Currying
import QuoteLisp.Proofs.Evaluation.Failure
import QuoteLisp.Proofs.Evaluation.Frame
import QuoteLisp.Proofs.Evaluation.Hereditary
import QuoteLisp.Proofs.Evaluation.Normal
import QuoteLisp.Proofs.Evaluation.Rules
import QuoteLisp.Proofs.Evaluation.ScopeChain
import QuoteLisp.Proofs.Node.BracketMachine
import QuoteLisp.Proofs.Node.Descent
import QuoteLisp.Proofs.Number.Decimal
import QuoteLisp.Proofs.Scope.Changes
import QuoteLisp.Proofs.Text.Escape
import QuoteLisp.Proofs.Text.Offset
import QuoteLisp.Proofs.Token.Cover
import QuoteLisp.Proofs.Token.Literal
import QuoteLisp.Proofs.Token.Shape
import QuoteLisp.Proofs.Value.Normal
import QuoteLisp.Proofs.Value.Occurs
import QuoteLisp.Proofs.Value.OfNode
import QuoteLisp.Proofs.Value.ReadBack
import QuoteLisp.Scope.Bindings
import QuoteLisp.Scope.Store
import QuoteLisp.Text.Blank
import QuoteLisp.Text.Escape
import QuoteLisp.Text.Offset
import QuoteLisp.Text.Split
import QuoteLisp.Token.Basic
import QuoteLisp.Token.Scan
import QuoteLisp.Value.Basic
import QuoteLisp.Value.Display
import QuoteLisp.Value.Equality
import QuoteLisp.Value.OfNode
import QuoteLisp.Proofs.Node.Parse
import QuoteLisp.Proofs.Value.Layout
import QuoteLisp.Proofs.Evaluation.Concatenation
import QuoteLisp.Proofs.Value.ErrorFree
import QuoteLisp.Proofs.Evaluation.Loads
import QuoteLisp.Proofs.Evaluation.ErrorFree
import QuoteLisp.Proofs.Evaluation.Quote
import QuoteLisp.Proofs.Node.Leaves
import QuoteLisp.Proofs.Node.Spans
import QuoteLisp.Proofs.Token.Passage
import QuoteLisp.Proofs.Node.Part
import QuoteLisp.Proofs.Node.Blame
import QuoteLisp.Proofs.Text.Lines
import QuoteLisp.Proofs.Evaluation.Writing
import QuoteLisp.Proofs.Program.Log
import QuoteLisp.Proofs.Program.Run
import QuoteLisp.Proofs.Program.Interaction
import QuoteLisp.Proofs.Evaluation.Lambda
import QuoteLisp.Proofs.Evaluation.History
import QuoteLisp.Proofs.Evaluation.Simulation
import QuoteLisp.Proofs.Value.Omits
import QuoteLisp.Proofs.Evaluation.EmptyFrame
import QuoteLisp.Proofs.Evaluation.UnmentionedName
import QuoteLisp.Proofs.Evaluation.Saturation
import QuoteLisp.Proofs.Number.Wrapping
import QuoteLisp.Proofs.Number.Power
import QuoteLisp.Proofs.Evaluation.Arithmetic
import QuoteLisp.Proofs.Evaluation.Powers
import QuoteLisp.Proofs.Evaluation.Sums
import QuoteLisp.Proofs.Evaluation.Quotients
import QuoteLisp.Proofs.Scope.Writes
import QuoteLisp.Proofs.Evaluation.Acceptance
import QuoteLisp.Proofs.Evaluation.Definitions
import QuoteLisp.Proofs.Value.Equality
import QuoteLisp.Proofs.Options.Phrases
import QuoteLisp.Proofs.Listing
import QuoteLisp.Proofs.Number.Numeral
import QuoteLisp.Proofs.Node.Cursor
import QuoteLisp.Proofs.Scope.Snapshots
import QuoteLisp.Proofs.Text.ByteOrder
import QuoteLisp.Proofs.Text.Runs
import QuoteLisp.Proofs.File.Path
import QuoteLisp.Proofs.File.Walk
import QuoteLisp.Proofs.Options.Sources
import QuoteLisp.Proofs.Value.Numbers
