import SmallLisp.Binary64.Arithmetic
import SmallLisp.Binary64.Basic
import SmallLisp.Binary64.Rounding
import SmallLisp.Bindings
import SmallLisp.Builtin.Arithmetic
import SmallLisp.Builtin.Basic
import SmallLisp.Builtin.Comparison
import SmallLisp.CommandLine.Arguments
import SmallLisp.CommandLine.Response
import SmallLisp.Console
import SmallLisp.Decimal.Basic
import SmallLisp.Decimal.FloatText
import SmallLisp.Decimal.Numeral
import SmallLisp.Decimal.Shortest
import SmallLisp.Error
import SmallLisp.Eval.Basic
import SmallLisp.Eval.Monad
import SmallLisp.Eval.Params
import SmallLisp.Main
import SmallLisp.Name
import SmallLisp.Number
import SmallLisp.Proofs.Binary64.Nearest
import SmallLisp.Proofs.Binary64.Rounding
import SmallLisp.Proofs.Bindings
import SmallLisp.Proofs.Builtin.Arithmetic
import SmallLisp.Proofs.Builtin.Comparison
import SmallLisp.Proofs.Builtin.Results
import SmallLisp.Proofs.Console.Chunks
import SmallLisp.Proofs.Console.Positions
import SmallLisp.Proofs.Console.Recovery
import SmallLisp.Proofs.Console.Restarts
import SmallLisp.Proofs.Console.Script
import SmallLisp.Proofs.Decimal.ReadBack
import SmallLisp.Proofs.Eval.Call
import SmallLisp.Proofs.Eval.Canonical
import SmallLisp.Proofs.Eval.Copies
import SmallLisp.Proofs.Eval.Depth
import SmallLisp.Proofs.Eval.Frame
import SmallLisp.Proofs.Eval.Image
import SmallLisp.Proofs.Eval.Literal
import SmallLisp.Proofs.Eval.Names
import SmallLisp.Proofs.Eval.Origin
import SmallLisp.Proofs.Eval.Params
import SmallLisp.Proofs.Eval.Scope
import SmallLisp.Proofs.Eval.Sequence
import SmallLisp.Proofs.Eval.Unnamed
import SmallLisp.Proofs.Reader.Calls
import SmallLisp.Proofs.Reader.Completion
import SmallLisp.Proofs.Reader.Grammar
import SmallLisp.Proofs.Reader.Insertion
import SmallLisp.Proofs.Reader.Joined
import SmallLisp.Proofs.Reader.Open
import SmallLisp.Proofs.Reader.Outline
import SmallLisp.Proofs.Reader.Passage
import SmallLisp.Proofs.Reader.Places
import SmallLisp.Proofs.Reader.Progress
import SmallLisp.Proofs.Reader.Readable
import SmallLisp.Proofs.Reader.Runs
import SmallLisp.Proofs.Reader.Sealed
import SmallLisp.Proofs.Reader.Trailer
import SmallLisp.Proofs.Session.Answers
import SmallLisp.Proofs.Session.Identity
import SmallLisp.Proofs.Text.Layout
import SmallLisp.Proofs.Text.Location
import SmallLisp.Proofs.Text.Sealed
import SmallLisp.Proofs.Token.Faults
import SmallLisp.Proofs.Token.Spelling
import SmallLisp.Proofs.Value.Collection
import SmallLisp.Proofs.Value.Equiv
import SmallLisp.Proofs.Value.Forget
import SmallLisp.Proofs.Value.Image
import SmallLisp.Proofs.Value.Occurs
import SmallLisp.Proofs.Value.Order
import SmallLisp.Proofs.Value.Parts
import SmallLisp.Proofs.Value.ReadBack
import SmallLisp.Proofs.Value.Relabel
import SmallLisp.Reader.Basic
import SmallLisp.Reader.Cursor
import SmallLisp.Reader.Error
import SmallLisp.Reader.Frame
import SmallLisp.Session
import SmallLisp.Sorted
import SmallLisp.Text.Blank
import SmallLisp.Text.Lines
import SmallLisp.Text.Position
import SmallLisp.Text.Quoted
import SmallLisp.Token.Basic
import SmallLisp.Token.Lexer
import SmallLisp.Value.Basic
import SmallLisp.Value.Collection
import SmallLisp.Value.Equiv
import SmallLisp.Value.Hash
import SmallLisp.Value.Order
import SmallLisp.Value.Printer
