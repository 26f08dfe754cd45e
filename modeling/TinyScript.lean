import TinyScript.Binary64.Arithmetic
import TinyScript.Binary64.Basic
import TinyScript.Binary64.Print
import TinyScript.Binary64.Read
import TinyScript.Binary64.Shortest
import TinyScript.Console.CommandLine
import TinyScript.Console.Completion
import TinyScript.Console.Config
import TinyScript.Console.Flag
import TinyScript.Console.Input
import TinyScript.Console.Repl
import TinyScript.Console.Run
import TinyScript.Data.Datum
import TinyScript.Data.Json.Number
import TinyScript.Data.Json.Reader
import TinyScript.Data.Json.Writer
import TinyScript.Data.MessagePack.Format
import TinyScript.Data.MessagePack.Reader
import TinyScript.Data.MessagePack.Untyped
import TinyScript.Dict.Table
import TinyScript.Digest.Blake2b
import TinyScript.Heap.Basic
import TinyScript.Heap.Frame
import TinyScript.Heap.Object
import TinyScript.Host.Files
import TinyScript.Machine.Builtin
import TinyScript.Machine.Collect
import TinyScript.Machine.Convert
import TinyScript.Machine.Eval
import TinyScript.Machine.Literal
import TinyScript.Machine.Operator
import TinyScript.Machine.Packed
import TinyScript.Machine.Program
import TinyScript.Machine.Render
import TinyScript.Machine.State
import TinyScript.Main
import TinyScript.Outline
import TinyScript.Regex.Basic
import TinyScript.Regex.CharSet
import TinyScript.Regex.Parser
import TinyScript.Regex.Search
import TinyScript.Syntax.Codec
import TinyScript.Syntax.Expr
import TinyScript.Syntax.Lexer
import TinyScript.Syntax.Operator
import TinyScript.Syntax.Parser
import TinyScript.Syntax.Printer
import TinyScript.Syntax.Token
import TinyScript.Text.Basic
import TinyScript.Text.Blank
import TinyScript.Text.Category
import TinyScript.Text.Digit
import TinyScript.Text.Fold
import TinyScript.Text.Graphic
import TinyScript.Text.Letter
import TinyScript.Text.Quoted
import TinyScript.Text.Range
import TinyScript.Text.Script
import TinyScript.Text.Stripe
import TinyScript.Text.Trim
import TinyScript.Text.Utf8
import TinyScript.Proofs.Dict.FiniteMap
import TinyScript.Proofs.Heap.Reference
import TinyScript.Proofs.Collect.Reachability
import TinyScript.Proofs.Collect.Sweep
import TinyScript.Proofs.Collect.Exact
import TinyScript.Proofs.Heap.History
import TinyScript.Proofs.Dict.Natural
import TinyScript.Proofs.Dict.Order
import TinyScript.Proofs.Collect.Held
import TinyScript.Proofs.Twin.Relation
import TinyScript.Proofs.Twin.Change
import TinyScript.Proofs.Twin.Store
import TinyScript.Proofs.Twin.Logic
import TinyScript.Proofs.Twin.Walk
import TinyScript.Proofs.Twin.Builtin
import TinyScript.Proofs.Twin.Build
import TinyScript.Proofs.Twin.Tie
import TinyScript.Proofs.Twin.Call
import TinyScript.Proofs.Twin.Loop
import TinyScript.Proofs.Twin.Node
import TinyScript.Proofs.Twin.Run
import TinyScript.Proofs.Twin.Program
import TinyScript.Proofs.Collect.Invisible
import TinyScript.Proofs.Collect.Dangling
import TinyScript.Proofs.Syntax.Grammar
import TinyScript.Proofs.Syntax.Phrase
import TinyScript.Proofs.Syntax.Productions
import TinyScript.Proofs.Syntax.Climbing
import TinyScript.Proofs.Syntax.Reading
import TinyScript.Proofs.Syntax.Acceptance
import TinyScript.Proofs.Syntax.Scanning
import TinyScript.Proofs.Syntax.Lexing
import TinyScript.Proofs.Syntax.Continuation
import TinyScript.Proofs.Console.Entry
import TinyScript.Proofs.Console.Running
import TinyScript.Proofs.Data.Datum
import TinyScript.Proofs.Data.Json
import TinyScript.Proofs.Syntax.Codec
import TinyScript.Proofs.Data.MessagePack
import TinyScript.Proofs.Host.Files
import TinyScript.Proofs.Packed.Structure
import TinyScript.Proofs.Packed.Growth
import TinyScript.Proofs.Packed.Unpacking
import TinyScript.Proofs.Packed.RoundTrip
import TinyScript.Proofs.Syntax.Printing
import TinyScript.Proofs.Syntax.Depth
import TinyScript.Proofs.Syntax.Sourced
import TinyScript.Proofs.Syntax.Faithful
import TinyScript.Proofs.Sandbox.Sealed
import TinyScript.Proofs.Sandbox.Evaluation
import TinyScript.Proofs.Sandbox.Isolation
import TinyScript.Proofs.Evolution.Outcome
import TinyScript.Proofs.Evolution.Evolves
import TinyScript.Proofs.Evolution.Balance
import TinyScript.Proofs.Evolution.Mutation
import TinyScript.Proofs.Json.Erasure
import TinyScript.Proofs.Packed.Delimited
import TinyScript.Proofs.Graph.Unfolding
import TinyScript.Proofs.Syntax.Node
import TinyScript.Proofs.Syntax.SourceCodec
import TinyScript.Proofs.Frame.Resolve
import TinyScript.Proofs.Termination.Displays
import TinyScript.Proofs.Termination.Overflow
import TinyScript.Proofs.Course.Capture
import TinyScript.Proofs.Packed.Failure
import TinyScript.Proofs.Data.Reading
import TinyScript.Proofs.Packed.Frugal
import TinyScript.Proofs.Dict.Refill
import TinyScript.Proofs.Packed.Trees
import TinyScript.Proofs.Packed.Values
import TinyScript.Proofs.Packed.Repacking
import TinyScript.Proofs.Json.Canonical
import TinyScript.Proofs.Course.Rebinding
import TinyScript.Proofs.Syntax.Tiling
import TinyScript.Proofs.Heap.Generation
import TinyScript.Proofs.Number.Division
import TinyScript.Proofs.Number.Literal
import TinyScript.Proofs.Graph.Tagged
