import Ferrite.Check.Problem
import Ferrite.Check.Rule
import Ferrite.Check.State
import Ferrite.Check.Walk
import Ferrite.CommandLine.Options
import Ferrite.CommandLine.Output
import Ferrite.CommandLine.Run
import Ferrite.Compile
import Ferrite.Cursor
import Ferrite.Decimal.Binary
import Ferrite.Decimal.Layout
import Ferrite.Decimal.Numeral
import Ferrite.Decimal.Shortest
import Ferrite.Diagnostic
import Ferrite.Failure
import Ferrite.Files.Collect
import Ferrite.Files.Disk
import Ferrite.Files.Folder
import Ferrite.Files.Path
import Ferrite.Lexer.Lexeme
import Ferrite.Lexer.Lossless
import Ferrite.Lexer.Number
import Ferrite.Lexer.Problem
import Ferrite.Lexer.Scan
import Ferrite.Lexer.Stream
import Ferrite.Literal
import Ferrite.Lower.Code
import Ferrite.Lower.Fault
import Ferrite.Lower.Module
import Ferrite.Lower.State
import Ferrite.Lower.Value
import Ferrite.Main
import Ferrite.Numeric
import Ferrite.Parse.Block
import Ferrite.Parse.Expr
import Ferrite.Parse.Problem
import Ferrite.Parse.Program
import Ferrite.Parse.Recovery
import Ferrite.Parse.State
import Ferrite.Parse.Text
import Ferrite.Parse.Type
import Ferrite.Proofs.Check.Accepted
import Ferrite.Proofs.Check.Apart
import Ferrite.Proofs.Check.Clean
import Ferrite.Proofs.Check.Frames
import Ferrite.Proofs.Check.Growth
import Ferrite.Proofs.Check.Lockstep
import Ferrite.Proofs.Check.Places
import Ferrite.Proofs.Check.Relabel
import Ferrite.Proofs.Check.Reorder
import Ferrite.Proofs.Check.Reported
import Ferrite.Proofs.Check.Returning
import Ferrite.Proofs.Check.Silent
import Ferrite.Proofs.Check.Table
import Ferrite.Proofs.Check.Unknown
import Ferrite.Proofs.Check.Visits
import Ferrite.Proofs.Check.Worth
import Ferrite.Proofs.CommandLine.Batch
import Ferrite.Proofs.CommandLine.Output
import Ferrite.Proofs.Decimal.Layout
import Ferrite.Proofs.Files.Folder
import Ferrite.Proofs.Files.Path
import Ferrite.Proofs.Goals
import Ferrite.Proofs.Layout
import Ferrite.Proofs.Lexer.Alone
import Ferrite.Proofs.Lexer.Cover
import Ferrite.Proofs.Lexer.Decimal
import Ferrite.Proofs.Lexer.Integer
import Ferrite.Proofs.Lexer.Lines
import Ferrite.Proofs.Lexer.Number
import Ferrite.Proofs.Lexer.Places
import Ferrite.Proofs.Lexer.Printed
import Ferrite.Proofs.Lexer.Slice
import Ferrite.Proofs.Lower.Accepted
import Ferrite.Proofs.Lower.Binding
import Ferrite.Proofs.Lower.Computes
import Ferrite.Proofs.Lower.Distinct
import Ferrite.Proofs.Lower.Effect
import Ferrite.Proofs.Lower.Emitted
import Ferrite.Proofs.Lower.Growth
import Ferrite.Proofs.Lower.Index
import Ferrite.Proofs.Lower.Integers
import Ferrite.Proofs.Lower.Inversion
import Ferrite.Proofs.Lower.Mirror
import Ferrite.Proofs.Lower.Module
import Ferrite.Proofs.Lower.Relabel
import Ferrite.Proofs.Lower.Resolve
import Ferrite.Proofs.Lower.Stored
import Ferrite.Proofs.Lower.Support
import Ferrite.Proofs.Lower.Typed
import Ferrite.Proofs.Lower.Valid
import Ferrite.Proofs.Lower.Visits
import Ferrite.Proofs.Parse.Agree
import Ferrite.Proofs.Parse.Alike
import Ferrite.Proofs.Parse.Braces
import Ferrite.Proofs.Parse.Brackets
import Ferrite.Proofs.Parse.Complete
import Ferrite.Proofs.Parse.Concat
import Ferrite.Proofs.Parse.Depth
import Ferrite.Proofs.Parse.Forward
import Ferrite.Proofs.Parse.Fresh
import Ferrite.Proofs.Parse.Grammar
import Ferrite.Proofs.Parse.Inside
import Ferrite.Proofs.Parse.Nesting
import Ferrite.Proofs.Parse.Numbered
import Ferrite.Proofs.Parse.Parenthesized
import Ferrite.Proofs.Parse.Places
import Ferrite.Proofs.Parse.Printed
import Ferrite.Proofs.Parse.Progress
import Ferrite.Proofs.Parse.Recovery
import Ferrite.Proofs.Parse.Relabel
import Ferrite.Proofs.Parse.Payload
import Ferrite.Proofs.Parse.Reprint
import Ferrite.Proofs.Parse.Silent
import Ferrite.Proofs.Parse.Slice
import Ferrite.Proofs.Parse.Sound
import Ferrite.Proofs.Parse.Takes
import Ferrite.Proofs.Parse.TypeText
import Ferrite.Proofs.Parse.Whole
import Ferrite.Proofs.Places
import Ferrite.Proofs.Position
import Ferrite.Proofs.Run
import Ferrite.Proofs.Scope.Apart
import Ferrite.Proofs.Scope.Growth
import Ferrite.Proofs.Scope.Lookup
import Ferrite.Proofs.Scope.Replay
import Ferrite.Proofs.Tree.Number
import Ferrite.Proofs.Tree.Parts
import Ferrite.Proofs.Tree.Places
import Ferrite.Proofs.Tree.Regroup
import Ferrite.Proofs.Tree.Relabel
import Ferrite.Proofs.Tree.Scopes
import Ferrite.Proofs.Tree.Targets
import Ferrite.Proofs.Tree.Visits
import Ferrite.Proofs.Types
import Ferrite.Proofs.Wasm.Execution
import Ferrite.Proofs.Wasm.Typing
import Ferrite.Proofs.Wasm.Validate
import Ferrite.Scope.Frame
import Ferrite.Scope.Live
import Ferrite.Scope.Replay
import Ferrite.Scope.Stack
import Ferrite.Source
import Ferrite.Span
import Ferrite.Text.Bytes
import Ferrite.Text.Escape
import Ferrite.Token
import Ferrite.Tree.Basic
import Ferrite.Tree.Operator
import Ferrite.Tree.Printer
import Ferrite.Tree.Walk
import Ferrite.Ty
import Ferrite.Wasm.Instr
import Ferrite.Wasm.Leb
import Ferrite.Wasm.Module
