import ContractIR.Ast.Basic
import ContractIR.Ast.Decode
import ContractIR.Ast.Encode
import ContractIR.Ast.SemanticType
import ContractIR.Attr
import ContractIR.Builder.Basic
import ContractIR.Builder.Ops
import ContractIR.CommandLine
import ContractIR.CommandLine.Disk
import ContractIR.CommandLine.Session
import ContractIR.CompileError
import ContractIR.Conversion
import ContractIR.EraVM.Abi
import ContractIR.EraVM.Containers
import ContractIR.EraVM.Entry
import ContractIR.EraVM.Legalize
import ContractIR.EraVM.Patterns
import ContractIR.Job
import ContractIR.Json.Lexeme
import ContractIR.Json.Range
import ContractIR.Json.Reader
import ContractIR.Json.Token
import ContractIR.Json.Value
import ContractIR.Location
import ContractIR.Lowering.Cast
import ContractIR.Lowering.Cells
import ContractIR.Lowering.Contract
import ContractIR.Lowering.Function
import ContractIR.Main
import ContractIR.Module.Basic
import ContractIR.Module.Error
import ContractIR.Module.Rewrite
import ContractIR.Module.Traversal
import ContractIR.OpKind
import ContractIR.Options
import ContractIR.Pipeline
import ContractIR.Print.Numbering
import ContractIR.Print.Page
import ContractIR.Print.Printer
import ContractIR.Proofs.Ast.RoundTrip
import ContractIR.Proofs.Builder.Agreement
import ContractIR.Proofs.Builder.Failures
import ContractIR.Proofs.Builder.Growth
import ContractIR.Proofs.Builder.Writing
import ContractIR.Proofs.Code.Basic
import ContractIR.Proofs.Code.Typing
import ContractIR.Proofs.Conversion.History
import ContractIR.Proofs.Conversion.Limit
import ContractIR.Proofs.Jobs.Agreement
import ContractIR.Proofs.Json.Lexemes
import ContractIR.Proofs.Json.Records
import ContractIR.Proofs.Json.Rendering
import ContractIR.Proofs.Legalization.Accepted
import ContractIR.Proofs.Legalization.Arrangement
import ContractIR.Proofs.Legalization.Assigning
import ContractIR.Proofs.Legalization.Building
import ContractIR.Proofs.Legalization.Conditions
import ContractIR.Proofs.Legalization.Conservation
import ContractIR.Proofs.Legalization.Containers
import ContractIR.Proofs.Legalization.Contexts
import ContractIR.Proofs.Legalization.Convergence
import ContractIR.Proofs.Legalization.Conversion
import ContractIR.Proofs.Legalization.Declaring
import ContractIR.Proofs.Legalization.Emptying
import ContractIR.Proofs.Legalization.Entrance
import ContractIR.Proofs.Legalization.EntryCode
import ContractIR.Proofs.Legalization.EntryFunction
import ContractIR.Proofs.Legalization.Equivalence
import ContractIR.Proofs.Legalization.Finishing
import ContractIR.Proofs.Legalization.Firing
import ContractIR.Proofs.Legalization.Frame
import ContractIR.Proofs.Legalization.Generating
import ContractIR.Proofs.Legalization.Globals
import ContractIR.Proofs.Legalization.Hoisting
import ContractIR.Proofs.Legalization.Idempotence
import ContractIR.Proofs.Legalization.Lifting
import ContractIR.Proofs.Legalization.Outline
import ContractIR.Proofs.Legalization.Persistence
import ContractIR.Proofs.Legalization.Relocating
import ContractIR.Proofs.Legalization.Resolution
import ContractIR.Proofs.Legalization.ReturnContext
import ContractIR.Proofs.Legalization.Returning
import ContractIR.Proofs.Legalization.Reworking
import ContractIR.Proofs.Legalization.Rewrites
import ContractIR.Proofs.Legalization.Routines
import ContractIR.Proofs.Legalization.Sealing
import ContractIR.Proofs.Legalization.Splitting
import ContractIR.Proofs.Legalization.Success
import ContractIR.Proofs.Legalization.Sweeps
import ContractIR.Proofs.Lowering.Assembly
import ContractIR.Proofs.Lowering.Calls
import ContractIR.Proofs.Lowering.Code
import ContractIR.Proofs.Lowering.Constants
import ContractIR.Proofs.Lowering.Emission
import ContractIR.Proofs.Lowering.Failures
import ContractIR.Proofs.Lowering.FunctionCode
import ContractIR.Proofs.Lowering.Interpretation
import ContractIR.Proofs.Lowering.Layout
import ContractIR.Proofs.Lowering.Listing
import ContractIR.Proofs.Lowering.Literals
import ContractIR.Proofs.Lowering.Meaning
import ContractIR.Proofs.Lowering.ParameterCells
import ContractIR.Proofs.Lowering.Places
import ContractIR.Proofs.Lowering.Preservation
import ContractIR.Proofs.Lowering.Verified
import ContractIR.Proofs.Module.Extension
import ContractIR.Proofs.Module.Links
import ContractIR.Proofs.Module.Lookup
import ContractIR.Proofs.Module.Nesting
import ContractIR.Proofs.Module.Placement
import ContractIR.Proofs.Module.Reachable
import ContractIR.Proofs.Module.Retention
import ContractIR.Proofs.Module.Rewriting
import ContractIR.Proofs.Module.TopLevel
import ContractIR.Proofs.Module.Traversal
import ContractIR.Proofs.Module.Wiring
import ContractIR.Proofs.Outcome
import ContractIR.Proofs.Print.Labels
import ContractIR.Proofs.Print.Layout
import ContractIR.Proofs.Print.Mentions
import ContractIR.Proofs.Print.Numbers
import ContractIR.Proofs.Print.Reading
import ContractIR.Proofs.Print.Rows
import ContractIR.Proofs.Print.Scopes
import ContractIR.Proofs.Print.Walk
import ContractIR.Proofs.Rewriting.Cycles
import ContractIR.Proofs.Rewriting.Failures
import ContractIR.Proofs.Rewriting.Moving
import ContractIR.Proofs.Rewriting.Replacement
import ContractIR.Proofs.Rewriting.Substitution
import ContractIR.Proofs.Semantics.Effects
import ContractIR.Proofs.Semantics.Invocation
import ContractIR.Proofs.Semantics.Machine
import ContractIR.Proofs.Semantics.Numbers
import ContractIR.Proofs.Source.Limit
import ContractIR.Proofs.Source.Lines
import ContractIR.Proofs.Source.Partition
import ContractIR.Proofs.Source.Positions
import ContractIR.Proofs.Source.Scan
import ContractIR.Proofs.Source.Words
import ContractIR.Proofs.Typing.Cursor
import ContractIR.Proofs.Typing.Lowered
import ContractIR.Proofs.Typing.Modules
import ContractIR.Proofs.Typing.Moves
import ContractIR.Proofs.Typing.Ops
import ContractIR.Proofs.Typing.Rules
import ContractIR.Proofs.Typing.Scopes
import ContractIR.Proofs.Typing.Steps
import ContractIR.Proofs.Verification.Congruence
import ContractIR.Proofs.Verification.Dominance
import ContractIR.Proofs.Verification.Paths
import ContractIR.Proofs.Verification.Rules
import ContractIR.Proofs.Verification.Shape
import ContractIR.Source
import ContractIR.Text.Blank
import ContractIR.Text.Decimal
import ContractIR.Text.Escape
import ContractIR.Text.Join
import ContractIR.Text.Paint
import ContractIR.Transform
import ContractIR.Ty
import ContractIR.Ty.Decode
import ContractIR.Verifier
import ContractIR.Verifier.Error
import ContractIR.Verifier.Rules
