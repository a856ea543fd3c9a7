import LineScript.Proofs.File.Tree
import LineScript.Main
import LineScript.Proofs.Machine.CallChain
import LineScript.Proofs.Structured.Refinement
import LineScript.Proofs.Expr.Parsing
import LineScript.Proofs.Source.Splice
import LineScript.Proofs.Bracket.Unmatched
import LineScript.Proofs.Program.Rejection
import LineScript.Proofs.Bracket.Open
import LineScript.Proofs.Program.Scopes
import LineScript.Proofs.Machine.Writes
import LineScript.Proofs.Machine.Kinds
import LineScript.Proofs.Machine.Parameters
import LineScript.Proofs.Machine.Reentry
import LineScript.Proofs.Machine.Failure
import LineScript.Proofs.Machine.Shadowing
import LineScript.Proofs.Operand.Classify
import LineScript.Proofs.Program.Targets
import LineScript.Proofs.Machine.Faults
import LineScript.Proofs.Number.Bits
import LineScript.Proofs.Number.Rounding
import LineScript.Proofs.Number.Decimals
import LineScript.Proofs.Number.Shortest
import LineScript.Proofs.Expr.Scanning
import LineScript.Proofs.Expr.Printing
import LineScript.Proofs.Machine.DepthLimit
import LineScript.Proofs.Machine.Instrumentation
import LineScript.Proofs.Program.Duplicates
import LineScript.Proofs.Machine.Provenance
import LineScript.Proofs.CommandLine.Debugging
import LineScript.Proofs.Machine.Entry
import LineScript.Proofs.Program.Visibility
import LineScript.Proofs.Scope.Edits
import LineScript.Proofs.Operand.Grouping
import LineScript.Proofs.Expr.Evaluation
import LineScript.Proofs.Operand.NumberWords
import LineScript.Proofs.Machine.OutputLines
import LineScript.Proofs.Scope.Visible
import LineScript.Proofs.Expr.Consulting
import LineScript.Proofs.Expr.ByteScanning
import LineScript.Proofs.Machine.Retries
import LineScript.Proofs.Machine.LineReading
import LineScript.Proofs.Source.Tokens
import LineScript.Proofs.Number.Nearest
import LineScript.Proofs.Number.SixPlaces
import LineScript.Proofs.Number.ReadingBack
import LineScript.Proofs.Machine.Conversions
import LineScript.Proofs.Expr.Descent
import LineScript.Proofs.CommandLine.Arguments
import LineScript.Proofs.Machine.Bounds
