import LineScript.Machine.CallStack
import LineScript.Machine.Input
import LineScript.Machine.Output
import LineScript.Machine.Timings
import LineScript.Program.Program

/-!
# Machines

A machine runs a linked program one statement at a time. Its state is the position of the current
statement, the calls being executed, the values staged by a call for the header of the function
called, the variables of all scopes, and what is left to read and was written.
-/

namespace LineScript

structure Machine where
  current : Option NodeId
  calls : CallStack
  /-- Parameters and their values, from a call that has not entered its function yet. -/
  staged : Option (List (String × Value))
  scopes : ScopeTree
  input : Input
  output : Output
  timings : Option Timings
  /-- The number of statements that ran without a fault. -/
  steps : Nat
deriving DecidableEq

inductive RuntimeFault where
  | undeclared (name : String)
  | formula (error : FormulaError)
  | inputForm (count : Nat)
  | inputClosed (name : String)
  | garbledInput
  | argumentKind (function parameter : String) (expected : Kind)
  | noActiveCall
  | recursionLimit (fault : RecursionLimit)
deriving DecidableEq

/-- How a line that is not valid UTF-8 is reported. -/
def garbledLineMessage : String :=
  "stream did not contain valid UTF-8"

def RuntimeFault.message : RuntimeFault → String
  | undeclared name => "undeclared variable `" ++ name ++ "`"
  | formula error => error.message
  | inputForm count =>
    "`in` takes exactly one variable name, got " ++ toString count ++ " parameter(s)"
  | inputClosed name => "input closed while reading `" ++ name ++ "`"
  | garbledInput => "I/O error: " ++ garbledLineMessage
  | argumentKind function parameter expected =>
    "`" ++ function ++ "` expects a " ++ expected.keyword ++ " for parameter `" ++ parameter ++ "`"
  | noActiveCall => "function end reached with no active call"
  | recursionLimit fault => fault.message

/-- A fault, the statement that has it, and the calls it happened in, the innermost first. -/
structure Failure where
  location : Location
  fault : RuntimeFault
  backtrace : List Location
deriving DecidableEq

def Failure.message (failure : Failure) : String :=
  failure.fault.message ++ " (" ++ failure.location.describe ++ ")"

structure MachineOptions where
  maxCallDepth : Option Nat
  timing : Bool
deriving DecidableEq, Repr

namespace Machine

def start (linked : Linked) (options : MachineOptions) (input : Input) (output : Output) :
    Machine where
  current := linked.program.entry?
  calls := .empty options.maxCallDepth
  staged := none
  scopes := linked.scopes
  input := input
  output := output
  timings := if options.timing then some .empty else none
  steps := 0

/-- The calls being executed, as locations, the innermost first. -/
def backtrace (program : Program) (m : Machine) : List Location :=
  m.calls.sites.filterMap program.location?

def record (m : Machine) (label : String) (elapsed : Nat) : Machine :=
  { m with timings := m.timings.map fun timings ↦ timings.record label elapsed }

/-- The scope of the current statement, or the root where there is none. -/
def currentScope (program : Program) (m : Machine) : ScopeId :=
  ((m.current.bind program.node?).map fun node ↦ node.scope).getD rootScope

end Machine

end LineScript
