import LineScript.Machine.Machine

/-!
# Steps

What each kind of statement does to a machine. A statement that fails changes nothing, except that
an `in` may have refused words before it failed: those are gone, and each has been answered by a
line of output.
-/

namespace LineScript

inductive Flow where
  | next
  | jump (target : Option NodeId)
deriving DecidableEq, Repr

/-- What came of a statement. -/
inductive Attempt where
  | done (m : Machine) (flow : Flow)
  | failed (m : Machine) (fault : RuntimeFault)
deriving DecidableEq

namespace Machine

/-- The line that an `out` statement writes: no blank before a variable, one before all else. -/
def outputLine (display : Operand → String) : List Operand → String
  | [] => ""
  | first :: others =>
    display first ++ String.join (others.map fun operand ↦
      if operand.isName then display operand else " " ++ display operand)

def runOutput (m : Machine) (node : Node) : Attempt :=
  let line := outputLine (·.display m.scopes node.scope) node.operands
  .done { m with output := m.output.writeLine line } .next

/-- The value that a word has for a variable of some kind; any word will do for a text. -/
def wordValue? (kind : Kind) (word : String) : Option Value :=
  match kind with
  | .number => (readNumber? word).map .number
  | .text => some (.text word)

def retryLine : String :=
  "Please retry: " ++ numberRefusal

inductive WordRead where
  | accepted (value : Value)
  | closed
  | garbled
deriving DecidableEq

/--
Reads the first word that will do for a variable of some kind. Words before it are taken off the
input too, and each is answered by a line.
-/
def readWord (kind : Kind) (output : Output) :
    List InputPiece → WordRead × List InputPiece × Output
  | [] => (.closed, [], output)
  | .garbled :: rest => (.garbled, rest, output)
  | .word word :: rest =>
    match wordValue? kind word with
    | some value => (.accepted value, rest, output)
    | none => readWord kind (output.writeLine retryLine) rest

def readInto (m : Machine) (scope : ScopeId) (name : String) (kind : Kind) : Attempt :=
  let (word, pieces, output) := readWord kind m.output m.input.pieces
  let m := { m with input := ⟨pieces⟩, output }
  match word with
  | .accepted value => .done { m with scopes := m.scopes.set scope name value } .next
  | .closed => .failed m (.inputClosed name)
  | .garbled => .failed m .garbledInput

def runInput (m : Machine) (node : Node) : Attempt :=
  match node.operands with
  | [operand] =>
    match m.scopes.get? node.scope operand.raw with
    | some value => m.readInto node.scope operand.raw value.kind
    | none => .failed m (.undeclared operand.raw)
  | operands => .failed m (.inputForm operands.length)

/-- Runs the header of a block that is left out when its condition is zero. -/
def runCondition (m : Machine) (node : Node) (past : Option NodeId) (condition : Formula) :
    Attempt :=
  match condition.eval m.scopes node.scope with
  | .error error => .failed m (.formula error)
  | .ok value => .done m (if value == 0 then .jump past else .next)

/--
The value that an assignment gives. The kind of the target decides, as it is when the statement
runs: a number gets the value of the formula, which is compiled now if it was not before, and a
text gets the printable forms of all operands, the `=` included.
-/
def assignedValue (node : Node) (formula : Option Formula) (kind : Kind) (scopes : ScopeTree) :
    Except FormulaError Value :=
  match kind, formula with
  | .number, some formula => (formula.eval scopes node.scope).map .number
  | .number, none => do
    let formula ← Formula.compile (node.operands.drop 1)
    return .number (← formula.eval scopes node.scope)
  | .text, _ => .ok (.text (joinWords (node.operands.map (·.display scopes node.scope))))

def runAssignment (m : Machine) (node : Node) (target : String) (formula : Option Formula) :
    Attempt :=
  match m.scopes.get? node.scope target with
  | none => .failed m (.undeclared target)
  | some old =>
    match assignedValue node formula old.kind m.scopes with
    | .error error => .failed m (.formula error)
    | .ok value => .done { m with scopes := m.scopes.set node.scope target value } .next

/-- The value of an argument, brought to the kind of its parameter. -/
def argumentValue (function : String) (scopes : ScopeTree) (scope : ScopeId)
    (argument : Argument) : Except RuntimeFault (String × Value) :=
  match argument.operand.value? scopes scope with
  | none => .error (.undeclared argument.operand.raw)
  | some value =>
    match argument.parameter.kind.coerce? value with
    | some value => .ok (argument.parameter.name, value)
    | none => .error (.argumentKind function argument.parameter.name argument.parameter.kind)

/-- Runs a call: the arguments are staged for the header of the function, which comes next. -/
def runCall (m : Machine) (id : NodeId) (node : Node) (callee : NodeId) (function : String)
    (arguments : List Argument) : Attempt :=
  match arguments.mapM (argumentValue function m.scopes node.scope) with
  | .error fault => .failed m fault
  | .ok values =>
    match m.calls.push id with
    | .error fault => .failed m (.recursionLimit fault)
    | .ok calls => .done { m with calls, staged := some values } (.jump callee)

/-- Runs the header of a function: the body is left out unless a call has staged values. -/
def runHeader (m : Machine) (node : Node) (past : Option NodeId) : Attempt :=
  match m.staged with
  | none => .done m (.jump past)
  | some values =>
    .done { m with staged := none, scopes := m.scopes.setAll node.scope values } .next

def runEnd (program : Program) (m : Machine) (block : BlockKind) : Attempt :=
  match block with
  | .loop header => .done m (.jump header)
  | .branch => .done m .next
  | .function =>
    match m.calls.pop? with
    | none => .failed m .noActiveCall
    | some (site, calls) => .done { m with calls } (.jump (program.next? site))

/-! ## Running -/

def attempt (program : Program) (m : Machine) (id : NodeId) (node : Node) : Attempt :=
  match node.action with
  | .declare _ => .done m .next
  | .output => m.runOutput node
  | .input => m.runInput node
  | .loop past condition | .branch past condition => m.runCondition node past condition
  | .function past _ => m.runHeader node past
  | .call callee function arguments => m.runCall id node callee function arguments
  | .close block => m.runEnd program block
  | .assign target formula => m.runAssignment node target formula

def follow (program : Program) (id : NodeId) : Flow → Option NodeId
  | .next => program.next? id
  | .jump target => target

/-- The current statement, and what came of it. -/
structure Tried where
  id : NodeId
  node : Node
  attempt : Attempt

def tryCurrent (program : Program) (m : Machine) : Option Tried :=
  match m.current with
  | none => none
  | some id => (program.node? id).map fun node ↦ ⟨id, node, m.attempt program id node⟩

/--
The machine after a statement that took `elapsed` nanoseconds. The answer is whether there is more
to run, or the failure.
-/
def commit (program : Program) (elapsed : Nat) (tried : Tried) : Machine × Except Failure Bool :=
  match tried.attempt with
  | .failed m fault => (m, .error ⟨tried.node.location, fault, m.backtrace program⟩)
  | .done m flow =>
    let current := follow program tried.id flow
    let m := { m with current, steps := m.steps + 1 }
    (m.record tried.node.action.label elapsed, .ok current.isSome)

/-- Runs the current statement; a machine that has halted stays as it is. -/
def step (program : Program) (elapsed : Nat) (m : Machine) : Machine × Except Failure Bool :=
  match m.tryCurrent program with
  | none => (m, .ok false)
  | some tried => commit program elapsed tried

inductive Ending where
  | done
  | failed (failure : Failure)
  | budget
deriving DecidableEq, Inhabited

/-- Runs at most a number of statements, none of which is timed. -/
def runFor (program : Program) : Nat → Machine → Machine × Ending
  | 0, m => (m, if m.current.isSome then .budget else .done)
  | budget + 1, m =>
    match m.step program 0 with
    | (m, .error failure) => (m, .failed failure)
    | (m, .ok false) => (m, .done)
    | (m, .ok true) => runFor program budget m

/-- The kind of the variable that the current statement reads, if it is an `in` that can read. -/
def awaitedKind? (program : Program) (m : Machine) : Option Kind :=
  match m.current.bind program.node? with
  | some ⟨_, [operand], scope, .input⟩ => (m.scopes.get? scope operand.raw).map Value.kind
  | _ => none

/--
The machine after it has refused every word there is, if that is what the current statement would
do. Whoever has more input may add it before the statement runs.
-/
def starved? (program : Program) (m : Machine) : Option Machine :=
  (m.awaitedKind? program).bind fun kind ↦
    match readWord kind m.output m.input.pieces with
    | (.closed, pieces, output) => some { m with input := ⟨pieces⟩, output }
    | _ => none

end Machine

end LineScript
