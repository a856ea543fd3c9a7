import LineScript.Formula

/-!
# Linked programs

A linked program is an array of nodes, one for each statement, in source order. Statements run one
after the other; a node that opens or closes a block also knows where to go instead.
-/

namespace LineScript

/-- Where a statement stands, for messages. -/
structure Location where
  file : String
  line : Nat
  keyword : String
deriving DecidableEq, Repr

def Location.describe (location : Location) : String :=
  "File: " ++ location.file ++ " / Line: " ++ toString location.line ++ " / " ++ location.keyword

structure Parameter where
  name : String
  kind : Kind
deriving DecidableEq, Repr

/-- The declaration of a function, and the scope of its body. -/
structure Signature where
  name : String
  parameters : List Parameter
  bodyScope : ScopeId
deriving DecidableEq, Repr

/-- An operand of a call, for a parameter of the function called. -/
structure Argument where
  parameter : Parameter
  operand : Operand
deriving DecidableEq, Repr

/-- What kind of block an `end` closes; the end of a loop goes back to its header. -/
inductive BlockKind where
  | loop (header : NodeId)
  | function
  | branch
deriving DecidableEq, Repr

/-- What a statement does. Where a block is left out, `past` is the node after its `end`. -/
inductive Action where
  | declare (kind : Kind)
  | output
  | input
  | loop (past : Option NodeId) (condition : Formula)
  | branch (past : Option NodeId) (condition : Formula)
  | function (past : Option NodeId) (signature : Signature)
  | call (callee : NodeId) (function : String) (arguments : List Argument)
  | close (block : BlockKind)
  | assign (target : String) (formula : Option Formula)

def Action.label : Action → String
  | declare kind => kind.keyword
  | output => "out"
  | input => "in"
  | loop .. => "while"
  | branch .. => "if"
  | function .. => "function"
  | call .. => "call"
  | close _ => "end"
  | assign .. => "assign"

structure Node where
  location : Location
  operands : List Operand
  scope : ScopeId
  action : Action

structure Program where
  nodes : Array Node

namespace Program

def size (program : Program) : Nat :=
  program.nodes.size

def node? (program : Program) (id : NodeId) : Option Node :=
  program.nodes[id]?

def entry? (program : Program) : Option NodeId :=
  if 0 < program.size then some 0 else none

/-- The position after one, unless it is the last. -/
def next? (program : Program) (id : NodeId) : Option NodeId :=
  if id + 1 < program.size then some (id + 1) else none

/-- The position before one, unless it is the first. -/
def previous? (id : NodeId) : Option NodeId :=
  if 0 < id then some (id - 1) else none

def location? (program : Program) (id : NodeId) : Option Location :=
  (program.node? id).map (·.location)

end Program

/-- A linked program and the scopes that its nodes refer to. -/
structure Linked where
  program : Program
  scopes : ScopeTree

end LineScript
