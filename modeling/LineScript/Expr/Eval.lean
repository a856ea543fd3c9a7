import LineScript.Expr.Expr
import LineScript.Value

/-!
# Evaluating expressions

An expression has a number, a truth value or a text as its outcome. Operands are evaluated from
left to right, and the right operand of `&&` and `||` only where the left one does not decide. The
first operand or operator that fails, in that order, gives the error.
-/

namespace LineScript

inductive Outcome where
  | number (value : Float)
  | bool (value : Bool)
  | text (value : String)
deriving DecidableEq

inductive OutcomeKind where
  | number
  | bool
  | text
deriving DecidableEq, Repr

def OutcomeKind.description : OutcomeKind → String
  | number => "number"
  | bool => "bool"
  | text => "string"

inductive EvalError where
  | undefinedVariable (name : String)
  | invalidOperands (op : Symbol) (left right : OutcomeKind)
  | invalidOperand (op : Symbol) (operand : OutcomeKind)
deriving DecidableEq, Repr

def EvalError.message : EvalError → String
  | undefinedVariable name => "undefined variable: " ++ name
  | invalidOperands op left right =>
    "operator `" ++ op.text ++ "` cannot be applied to " ++ left.description ++ " and " ++
      right.description
  | invalidOperand op operand =>
    "operator `" ++ op.text ++ "` cannot be applied to " ++ operand.description

namespace Outcome

def kind : Outcome → OutcomeKind
  | number _ => .number
  | bool _ => .bool
  | text _ => .text

def display : Outcome → String
  | number value => SixPlaces.render value
  | bool value => if value then "true" else "false"
  | text value => value

def ofValue : Value → Outcome
  | .number value => .number value
  | .text value => .text value

/-- The truth of an operand of a logical operator: a number is true unless it is zero. -/
def truth (op : Symbol) : Outcome → Except EvalError Bool
  | bool value => .ok value
  | number value => .ok (value != 0)
  | text _ => .error (.invalidOperand op .text)

/-- Whether two outcomes are equal; outcomes of different kinds are not. -/
def equals : Outcome → Outcome → Bool
  | number x, number y => x == y
  | bool x, bool y => x == y
  | text x, text y => x == y
  | _, _ => false

end Outcome

def UnaryOp.apply (op : UnaryOp) (operand : Outcome) : Except EvalError Outcome :=
  match op, operand with
  | negate, .number x => .ok (.number (-x))
  | negate, _ => .error (.invalidOperand op.symbol operand.kind)
  | not, _ => return .bool (!(← operand.truth op.symbol))

namespace BinaryOp

/-- Compares numbers by size and texts by the code points of their characters. -/
def compare? (numbers : Float → Float → Bool) (texts : String → String → Bool) :
    Outcome → Outcome → Option Outcome
  | .number x, .number y => some (.bool (numbers x y))
  | .text x, .text y => some (.bool (texts x y))
  | _, _ => none

def compute? (operation : Float → Float → Float) : Outcome → Outcome → Option Outcome
  | .number x, .number y => some (.number (operation x y))
  | _, _ => none

/-- Adds numbers, and joins texts with whatever they are added to. -/
def add? : Outcome → Outcome → Option Outcome
  | .number x, .number y => some (.number (x + y))
  | .text x, y => some (.text (x ++ y.display))
  | x, .text y => some (.text (x.display ++ y))
  | _, _ => none

/--
The outcome of a binary operator on two outcomes, unless it does not apply to their kinds. Of the
logical operators nothing but the right operand is left to decide here.
-/
def apply (op : BinaryOp) (left right : Outcome) : Except EvalError Outcome :=
  let orMismatch (outcome : Option Outcome) : Except EvalError Outcome :=
    match outcome with
    | some outcome => .ok outcome
    | none => .error (.invalidOperands op.symbol left.kind right.kind)
  match op with
  | or | and => return .bool (← right.truth op.symbol)
  | equal => .ok (.bool (left.equals right))
  | different => .ok (.bool (!left.equals right))
  | less => orMismatch (compare? (· < ·) (· < ·) left right)
  | atMost => orMismatch (compare? (· ≤ ·) (· ≤ ·) left right)
  | greater => orMismatch (compare? (· > ·) (· > ·) left right)
  | atLeast => orMismatch (compare? (· ≥ ·) (· ≥ ·) left right)
  | add => orMismatch (add? left right)
  | subtract => orMismatch (compute? (· - ·) left right)
  | multiply => orMismatch (compute? (· * ·) left right)
  | divide => orMismatch (compute? (· / ·) left right)
  | remainder => orMismatch (compute? Binary64.remainder left right)

/-- The outcome of a logical operator that its left operand decides. -/
def shortcut? (op : BinaryOp) (left : Outcome) : Except EvalError (Option Outcome) :=
  match op with
  | and => return if ← left.truth op.symbol then none else some (.bool false)
  | or => return if ← left.truth op.symbol then some (.bool true) else none
  | _ => .ok none

end BinaryOp

/-- The outcome of an atom, where `resolve` gives the values of names. -/
def Atom.eval (resolve : String → Option Value) : Atom → Except EvalError Outcome
  | number value => .ok (.number value)
  | text value => .ok (.text value)
  | bool value => .ok (.bool value)
  | name identifier =>
    match resolve identifier with
    | some value => .ok (.ofValue value)
    | none => .error (.undefinedVariable identifier)

namespace Expr

/-- The outcome of the expression that a node stands for. -/
def evalAt (e : Expr) (resolve : String → Option Value) (i : Nat) (h : i < e.nodes.size) :
    Except EvalError Outcome :=
  match node : e.nodes[i] with
  | .atom a => a.eval resolve
  | .unary op j => do
    have hj := e.operand_lt h node
    op.apply (← e.evalAt resolve j (Nat.lt_trans hj h))
  | .binary op j k => do
    have hj := e.left_lt h node
    have hk := e.right_lt h node
    let left ← e.evalAt resolve j (Nat.lt_trans hj h)
    match ← op.shortcut? left with
    | some outcome => return outcome
    | none => op.apply left (← e.evalAt resolve k (Nat.lt_trans hk h))
termination_by i

def eval (e : Expr) (resolve : String → Option Value) : Except EvalError Outcome :=
  e.evalAt resolve e.root e.root_lt

end Expr

end LineScript
