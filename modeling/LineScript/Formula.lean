import LineScript.Expr.Eval
import LineScript.Operand

/-!
# Formulas

A formula is the expression that operands spell out, kept with its text. Conditions and numeric
assignments have one. It is compiled once and evaluated as often as its statement runs; its value
is a number, where truth counts as one and falsehood as zero.
-/

namespace LineScript

inductive FormulaFault where
  | eval (error : EvalError)
  | notNumber (kind : OutcomeKind)
deriving DecidableEq, Repr

def FormulaFault.message : FormulaFault → String
  | eval error => error.message
  | notNumber kind => "expected a number, got " ++ kind.description

inductive FormulaError where
  | empty
  | invalid (text : String) (reason : ParseError)
  | failed (text : String) (reason : FormulaFault)
deriving DecidableEq

def FormulaError.message : FormulaError → String
  | empty => "empty expression"
  | invalid text reason => "invalid expression `" ++ text ++ "`: " ++ reason.message
  | failed text reason => "cannot evaluate `" ++ text ++ "`: " ++ reason.message

/-- A compiled expression with the text it was read from. -/
structure Formula where
  text : String
  expr : Expr

namespace Formula

/-- The text that operands spell out. -/
def spell (operands : List Operand) : String :=
  joinWords (operands.map Operand.raw)

def compile (operands : List Operand) : Except FormulaError Formula :=
  let text := spell operands
  if (trimBlanks text.toList).isEmpty then .error .empty
  else
    match Expr.parse text with
    | .ok expr => .ok ⟨text, expr⟩
    | .error reason => .error (.invalid text reason)

/-- The number that an outcome counts as. -/
def asNumber : Outcome → Except FormulaFault Float
  | .number value => .ok value
  | .bool value => .ok (if value then 1 else 0)
  | .text _ => .error (.notNumber .text)

def eval (formula : Formula) (scopes : ScopeTree) (scope : ScopeId) :
    Except FormulaError Float :=
  match formula.expr.eval (scopes.get? scope) with
  | .error error => .error (.failed formula.text (.eval error))
  | .ok outcome => (asNumber outcome).mapError (.failed formula.text)

end Formula

end LineScript
