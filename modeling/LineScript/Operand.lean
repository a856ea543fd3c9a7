import LineScript.Scope.ScopeTree

/-!
# Operands

The words after a statement's keyword are its operands: numbers, quoted texts, names and symbols.
A quoted text may hold blanks, and then it spans several words; `Operand.classify` puts these
together again. A word is inside a quoted text when the words before it hold an odd number of
quotation marks. A number never joins a quoted text, whatever stands around it.
-/

namespace LineScript

/-- One operand of a statement, as it is written. -/
inductive Operand where
  | number (raw : String)
  | text (raw : String)
  | name (raw : String)
  | symbol (raw : String)
deriving DecidableEq, Repr

def operandSymbols : List String :=
  ["==", "=", "!=", "<", ">", "<=", ">=", "+", "-", "/", "*", "%", "(", ")"]

def isOperandSymbol (word : String) : Bool :=
  operandSymbols.contains word

/-- Whether a word is a number; a digit must occur in it, so that `inf` and `nan` are names. -/
def isNumberWord (word : String) : Bool :=
  word.toList.any Char.isDigit && (readNumber? word).isSome

namespace Operand

def raw : Operand → String
  | number raw | text raw | name raw | symbol raw => raw

def isName : Operand → Bool
  | name _ => true
  | _ => false

/--
Adds a word to operands, of which the last comes first. The flag says whether a quoted text is
open in front of the word, and becomes whether one is open after it.
-/
def addWord (state : List Operand × Bool) (word : String) : List Operand × Bool :=
  let (operands, quoted) := state
  let operands :=
    if isNumberWord word then number word :: operands
    else if quoted || startsQuoted word then
      match quoted, operands with
      | true, text raw :: others => text (raw ++ " " ++ word) :: others
      | _, _ => text word :: operands
    else if isOperandSymbol word then symbol word :: operands
    else name word :: operands
  (operands, quoted != hasOddQuotes word)

def classify (words : List String) : List Operand :=
  (words.foldl addWord ([], false)).1.reverse

/-- The printable form, as seen from a scope; a name without a variable prints as nothing. -/
def display (operand : Operand) (scopes : ScopeTree) (scope : ScopeId) : String :=
  match operand with
  | text raw => unquote raw
  | name raw => ((scopes.get? scope raw).map Value.display).getD ""
  | number raw | symbol raw => raw

/-- The value, as seen from a scope; only a name without a variable has none. -/
def value? (operand : Operand) (scopes : ScopeTree) (scope : ScopeId) : Option Value :=
  match operand with
  | number raw => some (.number ((readNumber? raw).getD (Binary64.zero false)))
  | text raw => some (.text (unquote raw))
  | name raw => scopes.get? scope raw
  | symbol raw => some (.text raw)

end Operand

end LineScript
