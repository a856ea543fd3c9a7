import LineScript.Expr.Operator
import LineScript.Number.Decimal
import LineScript.Number.Shortest

/-!
# Tokens of expressions

An expression is written with numbers, quoted texts, names, the words `true` and `false`, and
symbols. `scan` takes the longest token off the front of a text again and again, and records for
each the characters it is made of and the byte it starts at. Between tokens there may be ASCII
white space and nothing else.
-/

namespace LineScript

/-- What an expression says without operators. -/
inductive Atom where
  | number (value : Float)
  | text (value : String)
  | bool (value : Bool)
  | name (name : String)
deriving DecidableEq

inductive Token where
  | atom (atom : Atom)
  | symbol (symbol : Symbol)
deriving DecidableEq

def Token.description : Token → String
  | atom (.number value) => "number " ++ Shortest.render value
  | atom (.text value) => "string \"" ++ value ++ "\""
  | atom (.bool value) => if value then "`true`" else "`false`"
  | atom (.name name) => "identifier `" ++ name ++ "`"
  | symbol s => "`" ++ s.text ++ "`"

/-- A token, the characters it is made of, and the byte it starts at. -/
structure Lexeme where
  token : Token
  text : List Char
  offset : Nat
deriving DecidableEq

/-- What the parser asks for where something else stands. -/
inductive Expectation where
  | value
  | closeParen
  | operatorOrEnd
deriving DecidableEq, Repr

def Expectation.description : Expectation → String
  | value => "a value"
  | closeParen => "`)`"
  | operatorOrEnd => "an operator or end of expression"

/-- Why a text is no expression; `none` is found where the text ends. -/
inductive ParseError where
  | unexpectedChar (c : Char) (offset : Nat)
  | unterminatedText (offset : Nat)
  | empty
  | unexpectedToken (found : Option Token) (expected : Expectation) (offset : Nat)
deriving DecidableEq

def ParseError.message : ParseError → String
  | unexpectedChar c offset =>
    "unexpected character '" ++ c.toString ++ "' at offset " ++ toString offset
  | unterminatedText offset =>
    "unterminated string literal starting at offset " ++ toString offset
  | empty => "empty expression"
  | unexpectedToken found expected offset =>
    "unexpected " ++ (found.map Token.description).getD "end of expression" ++ " at offset " ++
      toString offset ++ ", expected " ++ expected.description

namespace Lexeme

/-- Whether a character may stand between tokens. -/
def isGap (c : Char) : Bool :=
  c == ' ' || c == '\t' || c == '\n' || c == '\x0C' || c == '\r'

/-- Whether a character opens a quoted text, which the same character then closes. -/
def isQuote (c : Char) : Bool :=
  c == '"' || c == '\''

def startsName (c : Char) : Bool :=
  c.isAlpha || c == '_'

def continuesName (c : Char) : Bool :=
  c.isAlphanum || c == '_'

def wordAtom (word : List Char) : Atom :=
  if word = "true".toList then .bool true
  else if word = "false".toList then .bool false
  else .name (.ofList word)

/-- The quoted text at the front of a text, and its characters, if it is closed. -/
def quoted? (text : List Char) : Option (Token × List Char) :=
  match text with
  | [] => none
  | quote :: rest =>
    let body := rest.takeWhile (· != quote)
    if isQuote quote && rest.contains quote then
      some (.atom (.text (.ofList body)), quote :: body ++ [quote])
    else none

/-- The token at the front of a text, and its characters, if the text starts with one. -/
def first? (text : List Char) : Option (Token × List Char) :=
  match Numeral.split? text with
  | some (numeral, _) => some (.atom (.number (numeral.value.toFloat false)), numeral.text)
  | none =>
    if text.head?.any isQuote then quoted? text
    else if text.head?.any startsName then
      let word := text.takeWhile continuesName
      some (.atom (wordAtom word), word)
    else (Symbol.ofStart? text).map fun s ↦ (.symbol s, s.text.toList)

end Lexeme

/-- The tokens of a text, and the number of its bytes. -/
structure Scan where
  lexemes : List Lexeme
  stop : Nat
deriving DecidableEq

/--
The tokens of what is left of a text from a byte on. First `skip` characters are passed over: they
belong to the token before.
-/
def scanFrom (offset skip : Nat) : List Char → Except ParseError Scan
  | [] => .ok ⟨[], offset⟩
  | c :: rest =>
    match skip with
    | passed + 1 => scanFrom (offset + c.utf8Size) passed rest
    | 0 =>
      if Lexeme.isGap c then scanFrom (offset + c.utf8Size) 0 rest
      else
        match Lexeme.first? (c :: rest) with
        | some (token, text) => do
          let after ← scanFrom (offset + c.utf8Size) (text.length - 1) rest
          return ⟨⟨token, text, offset⟩ :: after.lexemes, after.stop⟩
        | none =>
          if Lexeme.isQuote c then .error (.unterminatedText offset)
          else .error (.unexpectedChar c offset)

def scan (text : String) : Except ParseError Scan :=
  scanFrom 0 0 text.toList

end LineScript
