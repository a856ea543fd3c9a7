import LineScript.Expr.Token

/-!
# Trees of expressions

`Tree.ofScan` reads tokens as the tree of an expression, token by token and without looking ahead.
What was read so far is a stack of frames, each an operator that waits for its right operand or a
parenthesis that waits to be closed, and perhaps a value. An operator that follows a value first
completes the frames that bind at least as tightly; a closing parenthesis, or the end, completes
all of them.
-/

namespace LineScript

/-- An expression: parentheses are not part of it. -/
inductive Tree where
  | atom (atom : Atom)
  | unary (op : UnaryOp) (operand : Tree)
  | binary (op : BinaryOp) (left right : Tree)
deriving DecidableEq

/-- What waits for the value being read. -/
inductive Frame where
  | group
  | unary (op : UnaryOp)
  | binary (op : BinaryOp) (left : Tree)
deriving DecidableEq

/-- How far an expression has been read, the innermost frame first. -/
inductive Reading where
  | wanting (frames : List Frame)
  | having (frames : List Frame) (value : Tree)
deriving DecidableEq

namespace Reading

def start : Reading :=
  .wanting []

/--
Completes the frames that bind at least as tightly as a level, up to a parenthesis. What is left
on the stack then waits for more.
-/
def complete (level : Nat) : List Frame → Tree → List Frame × Tree
  | .unary op :: frames, value => complete level frames (.unary op value)
  | .binary op left :: frames, value =>
    if level ≤ op.level then complete level frames (.binary op left value)
    else (.binary op left :: frames, value)
  | frames, value => (frames, value)

/-- What may follow a value once all operators before it are complete. -/
def expectation : List Frame → Expectation
  | [] => .operatorOrEnd
  | _ => .closeParen

/-- Reads a token where a value must start. -/
def wantingStep (frames : List Frame) (lexeme : Lexeme) : Except ParseError Reading :=
  match lexeme.token with
  | .atom atom => .ok (.having frames (.atom atom))
  | .symbol .openParen => .ok (.wanting (.group :: frames))
  | .symbol s =>
    match s.unary? with
    | some op => .ok (.wanting (.unary op :: frames))
    | none => .error (.unexpectedToken lexeme.token .value lexeme.offset)

/-- Reads a token after a value. -/
def havingStep (frames : List Frame) (value : Tree) (lexeme : Lexeme) :
    Except ParseError Reading :=
  let (left, whole) := complete 0 frames value
  let refusal := .error (.unexpectedToken lexeme.token (expectation left) lexeme.offset)
  match lexeme.token, left with
  | .symbol .closeParen, .group :: outer => .ok (.having outer whole)
  | .symbol s, _ =>
    match s.binary? with
    | some op =>
      let (outer, operand) := complete op.level frames value
      .ok (.wanting (.binary op operand :: outer))
    | none => refusal
  | .atom _, _ => refusal

def step : Reading → Lexeme → Except ParseError Reading
  | .wanting frames, lexeme => wantingStep frames lexeme
  | .having frames value, lexeme => havingStep frames value lexeme

def finish (stop : Nat) : Reading → Except ParseError Tree
  | .wanting _ => .error (.unexpectedToken none .value stop)
  | .having frames value =>
    match complete 0 frames value with
    | ([], whole) => .ok whole
    | (left, _) => .error (.unexpectedToken none (expectation left) stop)

end Reading

def Tree.ofScan (scan : Scan) : Except ParseError Tree :=
  if scan.lexemes.isEmpty then .error .empty
  else do
    let reading ← scan.lexemes.foldlM Reading.step Reading.start
    reading.finish scan.stop

def Tree.parse (text : String) : Except ParseError Tree := do
  Tree.ofScan (← scan text)

end LineScript
