/-!
# Operators

The operators of expressions, how they are written, and how tightly they bind. Every binary
operator associates to the left, and the two unary ones bind tighter than all of them.
-/

namespace LineScript

inductive Symbol where
  | plus
  | minus
  | star
  | slash
  | percent
  | equal
  | different
  | less
  | atMost
  | greater
  | atLeast
  | and
  | or
  | not
  | openParen
  | closeParen
deriving DecidableEq, Repr

namespace Symbol

def text : Symbol → String
  | plus => "+"
  | minus => "-"
  | star => "*"
  | slash => "/"
  | percent => "%"
  | equal => "=="
  | different => "!="
  | less => "<"
  | atMost => "<="
  | greater => ">"
  | atLeast => ">="
  | and => "&&"
  | or => "||"
  | not => "!"
  | openParen => "("
  | closeParen => ")"

/-- The symbol that a text starts with; of two, the longer one. -/
def ofStart? : List Char → Option Symbol
  | '=' :: '=' :: _ => some equal
  | '!' :: '=' :: _ => some different
  | '<' :: '=' :: _ => some atMost
  | '>' :: '=' :: _ => some atLeast
  | '&' :: '&' :: _ => some and
  | '|' :: '|' :: _ => some or
  | '<' :: _ => some less
  | '>' :: _ => some greater
  | '!' :: _ => some not
  | '+' :: _ => some plus
  | '-' :: _ => some minus
  | '*' :: _ => some star
  | '/' :: _ => some slash
  | '%' :: _ => some percent
  | '(' :: _ => some openParen
  | ')' :: _ => some closeParen
  | _ => none

end Symbol

inductive UnaryOp where
  | negate
  | not
deriving DecidableEq, Repr

inductive BinaryOp where
  | or
  | and
  | equal
  | different
  | less
  | atMost
  | greater
  | atLeast
  | add
  | subtract
  | multiply
  | divide
  | remainder
deriving DecidableEq, Repr

def UnaryOp.symbol : UnaryOp → Symbol
  | negate => .minus
  | not => .not

def BinaryOp.symbol : BinaryOp → Symbol
  | or => .or
  | and => .and
  | equal => .equal
  | different => .different
  | less => .less
  | atMost => .atMost
  | greater => .greater
  | atLeast => .atLeast
  | add => .plus
  | subtract => .minus
  | multiply => .star
  | divide => .slash
  | remainder => .percent

def BinaryOp.level : BinaryOp → Nat
  | or => 0
  | and => 1
  | equal | different => 2
  | less | atMost | greater | atLeast => 3
  | add | subtract => 4
  | multiply | divide | remainder => 5

namespace Symbol

/-- The operator that a symbol is in front of a value. -/
def unary? : Symbol → Option UnaryOp
  | minus => some .negate
  | not => some .not
  | _ => none

/-- The operator that a symbol is after a value. -/
def binary? : Symbol → Option BinaryOp
  | or => some .or
  | and => some .and
  | equal => some .equal
  | different => some .different
  | less => some .less
  | atMost => some .atMost
  | greater => some .greater
  | atLeast => some .atLeast
  | plus => some .add
  | minus => some .subtract
  | star => some .multiply
  | slash => some .divide
  | percent => some .remainder
  | _ => none

theorem unary?_eq_some_iff {s : Symbol} {op : UnaryOp} : s.unary? = some op ↔ s = op.symbol := by
  cases s <;> cases op <;> decide

theorem binary?_eq_some_iff {s : Symbol} {op : BinaryOp} :
    s.binary? = some op ↔ s = op.symbol := by
  cases s <;> cases op <;> decide

end Symbol

end LineScript
