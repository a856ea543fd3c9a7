import LineScript.Expr.Tree
import Mathlib.Data.List.Basic

/-!
# The grammar of expressions

Expressions have eight levels. From the loosest to the tightest they are chains of `||`, of `&&`, of
`==` and `!=`, of the comparisons, of `+` and `-`, and of `*`, `/` and `%`, then what begins with
`-` or `!`, then values and parentheses. A chain of operators of one level is grouped from the left:
its left part is of the same level, and its right part one level tighter. What is in parentheses may
be of any level, and the parentheses leave nothing in the tree.
-/

namespace LineScript

/-- Tokens that are an expression of some level, and its tree; level 0 is a whole expression. -/
inductive Derives : Nat → List Token → Tree → Prop where
  /-- What binds tighter will do where a looser expression may stand. -/
  | tighter {level : Nat} {word : List Token} {tree : Tree} : level < 7 →
      Derives (level + 1) word tree → Derives level word tree
  | binary {op : BinaryOp} {left right : List Token} {leftTree rightTree : Tree} :
      Derives op.level left leftTree → Derives (op.level + 1) right rightTree →
      Derives op.level (left ++ .symbol op.symbol :: right) (.binary op leftTree rightTree)
  | unary {op : UnaryOp} {word : List Token} {tree : Tree} : Derives 6 word tree →
      Derives 6 (.symbol op.symbol :: word) (.unary op tree)
  | atom (atom : Atom) : Derives 7 [.atom atom] (.atom atom)
  | group {word : List Token} {tree : Tree} : Derives 0 word tree →
      Derives 7 (.symbol .openParen :: (word ++ [.symbol .closeParen])) tree

theorem BinaryOp.level_lt (op : BinaryOp) : op.level < 6 := by
  cases op <;> decide

namespace Derives

variable {level : Nat} {word : List Token} {tree : Tree}

theorem level_le (h : Derives level word tree) : level ≤ 7 := by
  cases h with
  | tighter hlt _ => exact Nat.le_of_lt hlt
  | @binary op =>
    have hlt := op.level_lt
    omega
  | unary => decide
  | atom => exact Nat.le_refl 7
  | group => exact Nat.le_refl 7

/-- A tight expression will do at every looser level. -/
theorem loosen {looser : Nat} (h : Derives level word tree) (hle : looser ≤ level) :
    Derives looser word tree := by
  have hlevel := h.level_le
  induction level with
  | zero =>
    rw [Nat.le_zero.1 hle]
    exact h
  | succ level ih =>
    rcases Nat.lt_or_eq_of_le hle with hlt | rfl
    · exact ih (.tighter hlevel h) (Nat.lt_succ_iff.1 hlt) (Nat.le_of_succ_le hlevel)
    · exact h

theorem ne_nil (h : Derives level word tree) : word ≠ [] := by
  induction h with
  | tighter _ _ ih => exact ih
  | binary => simp
  | unary => simp
  | atom => simp
  | group => simp

end Derives

def Scan.tokens (scan : Scan) : List Token :=
  scan.lexemes.map fun lexeme ↦ lexeme.token

/-- The tokens of a text and its end, which is none, with the bytes that they start at. -/
def Scan.marks (scan : Scan) : List (Option Token × Nat) :=
  scan.lexemes.map (fun lexeme ↦ (some lexeme.token, lexeme.offset)) ++ [(none, scan.stop)]

/-- Tokens, and perhaps the end of a text, that an expression may start with. -/
def Viable (start : List (Option Token)) : Prop :=
  ∃ word tree, Derives 0 word tree ∧ start <+: word.map some ++ [none]

end LineScript
