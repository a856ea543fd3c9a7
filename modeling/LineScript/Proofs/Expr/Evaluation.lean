import LineScript.Expr.Eval
import LineScript.Proofs.Expr.Arena

/-!
# Evaluating trees

A tree has its outcome from the outcomes of its parts. The nodes that a tree is compiled into have
the outcome of the tree, so nothing is lost by evaluating these.
-/

namespace LineScript

variable {resolve : String → Option Value} {tree : Tree}

def Tree.eval (resolve : String → Option Value) : Tree → Except EvalError Outcome
  | .atom a => a.eval resolve
  | .unary op operand => do
    op.apply (← operand.eval resolve)
  | .binary op left right => do
    let left ← left.eval resolve
    match ← op.shortcut? left with
    | some outcome => return outcome
    | none => op.apply left (← right.eval resolve)

namespace Expr

/-- A node has the outcome of the tree that it stands for. -/
theorem evalAt_of_shows {e : Expr} {i : Nat} (h : Shows e.nodes i tree) (hi : i < e.nodes.size) :
    e.evalAt resolve i hi = tree.eval resolve := by
  induction h with
  | atom hnode =>
    rw [Array.getElem?_eq_getElem hi] at hnode
    rw [evalAt]
    split <;> rename_i hfound <;> rw [hfound] at hnode <;> cases hnode
    rfl
  | unary hnode _ ih =>
    rw [Array.getElem?_eq_getElem hi] at hnode
    rw [evalAt]
    split <;> rename_i hfound <;> rw [hfound] at hnode <;> cases hnode
    dsimp only
    rw [ih]
    rfl
  | binary hnode _ _ ihLeft ihRight =>
    rw [Array.getElem?_eq_getElem hi] at hnode
    rw [evalAt]
    split <;> rename_i hfound <;> rw [hfound] at hnode <;> cases hnode
    dsimp only
    simp only [ihLeft, ihRight]
    rfl

/-- A compiled tree has the outcome of the tree. -/
theorem eval_ofTree (tree : Tree) : (ofTree tree).eval resolve = tree.eval resolve :=
  evalAt_of_shows (shows_listAfter tree #[]) _

end Expr

end LineScript
