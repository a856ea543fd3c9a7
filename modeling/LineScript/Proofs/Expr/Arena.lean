import LineScript.Expr.Expr
import Mathlib.Tactic.Common

/-!
# Trees in lists of nodes

A compiled expression still has the tree that it was compiled from: it is read off the nodes from
the root down. Compiling lists every node of the tree exactly once.
-/

namespace LineScript

/-- The number of atoms and operators of a tree. -/
def Tree.size : Tree → Nat
  | .atom _ => 1
  | .unary _ operand => operand.size + 1
  | .binary _ left right => left.size + right.size + 1

theorem Tree.size_listAfter (tree : Tree) (nodes : Array ExprNode) :
    (tree.listAfter nodes).size = nodes.size + tree.size := by
  induction tree generalizing nodes with
  | atom => simp [listAfter, size]
  | unary _ _ ih =>
    simp only [listAfter, Array.size_push, size]
    rw [ih]
    omega
  | binary _ left _ ihLeft ihRight =>
    simp only [listAfter, Array.size_push, size]
    rw [ihRight, ihLeft]
    omega

/-- A node of a list stands for a tree. -/
inductive Shows (nodes : Array ExprNode) : Nat → Tree → Prop where
  | atom {i : Nat} {a : Atom} : nodes[i]? = some (.atom a) → Shows nodes i (.atom a)
  | unary {i j : Nat} {op : UnaryOp} {operand : Tree} : nodes[i]? = some (.unary op j) →
      Shows nodes j operand → Shows nodes i (.unary op operand)
  | binary {i j k : Nat} {op : BinaryOp} {left right : Tree} :
      nodes[i]? = some (.binary op j k) → Shows nodes j left → Shows nodes k right →
      Shows nodes i (.binary op left right)

theorem Shows.push {nodes : Array ExprNode} {i : Nat} {tree : Tree} (h : Shows nodes i tree)
    (node : ExprNode) : Shows (nodes.push node) i tree := by
  have hkept : ∀ {i : Nat} {found : ExprNode}, nodes[i]? = some found →
      (nodes.push node)[i]? = some found := by
    intro i found hfound
    obtain ⟨hlt, rfl⟩ := Array.getElem?_eq_some_iff.1 hfound
    rw [Array.getElem?_push_lt hlt]
  induction h with
  | atom hnode => exact .atom (hkept hnode)
  | unary hnode _ ih => exact .unary (hkept hnode) ih
  | binary hnode _ _ ihLeft ihRight => exact .binary (hkept hnode) ihLeft ihRight

/-- What nodes stand for does not change when more are listed. -/
theorem Shows.listAfter {nodes : Array ExprNode} {i : Nat} {tree : Tree} (h : Shows nodes i tree)
    (other : Tree) : Shows (other.listAfter nodes) i tree := by
  induction other generalizing nodes with
  | atom a => exact h.push _
  | unary op operand ih => exact (ih h).push _
  | binary op left right ihLeft ihRight => exact (ihRight (ihLeft h)).push _

/-- The last node that is listed for a tree stands for it. -/
theorem shows_listAfter (tree : Tree) (nodes : Array ExprNode) :
    Shows (tree.listAfter nodes) ((tree.listAfter nodes).size - 1) tree := by
  induction tree generalizing nodes with
  | atom a =>
    apply Shows.atom
    simp [Tree.listAfter]
  | unary op operand ih =>
    have hoperand := (ih nodes).push (.unary op ((operand.listAfter nodes).size - 1))
    refine .unary ?_ hoperand
    simp [Tree.listAfter]
  | binary op left right ihLeft ihRight =>
    have hleft := (ihLeft nodes).listAfter right
    have hright := ihRight (left.listAfter nodes)
    refine .binary ?_ (hleft.push _) (hright.push _)
    simp [Tree.listAfter]

namespace Expr

def treeAt (e : Expr) (i : Nat) (h : i < e.nodes.size) : Tree :=
  match node : e.nodes[i] with
  | .atom a => .atom a
  | .unary op j =>
    have hj := e.operand_lt h node
    .unary op (e.treeAt j (Nat.lt_trans hj h))
  | .binary op j k =>
    have hj := e.left_lt h node
    have hk := e.right_lt h node
    .binary op (e.treeAt j (Nat.lt_trans hj h)) (e.treeAt k (Nat.lt_trans hk h))
termination_by i

def tree (e : Expr) : Tree :=
  e.treeAt e.root e.root_lt

theorem treeAt_of_shows {e : Expr} {i : Nat} {tree : Tree} (h : Shows e.nodes i tree)
    (hi : i < e.nodes.size) : e.treeAt i hi = tree := by
  induction h with
  | atom hnode =>
    rw [Array.getElem?_eq_getElem hi] at hnode
    rw [treeAt]
    split <;> rename_i hfound <;> rw [hfound] at hnode <;> cases hnode
    rfl
  | @unary i j op operand hnode _ ih =>
    rw [Array.getElem?_eq_getElem hi] at hnode
    rw [treeAt]
    split <;> rename_i hfound <;> rw [hfound] at hnode <;> cases hnode
    exact congrArg (Tree.unary op) (ih _)
  | @binary i j k op left right hnode _ _ ihLeft ihRight =>
    rw [Array.getElem?_eq_getElem hi] at hnode
    rw [treeAt]
    split <;> rename_i hfound <;> rw [hfound] at hnode <;> cases hnode
    exact congrArg₂ (Tree.binary op) (ihLeft _) (ihRight _)

/-- A compiled expression has the tree that was compiled. -/
theorem tree_ofTree (tree : Tree) : (ofTree tree).tree = tree :=
  treeAt_of_shows (shows_listAfter tree #[]) _

theorem size_ofTree (tree : Tree) : (ofTree tree).size = tree.size := by
  calc
    (ofTree tree).size = (#[] : Array ExprNode).size + tree.size := tree.size_listAfter #[]
    _ = tree.size := Nat.zero_add tree.size

end Expr

end LineScript
