import LineScript.Expr.Tree

/-!
# Compiled expressions

A compiled expression lists the nodes of a tree, operands before operators and left before right,
so that the last node is the root and an operator refers to its operands by position. Parentheses
have no nodes. Since operands come first, whatever walks down from a node comes to an end.
-/

namespace LineScript

/-- A node of a compiled expression; operands are positions in the list of nodes. -/
inductive ExprNode where
  | atom (atom : Atom)
  | unary (op : UnaryOp) (operand : Nat)
  | binary (op : BinaryOp) (left right : Nat)
deriving DecidableEq

def ExprNode.operands : ExprNode → List Nat
  | atom _ => []
  | unary _ operand => [operand]
  | binary _ left right => [left, right]

/-- Whether every node refers only to nodes before it. -/
def OperandsFirst (nodes : Array ExprNode) : Prop :=
  ∀ (i : Nat) (h : i < nodes.size), ∀ j ∈ nodes[i].operands, j < i

theorem OperandsFirst.push {nodes : Array ExprNode} {node : ExprNode}
    (ordered : OperandsFirst nodes) (operands : ∀ j ∈ node.operands, j < nodes.size) :
    OperandsFirst (nodes.push node) := by
  intro i h j member
  rw [Array.getElem_push] at member
  split at member
  · exact ordered i _ j member
  · have := operands j member
    simp at h
    omega

structure Expr where
  nodes : Array ExprNode
  nodes_pos : 0 < nodes.size
  operandsFirst : OperandsFirst nodes

/-- Lists the nodes of a tree after others. -/
def Tree.listAfter (nodes : Array ExprNode) : Tree → Array ExprNode
  | .atom a => nodes.push (.atom a)
  | .unary op operand =>
    let nodes := operand.listAfter nodes
    nodes.push (.unary op (nodes.size - 1))
  | .binary op left right =>
    let lefts := left.listAfter nodes
    let leftRoot := lefts.size - 1
    let rights := right.listAfter lefts
    rights.push (.binary op leftRoot (rights.size - 1))

theorem Tree.size_lt_size_listAfter (tree : Tree) (nodes : Array ExprNode) :
    nodes.size < (tree.listAfter nodes).size := by
  induction tree generalizing nodes with
  | atom => simp [listAfter]
  | unary _ _ ih =>
    have := ih nodes
    simp only [listAfter, Array.size_push]
    omega
  | binary _ left _ ihLeft ihRight =>
    have := ihLeft nodes
    have := ihRight (left.listAfter nodes)
    simp only [listAfter, Array.size_push]
    omega

theorem Tree.operandsFirst_listAfter (tree : Tree) {nodes : Array ExprNode}
    (ordered : OperandsFirst nodes) : OperandsFirst (tree.listAfter nodes) := by
  induction tree generalizing nodes with
  | atom => exact ordered.push (by simp [ExprNode.operands])
  | unary _ operand ih =>
    have := operand.size_lt_size_listAfter nodes
    exact (ih ordered).push (by simp only [ExprNode.operands, List.mem_singleton]; omega)
  | binary _ left right ihLeft ihRight =>
    have := left.size_lt_size_listAfter nodes
    have := right.size_lt_size_listAfter (left.listAfter nodes)
    exact (ihRight (ihLeft ordered)).push (by simp only [ExprNode.operands, List.mem_cons]; grind)

namespace Expr

def size (e : Expr) : Nat :=
  e.nodes.size

def root (e : Expr) : Nat :=
  e.size - 1

theorem root_lt (e : Expr) : e.root < e.nodes.size := by
  have := e.nodes_pos
  simp only [root, size]
  omega

def ofTree (tree : Tree) : Expr where
  nodes := tree.listAfter #[]
  nodes_pos := tree.size_lt_size_listAfter #[]
  operandsFirst := tree.operandsFirst_listAfter (by intro i h; simp at h)

def parse (text : String) : Except ParseError Expr :=
  (Tree.parse text).map ofTree

theorem operand_lt (e : Expr) {i : Nat} (h : i < e.nodes.size) {op : UnaryOp} {j : Nat}
    (node : e.nodes[i] = .unary op j) : j < i :=
  e.operandsFirst i h j (by simp [node, ExprNode.operands])

theorem left_lt (e : Expr) {i : Nat} (h : i < e.nodes.size) {op : BinaryOp} {j k : Nat}
    (node : e.nodes[i] = .binary op j k) : j < i :=
  e.operandsFirst i h j (by simp [node, ExprNode.operands])

theorem right_lt (e : Expr) {i : Nat} (h : i < e.nodes.size) {op : BinaryOp} {j k : Nat}
    (node : e.nodes[i] = .binary op j k) : k < i :=
  e.operandsFirst i h k (by simp [node, ExprNode.operands])

end Expr

def Atom.render : Atom → String
  | number value => Shortest.render value
  | text value => "\"" ++ value ++ "\""
  | bool value => if value then "true" else "false"
  | name identifier => identifier

namespace Expr

/--
Writes the expression that a node stands for after what was written before, each binary operator
in parentheses.
-/
def writeAt (e : Expr) (written : String) (i : Nat) (h : i < e.nodes.size) : String :=
  match node : e.nodes[i] with
  | .atom a => written ++ a.render
  | .unary op j =>
    have hj := e.operand_lt h node
    e.writeAt (written ++ op.symbol.text) j (Nat.lt_trans hj h)
  | .binary op j k =>
    have hj := e.left_lt h node
    have hk := e.right_lt h node
    let left := e.writeAt (written ++ "(") j (Nat.lt_trans hj h)
    e.writeAt (left ++ " " ++ op.symbol.text ++ " ") k (Nat.lt_trans hk h) ++ ")"
termination_by i

def render (e : Expr) : String :=
  e.writeAt "" e.root e.root_lt

end Expr

end LineScript
