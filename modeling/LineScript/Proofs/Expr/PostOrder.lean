import LineScript.Proofs.Expr.Printing
import Mathlib.Logic.Relation

/-!
# Post-order

A compiled expression lists its tree in post-order. What a node stands for fills a block of the list
that ends with the node; the block of an operand is a part of it, and where there are two operands
the block of the right one begins right behind that of the left one. So every node but the root is
the operand of exactly one other, and whoever goes from the root to operands, as printing and
evaluating do, comes to all nodes, to nothing else, and to an end. The nodes are the tokens of the
text without its parentheses, the values in the same order.
-/

namespace LineScript

variable {nodes : Array ExprNode} {start i j k p : Nat} {tree left right operand : Tree}

/-- The nodes that a tree is listed as from a position on. -/
def Tree.listing (start : Nat) : Tree → List ExprNode
  | .atom a => [.atom a]
  | .unary op operand => operand.listing start ++ [.unary op (start + operand.size - 1)]
  | .binary op left right =>
    left.listing start ++ right.listing (start + left.size) ++
      [.binary op (start + left.size - 1) (start + left.size + right.size - 1)]

/-- The last of these nodes. -/
def Tree.rootNode (start : Nat) : Tree → ExprNode
  | .atom a => .atom a
  | .unary op operand => .unary op (start + operand.size - 1)
  | .binary op left right =>
    .binary op (start + left.size - 1) (start + left.size + right.size - 1)

theorem Tree.size_pos (tree : Tree) : 0 < tree.size := by
  cases tree <;> simp [size]

@[simp]
theorem Tree.length_listing (tree : Tree) (start : Nat) :
    (tree.listing start).length = tree.size := by
  induction tree generalizing start with
  | atom => rfl
  | unary _ _ ih => simp [listing, size, ih]
  | binary _ _ _ ihLeft ihRight => simp [listing, size, ihLeft, ihRight, Nat.add_assoc]

theorem Tree.toList_listAfter (tree : Tree) (nodes : Array ExprNode) :
    (tree.listAfter nodes).toList = nodes.toList ++ tree.listing nodes.size := by
  induction tree generalizing nodes with
  | atom => simp [listAfter, listing]
  | unary _ operand ih => simp [listAfter, listing, ih, size_listAfter]
  | binary _ left right ihLeft ihRight =>
    simp [listAfter, listing, ihLeft, ihRight, size_listAfter]

/-- A block of a list of nodes, from a position on. -/
def HasBlock (nodes : Array ExprNode) (start : Nat) (block : List ExprNode) : Prop :=
  ∃ before after, nodes.toList = before ++ block ++ after ∧ before.length = start

namespace HasBlock

variable {block first second : List ExprNode}

theorem front (h : HasBlock nodes start (first ++ second)) : HasBlock nodes start first := by
  obtain ⟨before, after, hnodes, hlength⟩ := h
  exact ⟨before, second ++ after, by simp [hnodes], hlength⟩

theorem back (h : HasBlock nodes start (first ++ second)) :
    HasBlock nodes (start + first.length) second := by
  obtain ⟨before, after, hnodes, hlength⟩ := h
  exact ⟨before ++ first, after, by simp [hnodes], by simp [hlength]⟩

theorem getElem?_eq {node : ExprNode} (h : HasBlock nodes start [node]) :
    nodes[start]? = some node := by
  obtain ⟨before, after, hnodes, rfl⟩ := h
  rw [← Array.getElem?_toList, hnodes]
  simp

end HasBlock

/-- A block of nodes that lists a tree. -/
def Lists (nodes : Array ExprNode) (start : Nat) (tree : Tree) : Prop :=
  HasBlock nodes start (tree.listing start)

namespace Lists

theorem operand_of_unary {op : UnaryOp} (h : Lists nodes start (.unary op operand)) :
    Lists nodes start operand :=
  HasBlock.front h

theorem left_of_binary {op : BinaryOp} (h : Lists nodes start (.binary op left right)) :
    Lists nodes start left :=
  HasBlock.front (HasBlock.front h)

theorem right_of_binary {op : BinaryOp} (h : Lists nodes start (.binary op left right)) :
    Lists nodes (start + left.size) right := by
  have hright := HasBlock.back (HasBlock.front h)
  rwa [Tree.length_listing] at hright

/-- The node that a block ends with. -/
theorem node_eq (h : Lists nodes start tree) (hlast : i + 1 = start + tree.size) :
    nodes[i]? = some (tree.rootNode start) := by
  cases tree with
  | atom a =>
    obtain rfl : i = start := Nat.succ_injective hlast
    exact HasBlock.getElem?_eq h
  | unary op operand =>
    obtain rfl : i = start + operand.size := Nat.succ_injective hlast
    have hroot := HasBlock.back h
    rw [Tree.length_listing] at hroot
    exact hroot.getElem?_eq
  | binary op left right =>
    obtain rfl : i = start + (left.size + right.size) := Nat.succ_injective hlast
    have hroot := HasBlock.back h
    rw [List.length_append, Tree.length_listing, Tree.length_listing] at hroot
    exact hroot.getElem?_eq

/-- Every node of a block ends a block of its own inside it. -/
theorem exists_ending (h : Lists nodes start tree) (hfrom : start ≤ i)
    (hto : i < start + tree.size) :
    ∃ first part, Lists nodes first part ∧ start ≤ first ∧ i + 1 = first + part.size := by
  induction tree generalizing start with
  | atom a =>
    rw [Tree.size] at hto
    exact ⟨start, .atom a, h, Nat.le_refl _, by rw [Tree.size]; omega⟩
  | unary op operand ih =>
    rw [Tree.size] at hto
    by_cases hlast : i = start + operand.size
    · exact ⟨start, _, h, Nat.le_refl _, by rw [hlast, Tree.size]; omega⟩
    · exact ih h.operand_of_unary hfrom (by omega)
  | binary op left right ihLeft ihRight =>
    rw [Tree.size] at hto
    by_cases hlast : i = start + left.size + right.size
    · exact ⟨start, _, h, Nat.le_refl _, by rw [hlast, Tree.size]; omega⟩
    · by_cases hleft : i < start + left.size
      · exact ihLeft h.left_of_binary hfrom hleft
      · obtain ⟨first, part, hpart, hle, hend⟩ :=
          ihRight h.right_of_binary (by omega) (by omega)
        exact ⟨first, part, hpart, by omega, hend⟩

end Lists

/-- A node has another as an operand. -/
def Refers (nodes : Array ExprNode) (i j : Nat) : Prop :=
  ∃ node, nodes[i]? = some node ∧ j ∈ node.operands

/-- A node is part of what another stands for. -/
def Under (nodes : Array ExprNode) : Nat → Nat → Prop :=
  Relation.ReflTransGen (Refers nodes)

theorem refers_iff {node : ExprNode} (hnode : nodes[i]? = some node) :
    Refers nodes i j ↔ j ∈ node.operands := by
  constructor
  · rintro ⟨found, hfound, hmem⟩
    rw [hnode] at hfound
    cases hfound
    exact hmem
  · exact fun hmem ↦ ⟨node, hnode, hmem⟩

namespace Lists

/-- The operands of a node that ends a block stand before it, in the block. -/
theorem lt_of_refers_last (h : Lists nodes start tree) (hlast : i + 1 = start + tree.size)
    (hrefers : Refers nodes i j) : start ≤ j ∧ j < i := by
  have hmem := (refers_iff (h.node_eq hlast)).1 hrefers
  cases tree with
  | atom a => cases hmem
  | unary op operand =>
    have hpos := operand.size_pos
    rw [Tree.size] at hlast
    rw [List.mem_singleton.1 hmem]
    omega
  | binary op left right =>
    have hleft := left.size_pos
    have hright := right.size_pos
    rw [Tree.size] at hlast
    rcases List.mem_cons.1 hmem with rfl | hmem
    · omega
    · rw [List.mem_singleton.1 hmem]
      omega

theorem lt_of_refers (h : Lists nodes start tree) (hfrom : start ≤ i)
    (hto : i < start + tree.size) (hrefers : Refers nodes i j) : start ≤ j ∧ j < i := by
  obtain ⟨first, part, hpart, hle, hend⟩ := h.exists_ending hfrom hto
  obtain ⟨hfirst, hlt⟩ := hpart.lt_of_refers_last hend hrefers
  exact ⟨Nat.le_trans hle hfirst, hlt⟩

/-- Operands lead from a block to nothing outside it. -/
theorem mem_of_under (h : Lists nodes start tree) (hunder : Under nodes i p) (hfrom : start ≤ i)
    (hto : i < start + tree.size) : start ≤ p ∧ p ≤ i := by
  induction hunder with
  | refl => exact ⟨hfrom, Nat.le_refl i⟩
  | tail _ hrefers ih =>
    obtain ⟨hbefore, hle⟩ := ih
    obtain ⟨hstart, hlt⟩ := h.lt_of_refers hbefore (by omega) hrefers
    exact ⟨hstart, by omega⟩

/-- From the last node of a block operands lead to all of it. -/
theorem under_of_mem (h : Lists nodes start tree) (hlast : i + 1 = start + tree.size)
    (hfrom : start ≤ p) (hto : p ≤ i) : Under nodes i p := by
  induction tree generalizing start i with
  | atom a =>
    obtain rfl : p = i := Nat.le_antisymm hto (by rw [Tree.size] at hlast; omega)
    exact .refl
  | unary op operand ih =>
    have hnode := h.node_eq hlast
    rw [Tree.size] at hlast
    rcases Nat.eq_or_lt_of_le hto with rfl | hlt
    · exact .refl
    · have hrefers := (refers_iff hnode).2 (List.mem_singleton_self _)
      exact .head hrefers (ih h.operand_of_unary (by omega) hfrom (by omega))
  | binary op left right ihLeft ihRight =>
    have hnode := h.node_eq hlast
    rw [Tree.size] at hlast
    rcases Nat.eq_or_lt_of_le hto with rfl | hlt
    · exact .refl
    · by_cases hside : p < start + left.size
      · have hrefers := (refers_iff hnode).2 List.mem_cons_self
        exact .head hrefers (ihLeft h.left_of_binary (by omega) hfrom (by omega))
      · have hrefers := (refers_iff hnode).2
          (List.mem_cons_of_mem _ (List.mem_singleton_self _))
        exact .head hrefers (ihRight h.right_of_binary (by omega) (by omega) (by omega))

/-- What the last node of a block stands for is the block. -/
theorem under_iff (h : Lists nodes start tree) (hlast : i + 1 = start + tree.size) :
    Under nodes i p ↔ start ≤ p ∧ p ≤ i := by
  have hpos := tree.size_pos
  exact ⟨fun hunder ↦ h.mem_of_under hunder (by omega) (by omega),
    fun ⟨hfrom, hto⟩ ↦ h.under_of_mem hlast hfrom hto⟩

end Lists

/-- The operands of the nodes of a block are its positions but the last, each once. -/
theorem Tree.perm_operands_listing (tree : Tree) (start : Nat) :
    ((tree.listing start).flatMap ExprNode.operands).Perm (List.range' start (tree.size - 1)) := by
  have hsnoc : ∀ (part : Tree) (start : Nat),
      List.range' start (part.size - 1) ++ [start + part.size - 1] =
        List.range' start part.size := by
    intro part start
    have hpos := part.size_pos
    have happend := List.range'_append_1 (s := start) (m := part.size - 1) (n := 1)
    rw [Nat.sub_add_cancel hpos, ← Nat.add_sub_assoc hpos] at happend
    exact happend
  induction tree generalizing start with
  | atom a => exact .refl _
  | unary op operand ih =>
    rw [listing, List.flatMap_append, size, Nat.add_sub_cancel, ← hsnoc]
    exact (ih start).append_right _
  | binary op left right ihLeft ihRight =>
    have hparts := (ihLeft start).append (ihRight (start + left.size))
    rw [listing, List.flatMap_append, List.flatMap_append, size, Nat.add_sub_cancel,
      ← List.range'_append_1, ← hsnoc left, ← hsnoc right]
    refine (hparts.append_right _).trans ?_
    -- The root of the left operand goes to the end of its block, over all of the right one.
    rw [List.append_assoc, List.append_assoc]
    exact List.perm_middle.append_left _

/-- What is an operand at all is the operand of a node. -/
theorem mem_operands_iff : j ∈ nodes.toList.flatMap ExprNode.operands ↔ ∃ i, Refers nodes i j := by
  rw [List.mem_flatMap]
  constructor
  · rintro ⟨node, hnode, hmem⟩
    obtain ⟨i, hi⟩ := List.mem_iff_getElem?.1 hnode
    exact ⟨i, node, Array.getElem?_toList.symm.trans hi, hmem⟩
  · rintro ⟨i, node, hnode, hmem⟩
    exact ⟨node, List.mem_iff_getElem?.2 ⟨i, Array.getElem?_toList.trans hnode⟩, hmem⟩

/-- Where operands are listed once, no two nodes share one. -/
theorem Refers.eq_of_nodup (hnodup : (nodes.toList.flatMap ExprNode.operands).Nodup)
    (hi : Refers nodes i p) (hj : Refers nodes j p) : i = j := by
  have hpairwise := List.pairwise_iff_getElem.1 (List.nodup_flatMap.1 hnodup).2
  obtain ⟨first, hfirst, hmemFirst⟩ := hi
  obtain ⟨second, hsecond, hmemSecond⟩ := hj
  obtain ⟨hltFirst, rfl⟩ := Array.getElem?_eq_some_iff.1 hfirst
  obtain ⟨hltSecond, rfl⟩ := Array.getElem?_eq_some_iff.1 hsecond
  rcases Nat.lt_trichotomy i j with hlt | rfl | hgt
  · exact absurd hmemSecond (hpairwise i j hltFirst hltSecond hlt hmemFirst)
  · rfl
  · exact absurd hmemFirst (hpairwise j i hltSecond hltFirst hgt hmemSecond)

def ExprNode.token : ExprNode → Token
  | atom a => .atom a
  | unary op _ => .symbol op.symbol
  | binary op _ _ => .symbol op.symbol

def ExprNode.atom? : ExprNode → Option Atom
  | atom a => some a
  | _ => none

namespace Token

def atom? : Token → Option Atom
  | atom a => some a
  | symbol _ => none

def isParenthesis : Token → Bool
  | symbol .openParen | symbol .closeParen => true
  | _ => false

theorem isParenthesis_unary (op : UnaryOp) : (symbol op.symbol).isParenthesis = false := by
  cases op <;> rfl

theorem isParenthesis_binary (op : BinaryOp) : (symbol op.symbol).isParenthesis = false := by
  cases op <;> rfl

end Token

section

variable {level : Nat} {word : List Token}

/-- Tokens are listed one by one, without the parentheses. -/
theorem Derives.perm_token_listing (h : Derives level word tree) (start : Nat) :
    ((tree.listing start).map ExprNode.token).Perm
      (word.filter fun token ↦ !token.isParenthesis) := by
  induction h generalizing start with
  | tighter _ _ ih => exact ih start
  | @binary op _ _ leftTree _ _ _ ihLeft ihRight =>
    have hparts := (ihLeft start).append (ihRight (start + leftTree.size))
    rw [List.filter_append, List.filter_cons_of_pos (by simp [Token.isParenthesis_binary])]
    rw [Tree.listing, List.map_append, List.map_append]
    refine (hparts.append_right _).trans ?_
    rw [List.append_assoc]
    exact (List.perm_append_singleton _ _).append_left _
  | @unary op _ _ _ ih =>
    rw [List.filter_cons_of_pos (by simp [Token.isParenthesis_unary]), Tree.listing,
      List.map_append]
    exact ((ih start).append_right _).trans (List.perm_append_singleton _ _)
  | atom a => exact .refl _
  | group _ ih => simpa [Token.isParenthesis] using ih start

/-- The values of a tree are those of its tokens, in their order. -/
theorem Derives.filterMap_atom? (h : Derives level word tree) :
    word.filterMap Token.atom? = tree.atoms := by
  induction h with
  | tighter _ _ ih => exact ih
  | binary _ _ ihLeft ihRight =>
    rw [List.filterMap_append, List.filterMap_cons_none rfl, ihLeft, ihRight]
    rfl
  | unary _ ih =>
    rw [List.filterMap_cons_none rfl]
    exact ih
  | atom a => rfl
  | group _ ih =>
    rw [List.filterMap_cons_none rfl, List.filterMap_append, ih]
    exact List.append_nil _

theorem Tree.filterMap_atom?_listing (tree : Tree) (start : Nat) :
    (tree.listing start).filterMap ExprNode.atom? = tree.atoms := by
  induction tree generalizing start with
  | atom a => rfl
  | unary _ _ ih => simp [listing, atoms, ExprNode.atom?, ih]
  | binary _ _ _ ihLeft ihRight => simp [listing, atoms, ExprNode.atom?, ihLeft, ihRight]

end

/-- The nodes of a compiled expression and the position of its root, of which nothing is known. -/
structure Arena where
  nodes : Array ExprNode
  root : Nat
deriving DecidableEq

/-- What an expression is, apart from what is known of it. -/
def Expr.arena (e : Expr) : Arena :=
  ⟨e.nodes, e.root⟩

/-- Whoever walks from a node to operands finds a node at every step, and comes to an end. -/
inductive Ends (nodes : Array ExprNode) : Nat → Prop where
  | node {i : Nat} {found : ExprNode} : nodes[i]? = some found →
      (∀ j ∈ found.operands, Ends nodes j) → Ends nodes i

theorem Shows.ends (h : Shows nodes i tree) : Ends nodes i := by
  induction h with
  | atom hnode => exact .node hnode fun j hmem ↦ by cases hmem
  | unary hnode _ ih =>
    refine .node hnode fun j hmem ↦ ?_
    rw [List.mem_singleton.1 hmem]
    exact ih
  | binary hnode _ _ ihLeft ihRight =>
    refine .node hnode fun j hmem ↦ ?_
    rcases List.mem_cons.1 hmem with rfl | hmem
    · exact ihLeft
    · rw [List.mem_singleton.1 hmem]
      exact ihRight

/-- The last node of a block stands for the tree that the block lists. -/
theorem Lists.shows (h : Lists nodes start tree) (hlast : i + 1 = start + tree.size) :
    Shows nodes i tree := by
  induction tree generalizing start i with
  | atom a => exact .atom (h.node_eq hlast)
  | unary op operand ih =>
    have hpos := operand.size_pos
    exact .unary (h.node_eq hlast) (ih h.operand_of_unary (by omega))
  | binary op left right ihLeft ihRight =>
    have hleft := left.size_pos
    have hright := right.size_pos
    exact .binary (h.node_eq hlast) (ihLeft h.left_of_binary (by omega))
      (ihRight h.right_of_binary (by omega))

namespace Arena

variable {arena : Arena}

/--
An arena is a tree in post-order, and the last node is the root. The operand of a unary operator and
the right operand of a binary one stand directly before it. What a node stands for is a block of
nodes that ends with it, and the block of a right operand begins right behind that of the left one.
Every node but the root is the operand of exactly one other. From the root operands lead to all
nodes and to nothing else, and a walk from any node ends.
-/
structure InPostOrder (arena : Arena) (tree : Tree) : Prop where
  toList_nodes : arena.nodes.toList = tree.listing 0
  shows : Shows arena.nodes arena.root tree
  root_eq : arena.root + 1 = arena.nodes.size
  operand_eq : ∀ (i j : Nat) (op : UnaryOp), arena.nodes[i]? = some (.unary op j) → j + 1 = i
  right_eq : ∀ (i j k : Nat) (op : BinaryOp),
    arena.nodes[i]? = some (.binary op j k) → k + 1 = i
  lt_of_refers : ∀ i j, Refers arena.nodes i j → j < i
  exists_block : ∀ i < arena.nodes.size, ∃ first, ∀ p, Under arena.nodes i p ↔ first ≤ p ∧ p ≤ i
  adjacent : ∀ (i j k : Nat) (op : BinaryOp), arena.nodes[i]? = some (.binary op j k) →
    ∃ first, (∀ p, Under arena.nodes j p ↔ first ≤ p ∧ p ≤ j) ∧
      ∀ p, Under arena.nodes k p ↔ j < p ∧ p ≤ k
  existsUnique_refers : ∀ i < arena.root, ∃! parent, Refers arena.nodes parent i
  not_refers_root : ∀ parent, ¬ Refers arena.nodes parent arena.root
  under_root_iff : ∀ p, Under arena.nodes arena.root p ↔ p < arena.nodes.size
  ends : ∀ i < arena.nodes.size, Ends arena.nodes i

section

variable (hnodes : arena.nodes.toList = tree.listing 0)

include hnodes

theorem size_eq_of_listing : arena.nodes.size = tree.size := by
  rw [← Array.length_toList, hnodes, Tree.length_listing]

theorem lists_of_listing : Lists arena.nodes 0 tree :=
  ⟨[], [], by simp [hnodes], rfl⟩

/-- Every node ends the block of a part of the tree. -/
theorem exists_lists_of_listing (hi : i < arena.nodes.size) :
    ∃ first part, Lists arena.nodes first part ∧ i + 1 = first + part.size := by
  rw [size_eq_of_listing hnodes] at hi
  obtain ⟨first, part, hpart, -, hend⟩ :=
    (lists_of_listing hnodes).exists_ending (Nat.zero_le i) (by omega)
  exact ⟨first, part, hpart, hend⟩

/-- A node with two operands ends the block of a tree with two. -/
theorem exists_binary_of_listing {op : BinaryOp} (hnode : arena.nodes[i]? = some (.binary op j k)) :
    ∃ first left right, Lists arena.nodes first (.binary op left right) ∧
      j + 1 = first + left.size ∧ k + 1 = j + 1 + right.size ∧ k + 1 = i := by
  obtain ⟨first, part, hpart, hend⟩ :=
    exists_lists_of_listing hnodes (Array.getElem?_eq_some_iff.1 hnode).1
  rw [hpart.node_eq hend] at hnode
  cases part with
  | atom | unary => cases hnode
  | binary op left right =>
    cases hnode
    have hleft := left.size_pos
    have hright := right.size_pos
    rw [Tree.size] at hend
    exact ⟨first, left, right, hpart, by omega, by omega, by omega⟩

theorem operand_eq_of_listing {op : UnaryOp} (hnode : arena.nodes[i]? = some (.unary op j)) :
    j + 1 = i := by
  obtain ⟨first, part, hpart, hend⟩ :=
    exists_lists_of_listing hnodes (Array.getElem?_eq_some_iff.1 hnode).1
  rw [hpart.node_eq hend] at hnode
  cases part with
  | atom | binary => cases hnode
  | unary op operand =>
    cases hnode
    have hpos := operand.size_pos
    rw [Tree.size] at hend
    omega

theorem perm_operands_of_listing :
    (arena.nodes.toList.flatMap ExprNode.operands).Perm (List.range (tree.size - 1)) := by
  rw [List.range_eq_range', hnodes]
  exact tree.perm_operands_listing 0

/-- Nodes that list a tree are in post-order. -/
theorem inPostOrder_of_listing (hroot : arena.root + 1 = arena.nodes.size) :
    arena.InPostOrder tree := by
  have hsize := size_eq_of_listing hnodes
  have hlists := lists_of_listing hnodes
  have hlast : arena.root + 1 = 0 + tree.size := by omega
  have hperm := perm_operands_of_listing hnodes
  have hrange : tree.size - 1 = arena.root := by omega
  rw [hrange] at hperm
  constructor
  case toList_nodes => exact hnodes
  case shows => exact hlists.shows hlast
  case root_eq => exact hroot
  case operand_eq => exact fun i j op hnode ↦ operand_eq_of_listing hnodes hnode
  case right_eq =>
    intro i j k op hnode
    obtain ⟨-, -, -, -, -, -, hnext⟩ := exists_binary_of_listing hnodes hnode
    exact hnext
  case lt_of_refers =>
    intro i j hrefers
    have hi : i < arena.nodes.size := by
      obtain ⟨node, hnode, -⟩ := hrefers
      exact (Array.getElem?_eq_some_iff.1 hnode).1
    exact (hlists.lt_of_refers (Nat.zero_le i) (by omega) hrefers).2
  case exists_block =>
    intro i hi
    obtain ⟨first, part, hpart, hend⟩ := exists_lists_of_listing hnodes hi
    exact ⟨first, fun p ↦ hpart.under_iff hend⟩
  case adjacent =>
    intro i j k op hnode
    obtain ⟨first, left, right, hpart, hleft, hright, -⟩ := exists_binary_of_listing hnodes hnode
    refine ⟨first, fun p ↦ hpart.left_of_binary.under_iff hleft, fun p ↦ ?_⟩
    rw [hpart.right_of_binary.under_iff (by omega)]
    omega
  case existsUnique_refers =>
    intro i hi
    obtain ⟨parent, hparent⟩ := mem_operands_iff.1 (hperm.mem_iff.2 (List.mem_range.2 hi))
    have hnodup := hperm.nodup_iff.2 List.nodup_range
    exact ⟨parent, hparent, fun other hother ↦ hother.eq_of_nodup hnodup hparent⟩
  case not_refers_root =>
    intro parent hparent
    have hmem := hperm.mem_iff.1 (mem_operands_iff.2 ⟨parent, hparent⟩)
    exact absurd (List.mem_range.1 hmem) (Nat.lt_irrefl _)
  case under_root_iff =>
    intro p
    rw [hlists.under_iff hlast]
    omega
  case ends =>
    intro i hi
    obtain ⟨first, part, hpart, hend⟩ := exists_lists_of_listing hnodes hi
    exact (hpart.shows hend).ends

end

end Arena

end LineScript
