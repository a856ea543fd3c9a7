import LineScript.Proofs.Expr.Arena
import LineScript.Proofs.Expr.Parsing
import LineScript.Proofs.Expr.Scanning

/-!
# Printed expressions

An expression is printed with each binary operator in parentheses of its own, so that what is
printed is an operand wherever it stands: it may follow an operator of any level, and a unary one.
Scanning finds the tokens that were printed, because a value is followed by a blank, by a closing
parenthesis or by nothing, and because nothing that is printed begins with the equals sign that
would make another symbol of the one before. The tokens derive the tree, and the tree is listed as
it was. So an expression that was parsed is parsed from what it is printed as, whatever parentheses
it was written with, if its numbers are finite and its texts have no double quote.
-/

namespace LineScript

open Lexeme

namespace Tree

def atoms : Tree → List Atom
  | .atom a => [a]
  | .unary _ operand => operand.atoms
  | .binary _ left right => left.atoms ++ right.atoms

def text : Tree → List Char
  | .atom a => a.render.toList
  | .unary op operand => op.symbol.text.toList ++ operand.text
  | .binary op left right =>
    '(' :: (left.text ++ ' ' :: (op.symbol.text.toList ++ ' ' :: (right.text ++ [')'])))

def tokens : Tree → List Token
  | .atom a => [.atom a]
  | .unary op operand => .symbol op.symbol :: operand.tokens
  | .binary op left right =>
    .symbol .openParen ::
      (left.tokens ++ .symbol op.symbol :: right.tokens ++ [.symbol .closeParen])

/-- The tokens that a tree is printed with are an operand. -/
theorem derives_tokens (tree : Tree) : Derives 6 tree.tokens tree := by
  induction tree with
  | atom a => exact .tighter (by decide) (.atom a)
  | unary op operand ih => exact .unary ih
  | binary op left right ihLeft ihRight =>
    have hlt := op.level_lt
    have hleft := ihLeft.loosen (Nat.le_of_lt hlt)
    have hright := ihRight.loosen (Nat.succ_le_of_lt hlt)
    have hwhole := (Derives.binary hleft hright).loosen (Nat.zero_le op.level)
    exact .tighter (by decide) (.group hwhole)

end Tree

/-- The values of a tree are among the tokens that derive it. -/
theorem Derives.mem_of_mem_atoms {level : Nat} {word : List Token} {tree : Tree} {a : Atom}
    (h : Derives level word tree) (ha : a ∈ tree.atoms) : Token.atom a ∈ word := by
  induction h with
  | tighter _ _ ih => exact ih ha
  | binary _ _ ihLeft ihRight =>
    rcases List.mem_append.1 ha with hleft | hright
    · exact List.mem_append_left _ (ihLeft hleft)
    · exact List.mem_append_right _ (List.mem_cons_of_mem _ (ihRight hright))
  | unary _ ih => exact List.mem_cons_of_mem _ (ih ha)
  | atom other =>
    rw [List.mem_singleton.1 ha]
    exact List.mem_singleton_self _
  | group _ ih => exact List.mem_cons_of_mem _ (List.mem_append_left _ (ih ha))

theorem Tree.mem_listAfter_of_mem (tree : Tree) {nodes : Array ExprNode} {node : ExprNode}
    (h : node ∈ nodes) : node ∈ tree.listAfter nodes := by
  induction tree generalizing nodes with
  | atom a => exact Array.mem_push_of_mem _ h
  | unary op operand ih => exact Array.mem_push_of_mem _ (ih h)
  | binary op left right ihLeft ihRight => exact Array.mem_push_of_mem _ (ihRight (ihLeft h))

/-- The values of a tree are listed. -/
theorem Tree.atom_mem_listAfter {tree : Tree} {a : Atom} (ha : a ∈ tree.atoms)
    (nodes : Array ExprNode) : ExprNode.atom a ∈ tree.listAfter nodes := by
  induction tree generalizing nodes with
  | atom other =>
    rw [List.mem_singleton.1 ha]
    exact Array.mem_push_self
  | unary op operand ih => exact Array.mem_push_of_mem _ (ih ha nodes)
  | binary op left right ihLeft ihRight =>
    apply Array.mem_push_of_mem
    rcases List.mem_append.1 ha with hleft | hright
    · exact right.mem_listAfter_of_mem (ihLeft hleft nodes)
    · exact ihRight hright (left.listAfter nodes)

/-- The values of a tree that a text is read as were spelled in it. -/
theorem exists_spelled_of_parse {text : String} {tree : Tree} (h : Tree.parse text = .ok tree) :
    ∀ a ∈ tree.atoms, ∃ characters, Spelled (.atom a) characters := by
  obtain ⟨found, hscan, hread⟩ := Chain.bind_eq_ok_iff.1 h
  intro a ha
  have hmem : Token.atom a ∈ found.tokens := (ofScan_eq_ok_iff.1 hread).mem_of_mem_atoms ha
  obtain ⟨lexeme, hlexeme, htoken⟩ := List.mem_map.1 hmem
  refine ⟨lexeme.text, ?_⟩
  rw [← htoken]
  exact spelled_of_scanFrom hscan lexeme hlexeme

/-- A value that is scanned again from what it is printed as. -/
def Atom.Printable (a : Atom) : Prop :=
  a.Plain ∧ ∃ characters, Spelled (.atom a) characters

section

variable {tree : Tree} {rest : List Char} {word : List Token}

/-- What is printed does not begin with an equals sign. -/
theorem head?_text_append (hatoms : ∀ a ∈ tree.atoms, a.Printable) (hrest : EndsValue rest) :
    (tree.text ++ rest).head? ≠ some '=' := by
  cases tree with
  | atom a =>
    obtain ⟨hplain, characters, hspelled⟩ := hatoms a (List.mem_singleton_self a)
    have hfirst := first?_render_append hspelled hplain hrest
    intro hequals
    obtain ⟨others, hothers⟩ := List.head?_eq_some_iff.1 hequals
    change a.render.toList ++ rest = _ at hothers
    rw [hothers, first?_of_isSign (by decide)] at hfirst
    obtain ⟨s, -, hs⟩ := Option.map_eq_some_iff.1 hfirst
    cases hs
  | unary op operand => cases op <;> simp [Tree.text, UnaryOp.symbol, Symbol.text]
  | binary op left right => simp [Tree.text]

/-- What a tree is printed as is scanned as the tokens that the tree is printed with. -/
theorem scansTo_text_append (hatoms : ∀ a ∈ tree.atoms, a.Printable) (hrest : EndsValue rest)
    (h : ScansTo rest word) : ScansTo (tree.text ++ rest) (tree.tokens ++ word) := by
  induction tree generalizing rest word with
  | atom a =>
    obtain ⟨hplain, characters, hspelled⟩ := hatoms a (List.mem_singleton_self a)
    exact h.first (first?_render_append hspelled hplain hrest)
  | unary op operand ih =>
    have hoperand := ih hatoms hrest h
    have hhead : (operand.text ++ rest).head? ≠ some '=' := head?_text_append hatoms hrest
    have hsymbol := first?_symbol_append op.symbol hhead
    rw [Tree.text, List.append_assoc]
    exact hoperand.first hsymbol
  | binary op left right ihLeft ihRight =>
    obtain ⟨hatomsLeft, hatomsRight⟩ := List.forall_mem_append.1 hatoms
    have hclosed : ScansTo (')' :: rest) (.symbol .closeParen :: word) :=
      h.first (first?_symbol_append .closeParen hrest.head?_ne_equals)
    have hright := (ihRight hatomsRight (endsValue_cons (.inr rfl)) hclosed).blank
    have hoperator := (hright.first (first?_symbol_append op.symbol (by simp))).blank
    have hleft := ihLeft hatomsLeft (endsValue_cons (.inl rfl)) hoperator
    have hopened := hleft.first (first?_symbol_append .openParen
      (head?_text_append hatomsLeft (endsValue_cons (.inl rfl))))
    simpa [Tree.text, Tree.tokens, Symbol.text] using hopened

end

namespace Expr

/-- A node is written as the tree that it stands for. -/
theorem toList_writeAt_of_shows {e : Expr} {i : Nat} {tree : Tree} (h : Shows e.nodes i tree)
    (hi : i < e.nodes.size) (written : String) :
    (e.writeAt written i hi).toList = written.toList ++ tree.text := by
  induction h generalizing written with
  | atom hnode =>
    rw [Array.getElem?_eq_getElem hi] at hnode
    rw [writeAt]
    split <;> rename_i hfound <;> rw [hfound] at hnode <;> cases hnode
    exact String.toList_append
  | unary hnode _ ih =>
    rw [Array.getElem?_eq_getElem hi] at hnode
    rw [writeAt]
    split <;> rename_i hfound <;> rw [hfound] at hnode <;> cases hnode
    rw [ih, String.toList_append, List.append_assoc]
    rfl
  | binary hnode _ _ ihLeft ihRight =>
    rw [Array.getElem?_eq_getElem hi] at hnode
    rw [writeAt]
    split <;> rename_i hfound <;> rw [hfound] at hnode <;> cases hnode
    simp [ihLeft, ihRight, Tree.text]

/-- A compiled tree is printed as the tree. -/
theorem toList_render_ofTree (tree : Tree) : (ofTree tree).render.toList = tree.text :=
  toList_writeAt_of_shows (shows_listAfter tree #[]) _ ""

example : (parse "1 - 2 - .50 <= --!x || 'a b' == (y)").toOption.map render =
    some "((((1 - 2) - 0.5) <= --!x) || (\"a b\" == y))" := by
  decide +kernel

/-- A tree whose values can be printed is read from what it is printed as. -/
theorem parse_render_ofTree {tree : Tree} (hatoms : ∀ a ∈ tree.atoms, a.Printable) :
    parse (ofTree tree).render = .ok (ofTree tree) := by
  have hends : EndsValue [] := by
    intro c hc
    cases hc
  obtain ⟨found, hscan, htokens⟩ := scansTo_text_append hatoms hends scansTo_nil 0
  rw [List.append_nil] at hscan htokens
  have hderives : Derives 0 found.tokens tree := by
    rw [htokens]
    exact tree.derives_tokens.loosen (Nat.zero_le 6)
  have hfound : scan (ofTree tree).render = .ok found := by
    rw [scan, toList_render_ofTree]
    exact hscan
  exact parse_of_derives hfound hderives

/-- An expression that was parsed is parsed again, node by node, from what it is printed as. -/
theorem parse_render {text : String} {e : Expr} (h : parse text = .ok e)
    (hplain : ∀ a, ExprNode.atom a ∈ e.nodes → a.Plain) : parse e.render = .ok e := by
  obtain ⟨tree, htree, rfl⟩ := Chain.map_eq_ok_iff.1 h
  apply parse_render_ofTree
  intro a ha
  exact ⟨hplain a (Tree.atom_mem_listAfter ha #[]), exists_spelled_of_parse htree a ha⟩

/-- Unary chains, decimals, both quotes, words, and parentheses that are needed or not. -/
def mixed : String :=
  "--!x1 + 2.50 * (3 - \"a b\" != 'it') || (true && .5e1 >= y_)"

theorem parse_render_mixed : ∃ e, parse mixed = .ok e ∧
    (∀ a, ExprNode.atom a ∈ e.nodes → a.Plain) ∧ parse e.render = .ok e := by
  have hchecked : ((parse mixed).toOption.map fun e ↦ e.nodes.toList.all fun node ↦
      match node with
      | .atom a => decide a.Plain
      | _ => true) = some true := by decide +kernel
  obtain ⟨e, hparse, hfacts⟩ := Chain.exists_of_map_toOption hchecked
  have hall := List.all_eq_true.1 hfacts
  have hplain : ∀ a, ExprNode.atom a ∈ e.nodes → a.Plain :=
    fun a ha ↦ of_decide_eq_true (hall (.atom a) (Array.mem_toList_iff.2 ha))
  exact ⟨e, hparse, hplain, parse_render hparse hplain⟩

end Expr

end LineScript
