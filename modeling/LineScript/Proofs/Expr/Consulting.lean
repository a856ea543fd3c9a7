import LineScript.Proofs.Expr.Evaluation
import LineScript.Proofs.Expr.Parsing
import LineScript.Proofs.Expr.Printing
import Mathlib.Logic.Function.Basic

/-!
# Which names are consulted

An expression has the outcome that its tree has by the rules of `Evaluates`: operands come from left
to right, a left operand of `&&` and `||` may decide alone, and the first failure ends everything.
The rules also tell which names are consulted on the way, in order. An evaluation that asks for the
values of names, whatever asking involves, asks for exactly these. So no other name matters to the
outcome, while each of these does: without it there is none.
-/

namespace LineScript

variable {resolve other : String → Option Value} {tree left right operand : Tree}
  {asked : List String} {result : Except EvalError Outcome} {outcome : Outcome}

/-- The truth of a left operand that decides a logical operator. -/
def BinaryOp.decider? : BinaryOp → Option Bool
  | or => some true
  | and => some false
  | _ => none

/-- Whether an operator needs its right operand where its left one has an outcome. -/
def BinaryOp.Continues (op : BinaryOp) (left : Outcome) : Prop :=
  ∀ truth, op.decider? = some truth → left.truth op.symbol = .ok !truth

/-- What a tree evaluates to, and the names that are consulted for it, in order. -/
inductive Evaluates (resolve : String → Option Value) :
    Tree → List String → Except EvalError Outcome → Prop where
  | number (value : Float) : Evaluates resolve (.atom (.number value)) [] (.ok (.number value))
  | text (value : String) : Evaluates resolve (.atom (.text value)) [] (.ok (.text value))
  | bool (value : Bool) : Evaluates resolve (.atom (.bool value)) [] (.ok (.bool value))
  | bound {name : String} {value : Value} : resolve name = some value →
      Evaluates resolve (.atom (.name name)) [name] (.ok (.ofValue value))
  | unbound {name : String} : resolve name = none →
      Evaluates resolve (.atom (.name name)) [name] (.error (.undefinedVariable name))
  | operandFails {op : UnaryOp} {operand : Tree} {asked : List String} {error : EvalError} :
      Evaluates resolve operand asked (.error error) →
      Evaluates resolve (.unary op operand) asked (.error error)
  | unary {op : UnaryOp} {operand : Tree} {asked : List String} {value : Outcome} :
      Evaluates resolve operand asked (.ok value) →
      Evaluates resolve (.unary op operand) asked (op.apply value)
  | leftFails {op : BinaryOp} {left right : Tree} {asked : List String} {error : EvalError} :
      Evaluates resolve left asked (.error error) →
      Evaluates resolve (.binary op left right) asked (.error error)
  /-- The left operand decides. -/
  | decided {op : BinaryOp} {left right : Tree} {asked : List String} {value : Outcome}
      {truth : Bool} : Evaluates resolve left asked (.ok value) → op.decider? = some truth →
      value.truth op.symbol = .ok truth →
      Evaluates resolve (.binary op left right) asked (.ok (.bool truth))
  /-- The left operand of a logical operator is neither true nor false. -/
  | undecidable {op : BinaryOp} {left right : Tree} {asked : List String} {value : Outcome}
      {truth : Bool} {error : EvalError} : Evaluates resolve left asked (.ok value) →
      op.decider? = some truth → value.truth op.symbol = .error error →
      Evaluates resolve (.binary op left right) asked (.error error)
  | rightFails {op : BinaryOp} {left right : Tree} {asked others : List String} {value : Outcome}
      {error : EvalError} : Evaluates resolve left asked (.ok value) → op.Continues value →
      Evaluates resolve right others (.error error) →
      Evaluates resolve (.binary op left right) (asked ++ others) (.error error)
  | binary {op : BinaryOp} {left right : Tree} {asked others : List String}
      {value content : Outcome} : Evaluates resolve left asked (.ok value) → op.Continues value →
      Evaluates resolve right others (.ok content) →
      Evaluates resolve (.binary op left right) (asked ++ others) (op.apply value content)

namespace BinaryOp

variable {op : BinaryOp} {truth : Bool} {error : EvalError}

theorem shortcut?_of_decided (hdecider : op.decider? = some truth)
    (htruth : outcome.truth op.symbol = .ok truth) :
    op.shortcut? outcome = .ok (some (.bool truth)) := by
  cases op <;> cases hdecider <;> (rw [shortcut?, htruth]; rfl)

theorem shortcut?_of_undecidable (hdecider : op.decider? = some truth)
    (htruth : outcome.truth op.symbol = .error error) :
    op.shortcut? outcome = .error error := by
  cases op <;> cases hdecider <;> (rw [shortcut?, htruth]; rfl)

theorem Continues.shortcut?_eq (h : op.Continues outcome) : op.shortcut? outcome = .ok none := by
  cases hdecider : op.decider? with
  | none => cases op <;> first | rfl | cases hdecider
  | some truth =>
    have htruth := h truth hdecider
    cases op <;> cases hdecider <;> (rw [BinaryOp.shortcut?, htruth]; rfl)

/-- A left operand decides, or cannot, or the right one is needed. -/
theorem decided_or_continues (op : BinaryOp) (outcome : Outcome) :
    (∃ truth, op.decider? = some truth ∧ outcome.truth op.symbol = .ok truth) ∨
      (∃ truth error, op.decider? = some truth ∧ outcome.truth op.symbol = .error error) ∨
      op.Continues outcome := by
  cases hdecider : op.decider? with
  | none => exact .inr (.inr fun truth htruth ↦ by rw [hdecider] at htruth; cases htruth)
  | some decider =>
    cases htruth : outcome.truth op.symbol with
    | error error => exact .inr (.inl ⟨decider, error, rfl, rfl⟩)
    | ok truth =>
      by_cases hsame : truth = decider
      · exact .inl ⟨decider, rfl, congrArg _ hsame⟩
      · refine .inr (.inr fun found hfound ↦ ?_)
        rw [hdecider] at hfound
        cases hfound
        rw [htruth, Bool.eq_not.2 hsame]

end BinaryOp

namespace Evaluates

/-- Every tree is evaluated somehow. -/
theorem exists_evaluates (resolve : String → Option Value) (tree : Tree) :
    ∃ asked result, Evaluates resolve tree asked result := by
  induction tree with
  | atom a =>
    cases a with
    | number value => exact ⟨_, _, .number value⟩
    | text value => exact ⟨_, _, .text value⟩
    | bool value => exact ⟨_, _, .bool value⟩
    | name name =>
      cases hname : resolve name with
      | none => exact ⟨_, _, .unbound hname⟩
      | some value => exact ⟨_, _, .bound hname⟩
  | unary op operand ih =>
    obtain ⟨asked, error | value, h⟩ := ih
    · exact ⟨_, _, .operandFails h⟩
    · exact ⟨_, _, .unary h⟩
  | binary op left right ihLeft ihRight =>
    obtain ⟨asked, error | value, hleft⟩ := ihLeft
    · exact ⟨_, _, .leftFails hleft⟩
    · rcases op.decided_or_continues value with
        ⟨truth, hdecider, htruth⟩ | ⟨truth, error, hdecider, htruth⟩ | hcontinues
      · exact ⟨_, _, .decided hleft hdecider htruth⟩
      · exact ⟨_, _, .undecidable hleft hdecider htruth⟩
      · obtain ⟨others, error | content, hright⟩ := ihRight
        · exact ⟨_, _, .rightFails hleft hcontinues hright⟩
        · exact ⟨_, _, .binary hleft hcontinues hright⟩

/-- The rules give the outcome of the tree. -/
theorem eval_eq (h : Evaluates resolve tree asked result) : tree.eval resolve = result := by
  induction h with
  | number | text | bool => rfl
  | bound hname | unbound hname =>
    unfold Tree.eval Atom.eval
    dsimp only
    rw [hname]
  | operandFails _ ih | unary _ ih | leftFails _ ih =>
    rw [Tree.eval, ih]
    rfl
  | decided _ hdecider htruth ih =>
    have hshortcut := BinaryOp.shortcut?_of_decided hdecider htruth
    simp only [Tree.eval, ih, hshortcut, bind, Except.bind, pure, Except.pure]
  | undecidable _ hdecider htruth ih =>
    have hshortcut := BinaryOp.shortcut?_of_undecidable hdecider htruth
    simp only [Tree.eval, ih, hshortcut, bind, Except.bind]
  | rightFails _ hcontinues _ ihLeft ihRight | binary _ hcontinues _ ihLeft ihRight =>
    simp only [Tree.eval, ihLeft, hcontinues.shortcut?_eq, ihRight, bind, Except.bind]

/-- Resolvers that agree on what is consulted under one of them give the same evaluation. -/
theorem of_agree (h : Evaluates resolve tree asked result)
    (hagree : ∀ name ∈ asked, other name = resolve name) : Evaluates other tree asked result := by
  induction h with
  | number value => exact .number value
  | text value => exact .text value
  | bool value => exact .bool value
  | bound hname => exact .bound (by rw [hagree _ List.mem_cons_self, hname])
  | unbound hname => exact .unbound (by rw [hagree _ List.mem_cons_self, hname])
  | operandFails _ ih => exact .operandFails (ih hagree)
  | unary _ ih => exact .unary (ih hagree)
  | leftFails _ ih => exact .leftFails (ih hagree)
  | decided _ hdecider htruth ih => exact .decided (ih hagree) hdecider htruth
  | undecidable _ hdecider htruth ih => exact .undecidable (ih hagree) hdecider htruth
  | rightFails _ hcontinues _ ihLeft ihRight =>
    obtain ⟨hasked, hothers⟩ := List.forall_mem_append.1 hagree
    exact .rightFails (ihLeft hasked) hcontinues (ihRight hothers)
  | binary _ hcontinues _ ihLeft ihRight =>
    obtain ⟨hasked, hothers⟩ := List.forall_mem_append.1 hagree
    exact .binary (ihLeft hasked) hcontinues (ihRight hothers)

/-- Without a name that is consulted, the evaluation fails for the want of it. -/
theorem exists_of_unbound (h : Evaluates resolve tree asked result) {name : String}
    (hname : name ∈ asked) : ∃ fewer, Evaluates (Function.update resolve name none) tree fewer
      (.error (.undefinedVariable name)) := by
  induction h with
  | number | text | bool => cases hname
  | bound | unbound =>
    rw [List.mem_singleton] at hname
    subst hname
    exact ⟨_, .unbound (Function.update_self _ _ _)⟩
  | operandFails _ ih | unary _ ih =>
    obtain ⟨fewer, hfewer⟩ := ih hname
    exact ⟨fewer, .operandFails hfewer⟩
  | leftFails _ ih | decided _ _ _ ih | undecidable _ _ _ ih =>
    obtain ⟨fewer, hfewer⟩ := ih hname
    exact ⟨fewer, .leftFails hfewer⟩
  | @rightFails _ _ _ asked _ _ _ hleft hcontinues _ ihLeft ihRight
  | @binary _ _ _ asked _ _ _ hleft hcontinues _ ihLeft ihRight =>
    by_cases hfirst : name ∈ asked
    · obtain ⟨fewer, hfewer⟩ := ihLeft hfirst
      exact ⟨fewer, .leftFails hfewer⟩
    · -- The left operand does not consult the name, so it has its outcome also without it.
      obtain ⟨fewer, hfewer⟩ := ihRight ((List.mem_append.1 hname).resolve_left hfirst)
      have hagree :
          ∀ earlier ∈ asked, Function.update resolve name none earlier = resolve earlier := by
        rintro earlier hearlier
        rw [Function.update_of_ne]
        rintro rfl
        exact hfirst hearlier
      exact ⟨_, .rightFails (hleft.of_agree hagree) hcontinues hfewer⟩

end Evaluates

def Atom.name? : Atom → Option String
  | name identifier => some identifier
  | _ => none

def Tree.names (tree : Tree) : List String :=
  tree.atoms.filterMap Atom.name?

/-- What is consulted are names of the tree, in their order. -/
theorem Evaluates.sublist_names (h : Evaluates resolve tree asked result) :
    asked.Sublist tree.names := by
  have hbinary (op : BinaryOp) (left right : Tree) :
      (Tree.binary op left right).names = left.names ++ right.names :=
    List.filterMap_append
  induction h with
  | number | text | bool | bound | unbound => exact List.Sublist.refl _
  | operandFails _ ih | unary _ ih => exact ih
  | leftFails _ ih | decided _ _ _ ih | undecidable _ _ _ ih =>
    rw [hbinary]
    exact ih.trans (List.sublist_append_left _ _)
  | rightFails _ _ _ ihLeft ihRight | binary _ _ _ ihLeft ihRight =>
    rw [hbinary]
    exact ihLeft.append ihRight

/-! ## Asking for values -/

section Asking

variable {m : Type → Type} [Monad m]

def Atom.evalAsking (ask : String → m (Option Value)) : Atom → ExceptT EvalError m Outcome
  | number value => return .number value
  | text value => return .text value
  | bool value => return .bool value
  | name identifier => do
    match ← ask identifier with
    | some value => return .ofValue value
    | none => throw (.undefinedVariable identifier)

/-- The outcome of a tree, where the values of names are asked for. -/
def Tree.evalAsking (ask : String → m (Option Value)) : Tree → ExceptT EvalError m Outcome
  | .atom a => a.evalAsking ask
  | .unary op operand => do
    let operand ← operand.evalAsking ask
    ofExcept (op.apply operand)
  | .binary op left right => do
    let left ← left.evalAsking ask
    match ← ofExcept (op.shortcut? left) with
    | some outcome => return outcome
    | none =>
      let right ← right.evalAsking ask
      ofExcept (op.apply left right)

namespace Expr

/-- The outcome of the expression that a node stands for, the values of names being asked for. -/
def evalAskingAt (ask : String → m (Option Value)) (e : Expr) (i : Nat) (h : i < e.nodes.size) :
    ExceptT EvalError m Outcome :=
  match node : e.nodes[i] with
  | .atom a => a.evalAsking ask
  | .unary op j => do
    have hj := e.operand_lt h node
    let operand ← e.evalAskingAt ask j (Nat.lt_trans hj h)
    ofExcept (op.apply operand)
  | .binary op j k => do
    have hj := e.left_lt h node
    have hk := e.right_lt h node
    let left ← e.evalAskingAt ask j (Nat.lt_trans hj h)
    match ← ofExcept (op.shortcut? left) with
    | some outcome => return outcome
    | none =>
      let right ← e.evalAskingAt ask k (Nat.lt_trans hk h)
      ofExcept (op.apply left right)
termination_by i

def evalAsking (ask : String → m (Option Value)) (e : Expr) : ExceptT EvalError m Outcome :=
  e.evalAskingAt ask e.root e.root_lt

/-- For a node the same is asked as for the tree that it stands for. -/
theorem evalAskingAt_of_shows {ask : String → m (Option Value)} {e : Expr} {i : Nat}
    (h : Shows e.nodes i tree) (hi : i < e.nodes.size) :
    e.evalAskingAt ask i hi = tree.evalAsking ask := by
  induction h with
  | atom hnode =>
    rw [Array.getElem?_eq_getElem hi] at hnode
    rw [evalAskingAt]
    split <;> rename_i hfound <;> rw [hfound] at hnode <;> cases hnode
    rfl
  | unary hnode _ ih =>
    rw [Array.getElem?_eq_getElem hi] at hnode
    rw [evalAskingAt]
    split <;> rename_i hfound <;> rw [hfound] at hnode <;> cases hnode
    dsimp only
    rw [ih]
    rfl
  | binary hnode _ _ ihLeft ihRight =>
    rw [Array.getElem?_eq_getElem hi] at hnode
    rw [evalAskingAt]
    split <;> rename_i hfound <;> rw [hfound] at hnode <;> cases hnode
    dsimp only
    simp only [ihLeft, ihRight]
    rfl

end Expr

end Asking

theorem run_bind_id {α β : Type} (first : ExceptT EvalError Id α)
    (next : α → ExceptT EvalError Id β) :
    (first >>= next).run = Except.bind first.run fun value ↦ (next value).run := by
  rcases first with error | value <;> rfl

theorem run_ofExcept_id {α : Type} (result : Except EvalError α) :
    (ofExcept result : ExceptT EvalError Id α).run = result := by
  cases result <;> rfl

/-- To evaluate is to ask without any further effect. -/
theorem Tree.evalAsking_id (tree : Tree) :
    (tree.evalAsking (m := Id) resolve).run = tree.eval resolve := by
  induction tree with
  | atom a =>
    cases a with
    | name identifier =>
      rw [evalAsking, Atom.evalAsking, eval]
      unfold Atom.eval
      dsimp only
      cases resolve identifier <;> rfl
    | _ => rfl
  | unary op operand ih =>
    rw [evalAsking, run_bind_id, ih]
    simp only [run_ofExcept_id]
    rfl
  | binary op left right ihLeft ihRight =>
    rw [evalAsking, run_bind_id, ihLeft, eval]
    congr 1
    funext value
    rw [run_bind_id, run_ofExcept_id]
    congr 1
    funext found
    cases found with
    | some outcome => rfl
    | none =>
      dsimp only
      rw [run_bind_id, ihRight]
      simp only [run_ofExcept_id]
      rfl

/-- Computations that note what is asked. -/
abbrev Noting (α : Type) :=
  ExceptT EvalError (StateM (List String)) α

/-- The result of a computation, and what has been asked after it. -/
def Noting.after {α : Type} (computation : Noting α) (before : List String) :
    Except EvalError α × List String :=
  computation.run.run before

/-- Answers as a resolver does, and notes the question. -/
def noting (resolve : String → Option Value) (name : String) :
    StateM (List String) (Option Value) :=
  modifyGet fun asked ↦ (resolve name, asked ++ [name])

/-- The outcome of an expression, and the names that are asked for on the way. -/
def Expr.consult (e : Expr) (resolve : String → Option Value) :
    Except EvalError Outcome × List String :=
  Noting.after (e.evalAsking (noting resolve)) []

namespace Noting

variable {α β : Type} {first : Noting α} {next : α → Noting β} {before between : List String}

theorem after_bind_of_ok {value : α} (h : first.after before = (.ok value, between)) :
    Noting.after (first >>= next) before = (next value).after between := by
  change (first >>= next).run.run before = _
  rw [ExceptT.run_bind, StateT.run_bind]
  have hfirst : first.run.run before = (.ok value, between) := h
  rw [hfirst]
  rfl

theorem after_bind_of_error {error : EvalError} (h : first.after before = (.error error, between)) :
    Noting.after (first >>= next) before = (.error error, between) := by
  change (first >>= next).run.run before = _
  rw [ExceptT.run_bind, StateT.run_bind]
  have hfirst : first.run.run before = (.error error, between) := h
  rw [hfirst]
  rfl

theorem after_ofExcept (result : Except EvalError α) :
    Noting.after (ofExcept result) before = (result, before) := by
  cases result <;> rfl

theorem after_evalAsking_name (name : String) (before : List String) :
    Noting.after (Atom.evalAsking (noting resolve) (.name name)) before =
      ((Atom.name name).eval resolve, before ++ [name]) := by
  have hask : Noting.after (liftM (noting resolve name)) before =
      (.ok (resolve name), before ++ [name]) := rfl
  unfold Atom.evalAsking Atom.eval
  dsimp only
  rw [after_bind_of_ok hask]
  cases resolve name <;> rfl

end Noting

/-- An evaluation that notes what it asks goes by the rules. -/
theorem Evaluates.after_evalAsking (h : Evaluates resolve tree asked result)
    (before : List String) :
    Noting.after (tree.evalAsking (noting resolve)) before = (result, before ++ asked) := by
  induction h generalizing before with
  | number | text | bool =>
    rw [List.append_nil]
    rfl
  | bound hname | unbound hname =>
    rw [Tree.evalAsking, Noting.after_evalAsking_name]
    unfold Atom.eval
    dsimp only
    rw [hname]
  | operandFails _ ih =>
    rw [Tree.evalAsking, Noting.after_bind_of_error (ih before)]
  | unary _ ih =>
    rw [Tree.evalAsking, Noting.after_bind_of_ok (ih before), Noting.after_ofExcept]
  | leftFails _ ih =>
    rw [Tree.evalAsking, Noting.after_bind_of_error (ih before)]
  | decided _ hdecider htruth ih =>
    rw [Tree.evalAsking, Noting.after_bind_of_ok (ih before),
      BinaryOp.shortcut?_of_decided hdecider htruth]
    rfl
  | undecidable _ hdecider htruth ih =>
    rw [Tree.evalAsking, Noting.after_bind_of_ok (ih before),
      BinaryOp.shortcut?_of_undecidable hdecider htruth]
    rfl
  | @rightFails _ _ _ asked _ _ _ _ hcontinues _ ihLeft ihRight =>
    rw [Tree.evalAsking, Noting.after_bind_of_ok (ihLeft before), hcontinues.shortcut?_eq,
      Noting.after_bind_of_ok (Noting.after_ofExcept _)]
    dsimp only
    rw [Noting.after_bind_of_error (ihRight (before ++ asked)), List.append_assoc]
  | @binary _ _ _ asked _ _ _ _ hcontinues _ ihLeft ihRight =>
    rw [Tree.evalAsking, Noting.after_bind_of_ok (ihLeft before), hcontinues.shortcut?_eq,
      Noting.after_bind_of_ok (Noting.after_ofExcept _)]
    dsimp only
    rw [Noting.after_bind_of_ok (ihRight (before ++ asked)), Noting.after_ofExcept,
      List.append_assoc]

namespace Evaluates

theorem unique {fewer : List String} {found : Except EvalError Outcome}
    (h : Evaluates resolve tree asked result) (hfound : Evaluates resolve tree fewer found) :
    asked = fewer ∧ result = found := by
  have hsame := (h.after_evalAsking []).symm.trans (hfound.after_evalAsking [])
  obtain ⟨hresult, hasked⟩ := Prod.mk.inj hsame
  exact ⟨hasked, hresult⟩

end Evaluates

/-! ## Expressions -/

/-- Whether a node is an operator that only says what is true. -/
def ExprNode.isLogical : ExprNode → Bool
  | unary .not _ | binary .and _ _ | binary .or _ _ => true
  | _ => false

theorem exists_bool_of_not {operand : Outcome} (h : UnaryOp.not.apply operand = .ok outcome) :
    ∃ truth, outcome = .bool truth := by
  have hnot :
      (do return .bool (!(← operand.truth .not)) : Except EvalError Outcome) = .ok outcome := by
    cases operand <;> exact h
  obtain ⟨truth, -, htruth⟩ := Chain.bind_eq_ok_iff.1 hnot
  exact ⟨_, (Except.ok.inj htruth).symm⟩

theorem exists_bool_of_decider? {op : BinaryOp} {value content : Outcome}
    (hdecider : op.decider?.isSome) (h : op.apply value content = .ok outcome) :
    ∃ truth, outcome = .bool truth := by
  have hlogical : (do return .bool (← content.truth op.symbol) : Except EvalError Outcome) =
      .ok outcome := by
    cases op <;> first | exact h | cases hdecider
  obtain ⟨truth, -, htruth⟩ := Chain.bind_eq_ok_iff.1 hlogical
  exact ⟨_, (Except.ok.inj htruth).symm⟩

/-- What decides a logical operator early is its outcome as a truth value. -/
theorem exists_bool_of_shortcut? {op : BinaryOp} {value : Outcome}
    (h : op.shortcut? value = .ok (some outcome)) : ∃ truth, outcome = .bool truth := by
  rcases op.decided_or_continues value with
    ⟨truth, hdecider, htruth⟩ | ⟨truth, error, hdecider, htruth⟩ | hcontinues
  · rw [BinaryOp.shortcut?_of_decided hdecider htruth] at h
    cases h
    exact ⟨truth, rfl⟩
  · rw [BinaryOp.shortcut?_of_undecidable hdecider htruth] at h
    cases h
  · rw [hcontinues.shortcut?_eq] at h
    cases h

/-- A logical operator that has an outcome has a truth value. -/
theorem Expr.exists_bool_of_isLogical {e : Expr} {i : Nat} (hi : i < e.nodes.size)
    (hlogical : e.nodes[i].isLogical = true) (h : e.evalAt resolve i hi = .ok outcome) :
    ∃ truth, outcome = .bool truth := by
  rw [evalAt] at h
  split at h
  · rename_i hnode
    rw [hnode] at hlogical
    cases hlogical
  · rename_i op j hnode
    rw [hnode] at hlogical
    obtain ⟨operand, -, happly⟩ := Chain.bind_eq_ok_iff.1 h
    cases op with
    | negate => cases hlogical
    | not => exact exists_bool_of_not happly
  · rename_i op j k hnode
    rw [hnode] at hlogical
    have hdecider : op.decider?.isSome := by
      cases op <;> first | rfl | cases hlogical
    obtain ⟨left, -, hafter⟩ := Chain.bind_eq_ok_iff.1 h
    obtain ⟨found, hshortcut, hrest⟩ := Chain.bind_eq_ok_iff.1 hafter
    cases found with
    | some early =>
      cases hrest
      exact exists_bool_of_shortcut? hshortcut
    | none =>
      obtain ⟨right, -, happly⟩ := Chain.bind_eq_ok_iff.1 hrest
      exact exists_bool_of_decider? hdecider happly

/--
How a compiled expression is evaluated: as the rules say for its tree, asking for the names that the
rules tell, in that order, and for no others.
-/
structure Expr.Follows (e : Expr) (tree : Tree) : Prop where
  /-- An outcome or error, and the names asked for, are those of the rules. -/
  evaluates : ∀ resolve asked result, Evaluates resolve tree asked result ↔
    e.consult resolve = (result, asked)
  /-- To note what is asked changes nothing, and neither does not to. -/
  eval : ∀ resolve, (e.evalAsking (m := Id) resolve).run = e.eval resolve ∧
    (e.consult resolve).1 = e.eval resolve
  /-- Logical operators have truth values. -/
  logical : ∀ resolve i outcome, ∀ hi : i < e.nodes.size, e.nodes[i].isLogical = true →
    e.evalAt resolve i hi = .ok outcome → ∃ truth, outcome = .bool truth
  /-- What is asked for are names of the tree, from left to right. -/
  sublist_names : ∀ resolve, (e.consult resolve).2.Sublist tree.names
  /-- Only what is asked for matters. -/
  agree : ∀ resolve other, (∀ name ∈ (e.consult resolve).2, other name = resolve name) →
    e.consult other = e.consult resolve
  /-- A name that is not asked for may be bound, bound anew or unbound. -/
  unasked : ∀ resolve name value?, name ∉ (e.consult resolve).2 →
    e.eval (Function.update resolve name value?) = e.eval resolve
  /-- A name that is asked for may not be unbound. -/
  asked : ∀ resolve, ∀ name ∈ (e.consult resolve).2,
    e.eval (Function.update resolve name none) = .error (.undefinedVariable name)

/-- A compiled tree is evaluated as the rules say. -/
theorem consult_ofTree (h : Evaluates resolve tree asked result) :
    (Expr.ofTree tree).consult resolve = (result, asked) := by
  have hshows := shows_listAfter tree #[]
  rw [Expr.consult, Expr.evalAsking, Expr.evalAskingAt_of_shows hshows, h.after_evalAsking,
    List.nil_append]

theorem evaluates_iff_consult_ofTree : Evaluates resolve tree asked result ↔
    (Expr.ofTree tree).consult resolve = (result, asked) := by
  refine ⟨consult_ofTree, fun h ↦ ?_⟩
  obtain ⟨names, found, hfound⟩ := Evaluates.exists_evaluates resolve tree
  rw [consult_ofTree hfound] at h
  cases h
  exact hfound

theorem evaluates_consult_ofTree (resolve : String → Option Value) (tree : Tree) :
    Evaluates resolve tree ((Expr.ofTree tree).consult resolve).2
      ((Expr.ofTree tree).consult resolve).1 :=
  evaluates_iff_consult_ofTree.2 rfl

/-- A compiled tree has the outcome that the rules give. -/
theorem eval_ofTree_of_evaluates (h : Evaluates resolve tree asked result) :
    (Expr.ofTree tree).eval resolve = result := by
  rw [Expr.eval_ofTree, h.eval_eq]

theorem follows_ofTree (tree : Tree) : (Expr.ofTree tree).Follows tree where
  evaluates _ _ _ := evaluates_iff_consult_ofTree
  eval resolve := by
    refine ⟨?_, (eval_ofTree_of_evaluates (evaluates_consult_ofTree resolve tree)).symm⟩
    rw [Expr.evalAsking, Expr.evalAskingAt_of_shows (shows_listAfter tree #[]), Tree.evalAsking_id,
      Expr.eval_ofTree]
  logical _ _ _ hi hlogical h := Expr.exists_bool_of_isLogical hi hlogical h
  sublist_names resolve := (evaluates_consult_ofTree resolve tree).sublist_names
  agree resolve other hagree :=
    consult_ofTree ((evaluates_consult_ofTree resolve tree).of_agree hagree)
  unasked resolve name value? hname := by
    have hagree : ∀ asked ∈ ((Expr.ofTree tree).consult resolve).2,
        Function.update resolve name value? asked = resolve asked := by
      intro asked hasked
      rw [Function.update_of_ne]
      rintro rfl
      exact hname hasked
    have h := evaluates_consult_ofTree resolve tree
    rw [eval_ofTree_of_evaluates (h.of_agree hagree), eval_ofTree_of_evaluates h]
  asked resolve name hname := by
    obtain ⟨fewer, hfewer⟩ := (evaluates_consult_ofTree resolve tree).exists_of_unbound hname
    exact eval_ofTree_of_evaluates hfewer

/--
A text that is parsed is evaluated as the tree that the grammar derives from its tokens, and its
outcome depends on the names that are asked for on the way and on no others.
-/
theorem follows_of_parse {text : String} {e : Expr} (h : Expr.parse text = .ok e) :
    ∃ found tree, scan text = .ok found ∧ Derives 0 found.tokens tree ∧ e.Follows tree := by
  obtain ⟨tree, htree, rfl⟩ := Chain.map_eq_ok_iff.1 h
  obtain ⟨found, hscan, hread⟩ := Chain.bind_eq_ok_iff.1 htree
  exact ⟨found, tree, hscan, ofScan_eq_ok_iff.1 hread, follows_ofTree tree⟩

/-- A condition whose second part is not evaluated where the first fails. -/
def guarded : String :=
  "a == 'on' && b + c > 2"

/-- Values for which only the first name of `guarded` is bound. -/
def switchedOff (name : String) : Option Value :=
  if name = "a" then some (.text "off") else none

theorem follows_guarded : ∃ e found tree, Expr.parse guarded = .ok e ∧ scan guarded = .ok found ∧
    Derives 0 found.tokens tree ∧ e.Follows tree ∧ (e.consult switchedOff).2 = ["a"] ∧
    (∀ value?, e.eval (Function.update switchedOff "b" value?) = e.eval switchedOff) ∧
    e.eval (Function.update switchedOff "a" none) = .error (.undefinedVariable "a") := by
  have hrun : ((Expr.parse guarded).toOption.map fun e ↦ (e.consult switchedOff).2) =
      some ["a"] := by
    decide +kernel
  obtain ⟨e, hparse, hconsult⟩ := Chain.exists_of_map_toOption hrun
  obtain ⟨found, tree, hscan, hderives, hfollows⟩ := follows_of_parse hparse
  refine ⟨e, found, tree, hparse, hscan, hderives, hfollows, hconsult,
    fun value? ↦ hfollows.unasked _ _ _ ?_, hfollows.asked _ _ ?_⟩
  · rw [hconsult]
    decide
  · rw [hconsult]
    exact List.mem_singleton.2 rfl

end LineScript
