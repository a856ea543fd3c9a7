import LineScript.Proofs.Chain
import LineScript.Proofs.Scope.Laws

/-!
# Reading what was written

A scope tree starts as the root alone, and then scopes are made, names declared and variables set,
in any order and in any scopes there are. In every tree that comes about in this way a variable is
read from its owner, and setting it changes what is read exactly where it has the same owner. Where
it has none, the scope that sets it becomes the owner, for itself and for those scopes inside it
that do not find the name nearer. Variables and functions do not get in each other's way.
-/

namespace LineScript

/-- What is done to a scope tree, and in which scope. -/
inductive ScopeEdit where
  | addChild (parent : ScopeId)
  | declare (id : ScopeId) (name : String) (kind : Kind)
  | declareFunction (id : ScopeId) (name : String) (header : NodeId)
  | assign (id : ScopeId) (name : String) (value : Value)
  | set (id : ScopeId) (name : String) (value : Value)

namespace ScopeEdit

def scope : ScopeEdit → ScopeId
  | addChild id | declare id _ _ | declareFunction id _ _ | assign id _ _ | set id _ _ => id

def isOfVariable : ScopeEdit → Bool
  | declare .. | assign .. | set .. => true
  | addChild _ | declareFunction .. => false

def result? (tree : ScopeTree) : ScopeEdit → Option ScopeTree
  | addChild parent => some (tree.addChild parent)
  | declare id name kind => (tree.declare id name kind).toOption
  | declareFunction id name header => (tree.declareFunction id name header).toOption
  | assign id name value => tree.assign? id name value
  | set id name value => some (tree.set id name value)

/-- The tree after an edit; one that cannot be made changes nothing. -/
def apply (edit : ScopeEdit) (tree : ScopeTree) : ScopeTree :=
  (edit.result? tree).getD tree

end ScopeEdit

namespace ScopeTree

/-- The trees that come about by edits in scopes that exist. -/
inductive Built : ScopeTree → Prop where
  | initial : Built .initial
  | edit {tree : ScopeTree} (edit : ScopeEdit) :
      Built tree → edit.scope < tree.count → Built (edit.apply tree)

variable {tree after : ScopeTree} {id parent scope inner : ScopeId} {name other : String}
  {value : Value}

theorem Nested.lt_count_of_mem (h : tree.Nested) (hmem : scope ∈ tree.ancestors id) :
    scope < tree.count := by
  obtain ⟨before, farther, hsplit⟩ := List.append_of_mem hmem
  have haround : tree.ancestors scope = scope :: farther := h ⟨before, hsplit.symm⟩
  apply lt_count_of_mem_ancestors
  rw [haround]
  exact List.mem_cons_self

/-- Scopes around others have smaller numbers. -/
def Descending (tree : ScopeTree) : Prop :=
  ∀ id, (tree.ancestors id).Pairwise (· > ·)

theorem descending_initial : initial.Descending := by
  intro id
  cases id with
  | zero => exact List.pairwise_singleton _ _
  | succ id =>
    rw [ancestors_eq_nil (Nat.succ_le_succ (Nat.zero_le id))]
    exact .nil

theorem Descending.addChild (h : tree.Descending) (hnested : tree.Nested) (parent : ScopeId) :
    (tree.addChild parent).Descending := by
  intro id
  rw [ancestors_addChild]
  split
  · rename_i hid
    refine .cons (fun around hmem ↦ ?_) (h parent)
    rw [hid]
    exact hnested.lt_count_of_mem hmem
  · exact h id

/-- An edit that can be made makes a scope or leaves the scopes around each. -/
theorem ancestors_of_result? {edit : ScopeEdit} (h : edit.result? tree = some after) :
    after.ancestors = tree.ancestors ∨ ∃ parent, after = tree.addChild parent := by
  cases edit with
  | addChild parent => exact .inr ⟨parent, (Option.some.inj h).symm⟩
  | declare id name kind =>
    obtain ⟨-, rfl⟩ := declare_eq_ok (Chain.toOption_eq_some_iff.1 h)
    exact .inl ancestors_bindIn
  | declareFunction id name header =>
    exact .inl (declareFunction_eq_ok (Chain.toOption_eq_some_iff.1 h)).2.1
  | assign id name value =>
    obtain ⟨owner, -, rfl⟩ := Option.map_eq_some_iff.1 h
    exact .inl ancestors_bindIn
  | set id name value =>
    cases h
    exact .inl ancestors_set

theorem Built.chains (h : tree.Built) : tree.Nested ∧ tree.Descending := by
  induction h with
  | initial => exact ⟨nested_initial, descending_initial⟩
  | @edit tree edit _ _ ih =>
    obtain ⟨hnested, hdescending⟩ := ih
    unfold ScopeEdit.apply
    cases hresult : edit.result? tree with
    | none => exact ⟨hnested, hdescending⟩
    | some after =>
      rw [Option.getD_some]
      rcases ancestors_of_result? hresult with hsame | ⟨parent, rfl⟩
      · refine ⟨hnested.of_ancestors_eq hsame, ?_⟩
        rw [Descending, hsame]
        exact hdescending
      · exact ⟨hnested.addChild parent, hdescending.addChild hnested parent⟩

theorem Descending.nodup (h : tree.Descending) (id : ScopeId) : (tree.ancestors id).Nodup :=
  (h id).imp fun hlt ↦ Nat.ne_of_gt hlt

/-- Around a scope are its parent and what is around that. -/
theorem Nested.ancestors_eq_parent? (h : tree.Nested) (hid : id < tree.count) :
    tree.ancestors id = id :: ((tree.parent? id).map tree.ancestors).getD [] := by
  rw [parent?_eq]
  have hchain := ancestors_eq_cons hid
  cases htail : (tree.ancestors id).tail with
  | nil => rw [hchain, htail]; rfl
  | cons parent rest =>
    rw [htail] at hchain
    have hsuffix : parent :: rest <:+ tree.ancestors id := ⟨[id], hchain.symm⟩
    rw [hchain, List.head?_cons, Option.map_some, Option.getD_some, h hsuffix]

/-! ## Where a name is read -/

theorem owner?_eq_none_iff : tree.owner? id name = none ↔
    ∀ around ∈ tree.ancestors id, tree.local? around name = none := by
  rw [owner?, List.find?_eq_none]
  simp

theorem get?_congr (hancestors : after.ancestors = tree.ancestors)
    (hlocal : ∀ around, after.local? around name = tree.local? around name) :
    after.get? id name = tree.get? id name := by
  unfold get?
  rw [hancestors]
  simp only [hlocal]

theorem function?_congr (hancestors : after.ancestors = tree.ancestors)
    (hlocal : ∀ around other,
      after.localFunction? around other = tree.localFunction? around other) :
    after.function? = tree.function? := by
  funext id name
  unfold function?
  rw [hancestors]
  simp only [hlocal]

/-- Binding one name leaves the others. -/
theorem get?_bindIn_of_ne (hne : other ≠ name) :
    (tree.bindIn id name value).get? inner other = tree.get? inner other := by
  apply get?_congr ancestors_bindIn
  intro around
  rw [local?_bindIn, if_neg]
  exact fun hbound ↦ hne hbound.1.2.symm

theorem local?_bindIn_self (hid : id < tree.count) (around : ScopeId) :
    (tree.bindIn id name value).local? around name =
      if id = around then some value else tree.local? around name := by
  rw [local?_bindIn]
  simp [hid]

/-- A name that is bound anew in its owner is read as before, with the new value. -/
theorem get?_bindIn_owner (howner : tree.owner? id name = some scope) :
    (tree.bindIn scope name value).get? inner name =
      if tree.owner? inner name = some scope then some value else tree.get? inner name := by
  have hbound := (owner?_eq_some_iff.1 howner).1
  have hlocal := @local?_bindIn_self tree scope name value (lt_count_of_local? hbound)
  have hbinds : ∀ around, ((tree.bindIn scope name value).local? around name).isSome =
      (tree.local? around name).isSome := by
    intro around
    rw [hlocal]
    split
    · rename_i hsame
      rw [← hsame, hbound]
      rfl
    · rfl
  have hsame : (tree.bindIn scope name value).owner? inner name = tree.owner? inner name := by
    unfold owner?
    rw [ancestors_bindIn]
    simp only [hbinds]
  rw [get?_eq_bind_owner?, hsame, get?_eq_bind_owner?]
  cases hinner : tree.owner? inner name with
  | none => rfl
  | some owner =>
    rw [Option.bind_some, Option.bind_some, hlocal]
    simp only [Option.some.injEq, eq_comm]

/-- Between a scope and one that is not hidden from it for a name, nothing binds the name. -/
theorem Nested.exists_of_not_hidden (h : tree.Nested) (hvisible : ¬ tree.Hidden inner scope name) :
    ∃ nearer farther, tree.ancestors inner = nearer ++ scope :: farther ∧
      ∀ around ∈ nearer, tree.local? around name = none := by
  rw [Hidden, not_or, not_not] at hvisible
  obtain ⟨hmem, hnone⟩ := hvisible
  obtain ⟨nearer, farther, hsplit⟩ := List.append_of_mem hmem
  refine ⟨nearer, farther, hsplit, fun around haround ↦ ?_⟩
  by_contra hbound
  apply hnone
  refine ⟨around, by rw [hsplit]; exact List.mem_append_left _ haround,
    Option.isSome_iff_ne_none.2 hbound, ?_⟩
  obtain ⟨first, between, rfl⟩ := List.append_of_mem haround
  have hsuffix : around :: (between ++ scope :: farther) <:+ tree.ancestors inner :=
    ⟨first, by rw [hsplit, List.append_assoc, List.cons_append]⟩
  rw [h hsuffix, List.tail_cons]
  exact List.mem_append_right _ List.mem_cons_self

/-- A scope is hidden exactly unless it is on the chain and no nearer scope binds the name. -/
theorem Nested.not_hidden_iff (h : tree.Nested) (hdescending : tree.Descending) :
    ¬ tree.Hidden inner scope name ↔ ∃ nearer farther,
      tree.ancestors inner = nearer ++ scope :: farther ∧
        ∀ around ∈ nearer, tree.local? around name = none := by
  refine ⟨h.exists_of_not_hidden, ?_⟩
  rintro ⟨nearer, farther, hsplit, hunbound⟩ (hoff | ⟨around, hmem, hbound, hbehind⟩)
  · rw [hsplit] at hoff
    simp at hoff
  · have hchain := hdescending inner
    rw [hsplit] at hmem hchain
    have hfar : around ∈ scope :: farther := by
      refine (List.mem_append.1 hmem).resolve_left fun hnear ↦ ?_
      rw [hunbound around hnear] at hbound
      cases hbound
    have hbelow : around ≤ scope := by
      rcases List.mem_cons.1 hfar with rfl | hrest
      · exact Nat.le_refl _
      · exact Nat.le_of_lt (List.rel_of_pairwise_cons (List.pairwise_append.1 hchain).2.1 hrest)
    have habove : scope < around := by
      have haround := hdescending around
      rw [ancestors_eq_cons (lt_count_of_local? hbound)] at haround
      exact List.rel_of_pairwise_cons haround hbehind
    exact absurd habove (Nat.not_lt.2 hbelow)

/-- A name that is bound in a scope is read there from all scopes that it is not hidden from. -/
theorem owner?_bindIn_of_not_hidden (hid : id < tree.count) (hnested : tree.Nested)
    (hdescending : tree.Descending) (hvisible : ¬ tree.Hidden inner id name) :
    (tree.bindIn id name value).owner? inner name = some id := by
  obtain ⟨nearer, farther, hsplit, hunbound⟩ := hnested.exists_of_not_hidden hvisible
  refine owner?_eq_some_iff.2 ⟨?_, nearer, farther, ?_, fun around hmem ↦ ?_⟩
  · rw [local?_bindIn_self hid, if_pos rfl]
    rfl
  · rw [ancestors_bindIn, hsplit]
  · have hne : id ≠ around := by
      rintro rfl
      have hnodup := hdescending.nodup inner
      rw [hsplit] at hnodup
      exact (List.nodup_append.1 hnodup).2.2 _ hmem _ List.mem_cons_self rfl
    rw [local?_bindIn_self hid, if_neg hne, hunbound around hmem]

section Unowned

variable (hnone : tree.owner? id name = none) (hid : id < tree.count)
include hnone hid

theorem local?_eq_none_of_unowned : tree.local? id name = none := by
  apply owner?_eq_none_iff.1 hnone
  rw [ancestors_eq_cons hid]
  exact List.mem_cons_self

/-- From scopes that it is hidden from the name is read as before. -/
theorem get?_bindIn_of_hidden (hnested : tree.Nested) (hhidden : tree.Hidden inner id name) :
    (tree.bindIn id name value).get? inner name = tree.get? inner name := by
  have hlocal := @local?_bindIn_self tree id name value hid
  cases howner : tree.owner? inner name with
  | some owner =>
    have hbound := (owner?_eq_some_iff.1 howner).1
    have hkept : (tree.bindIn id name value).owner? inner name = some owner := by
      have hset : (tree.set id name value).owner? inner name = some owner :=
        hnested.owner?_set howner
      rwa [set_eq_bindIn, holder, hnone, Option.getD_none] at hset
    have hne : id ≠ owner := by
      rintro rfl
      rw [local?_eq_none_of_unowned hnone hid] at hbound
      cases hbound
    rw [get?_of_owner? hkept, get?_of_owner? howner, hlocal, if_neg hne]
  | none =>
    have hunbound := owner?_eq_none_iff.1 howner
    have hoff : id ∉ tree.ancestors inner := by
      rcases hhidden with hoff | ⟨around, hmem, hbound, -⟩
      · exact hoff
      · rw [hunbound around hmem] at hbound
        cases hbound
    have hkept : (tree.bindIn id name value).owner? inner name = none := by
      apply owner?_eq_none_iff.2
      intro around hmem
      rw [ancestors_bindIn] at hmem
      rw [hlocal, if_neg, hunbound around hmem]
      rintro rfl
      exact hoff hmem
    rw [get?_eq_bind_owner?, hkept, get?_eq_bind_owner?, howner, Option.bind_none,
      Option.bind_none]

end Unowned

theorem apply_assign_of_owner (howner : tree.owner? id name = some scope) :
    (ScopeEdit.assign id name value).apply tree = tree.bindIn scope name value := by
  rw [ScopeEdit.apply, ScopeEdit.result?, assign?, howner, Option.map_some, Option.getD_some]

theorem apply_assign_of_unowned (hnone : tree.owner? id name = none) :
    (ScopeEdit.assign id name value).apply tree = tree := by
  rw [ScopeEdit.apply, ScopeEdit.result?, assign?, hnone, Option.map_none, Option.getD_none]

theorem apply_set :
    (ScopeEdit.set id name value).apply tree = tree.bindIn (tree.holder id name) name value :=
  set_eq_bindIn

theorem apply_set_of_owned (howned : (tree.owner? id name).isSome) :
    (ScopeEdit.set id name value).apply tree = (ScopeEdit.assign id name value).apply tree := by
  obtain ⟨scope, howner⟩ := Option.isSome_iff_exists.1 howned
  rw [apply_set, apply_assign_of_owner howner, holder, howner, Option.getD_some]

theorem apply_set_of_unowned (hnone : tree.owner? id name = none) :
    (ScopeEdit.set id name value).apply tree = tree.bindIn id name value := by
  rw [apply_set, holder, hnone, Option.getD_none]

/-- Assigning a variable is seen from where it has the same owner. -/
theorem get?_apply_assign (howned : (tree.owner? id name).isSome) :
    ((ScopeEdit.assign id name value).apply tree).get? inner other =
      if other = name ∧ tree.owner? inner name = tree.owner? id name then some value
      else tree.get? inner other := by
  obtain ⟨scope, howner⟩ := Option.isSome_iff_exists.1 howned
  rw [apply_assign_of_owner howner, howner]
  by_cases hname : other = name
  · subst hname
    rw [get?_bindIn_owner howner]
    simp
  · rw [get?_bindIn_of_ne hname, if_neg (fun hboth ↦ hname hboth.1)]

/-- A scope that sees no variable of a name is not hidden from itself for the name. -/
theorem not_hidden_self (hid : id < tree.count) (hnone : tree.owner? id name = none) :
    ¬ tree.Hidden id id name := by
  rintro (hoff | ⟨around, hmem, hbound, -⟩)
  · apply hoff
    rw [ancestors_eq_cons hid]
    exact List.mem_cons_self
  · rw [owner?_eq_none_iff.1 hnone around hmem] at hbound
    cases hbound

/-- Setting a variable without an owner is seen from where the scope is not hidden. -/
theorem get?_apply_set_of_unowned (hid : id < tree.count) (hnone : tree.owner? id name = none)
    (hnested : tree.Nested) (hdescending : tree.Descending) :
    ((ScopeEdit.set id name value).apply tree).get? inner other =
      if other = name ∧ ¬ tree.Hidden inner id name then some value
      else tree.get? inner other := by
  rw [apply_set_of_unowned hnone]
  by_cases hname : other = name
  · subst hname
    by_cases hhidden : tree.Hidden inner id other
    · rw [get?_bindIn_of_hidden hnone hid hnested hhidden, if_neg (fun hboth ↦ hboth.2 hhidden)]
    · rw [get?_of_owner? (owner?_bindIn_of_not_hidden hid hnested hdescending hhidden),
        local?_bindIn_self hid, if_pos rfl, if_pos ⟨rfl, hhidden⟩]
  · rw [get?_bindIn_of_ne hname, if_neg (fun hboth ↦ hname hboth.1)]

theorem result?_declare {kind : Kind} : (ScopeEdit.declare id name kind).result? tree =
    if (tree.local? id name).isSome then none else some (tree.bindIn id name kind.zero) := by
  rw [ScopeEdit.result?, declare]
  split <;> rfl

/-- Declaring a variable is refused exactly where the scope itself binds the name. -/
theorem result?_declare_eq_none_iff {kind : Kind} :
    (ScopeEdit.declare id name kind).result? tree = none ↔ (tree.local? id name).isSome := by
  rw [result?_declare]
  split <;> simp_all

/-- Declaring a function is refused exactly where the scope itself declares one of the name. -/
theorem result?_declareFunction_eq_none_iff {header : NodeId} :
    (ScopeEdit.declareFunction id name header).result? tree = none ↔
      (tree.localFunction? id name).isSome := by
  rw [ScopeEdit.result?, declareFunction]
  split
  · rename_i hdeclared
    exact iff_of_true rfl hdeclared
  · rename_i hnew
    exact iff_of_false (by simp [Except.toOption]) hnew

theorem ScopeEdit.apply_of_refused {edit : ScopeEdit} (h : edit.result? tree = none) :
    edit.apply tree = tree := by
  rw [ScopeEdit.apply, h, Option.getD_none]

theorem function?_bindIn : (tree.bindIn id name value).function? = tree.function? :=
  function?_congr ancestors_bindIn fun _ _ ↦ localFunction?_bindIn

/-- An edit of a variable leaves all functions. -/
theorem function?_apply {edit : ScopeEdit} (hvariable : edit.isOfVariable = true) :
    (edit.apply tree).function? = tree.function? := by
  cases edit with
  | declare id name kind =>
    rw [ScopeEdit.apply, result?_declare]
    split
    · rfl
    · exact function?_bindIn
  | assign id name value =>
    cases howner : tree.owner? id name with
    | none => rw [apply_assign_of_unowned howner]
    | some owner => rw [apply_assign_of_owner howner, function?_bindIn]
  | set id name value => rw [apply_set, function?_bindIn]
  | addChild | declareFunction => cases hvariable

/-- Declaring a function leaves all variables. -/
theorem get?_apply_declareFunction {header : NodeId} :
    ((ScopeEdit.declareFunction id name header).apply tree).get? = tree.get? := by
  cases hresult : (ScopeEdit.declareFunction id name header).result? tree with
  | none => rw [ScopeEdit.apply_of_refused hresult]
  | some after =>
    obtain ⟨-, hancestors, hlocal, -⟩ :=
      declareFunction_eq_ok (Chain.toOption_eq_some_iff.1 hresult)
    rw [ScopeEdit.apply, hresult, Option.getD_some]
    funext inner other
    exact get?_congr hancestors fun around ↦ hlocal around other

/-! ## Laws -/

/-- How a scope tree is read, and what edits change of it. -/
structure ReadsEdits (tree : ScopeTree) : Prop where
  /-- The chain of a scope is the scope, its parent, and so on up to the root. -/
  chain : ∀ id < tree.count,
    tree.ancestors id = id :: ((tree.parent? id).map tree.ancestors).getD []
  /-- The owner of a name is the nearest scope on the chain that binds it. -/
  owner : ∀ id name scope, tree.owner? id name = some scope ↔
    (tree.local? scope name).isSome ∧ ∃ nearer farther,
      tree.ancestors id = nearer ++ scope :: farther ∧
        ∀ around ∈ nearer, tree.local? around name = none
  /-- A name has no owner if nothing on the chain binds it. -/
  unowned : ∀ id name, tree.owner? id name = none ↔
    ∀ around ∈ tree.ancestors id, tree.local? around name = none
  /-- A variable has the value that its owner gives it. -/
  get : ∀ id name, tree.get? id name =
    (tree.owner? id name).bind fun owner ↦ tree.local? owner name
  /-- A scope is hidden for a name unless it is on the chain and nothing nearer binds the name. -/
  visible : ∀ inner scope name, ¬ tree.Hidden inner scope name ↔ ∃ nearer farther,
    tree.ancestors inner = nearer ++ scope :: farther ∧
      ∀ around ∈ nearer, tree.local? around name = none
  /-- A variable can be assigned exactly if it has an owner. -/
  assign_found : ∀ id name value,
    ((ScopeEdit.assign id name value).result? tree).isSome = (tree.owner? id name).isSome
  /-- Then the new value is read wherever the name has that owner, and nothing else changes. -/
  assign_owned : ∀ id name value, (tree.owner? id name).isSome → ∀ inner other,
    ((ScopeEdit.assign id name value).apply tree).get? inner other =
      if other = name ∧ tree.owner? inner name = tree.owner? id name then some value
      else tree.get? inner other
  /-- To assign a variable without an owner changes nothing. -/
  assign_unowned : ∀ id name value, tree.owner? id name = none →
    (ScopeEdit.assign id name value).apply tree = tree
  /-- To set a variable that has an owner is to assign it. -/
  set_owned : ∀ id name value, (tree.owner? id name).isSome →
    (ScopeEdit.set id name value).apply tree = (ScopeEdit.assign id name value).apply tree
  /-- To set a variable without an owner makes the scope its owner. The new value is read from all
  scopes that this scope is not hidden from, and nothing else changes. -/
  set_unowned : ∀ id name value, id < tree.count → tree.owner? id name = none →
    ((ScopeEdit.set id name value).apply tree).owner? id name = some id ∧ ∀ inner other,
      ((ScopeEdit.set id name value).apply tree).get? inner other =
        if other = name ∧ ¬ tree.Hidden inner id name then some value else tree.get? inner other
  /-- A declaration of a variable fails exactly if the scope itself binds the name, and then it
  changes nothing. -/
  declare_refused : ∀ id name kind,
    ((ScopeEdit.declare id name kind).result? tree = none ↔ (tree.local? id name).isSome) ∧
      ((ScopeEdit.declare id name kind).result? tree = none →
        (ScopeEdit.declare id name kind).apply tree = tree)
  /-- A declaration of a function fails exactly if the scope itself declares one of the name, and
  then it changes nothing. -/
  declareFunction_refused : ∀ id name header,
    ((ScopeEdit.declareFunction id name header).result? tree = none ↔
      (tree.localFunction? id name).isSome) ∧
      ((ScopeEdit.declareFunction id name header).result? tree = none →
        (ScopeEdit.declareFunction id name header).apply tree = tree)
  /-- Edits of variables leave all functions. -/
  functions_kept : ∀ edit : ScopeEdit, edit.isOfVariable = true →
    (edit.apply tree).function? = tree.function?
  /-- Declarations of functions leave all variables. -/
  variables_kept : ∀ id name header,
    ((ScopeEdit.declareFunction id name header).apply tree).get? = tree.get?

/-- Every tree that edits lead to is read in this way. -/
theorem readsEdits_of_built (h : tree.Built) : tree.ReadsEdits where
  chain _ hid := h.chains.1.ancestors_eq_parent? hid
  owner _ _ _ := owner?_eq_some_iff
  unowned _ _ := owner?_eq_none_iff
  get _ _ := get?_eq_bind_owner?
  visible _ _ _ := h.chains.1.not_hidden_iff h.chains.2
  assign_found _ _ _ := Option.isSome_map
  assign_owned _ _ _ howned _ _ := get?_apply_assign howned
  assign_unowned _ _ _ hnone := apply_assign_of_unowned hnone
  set_owned _ _ _ howned := apply_set_of_owned howned
  set_unowned id name value hid hnone := by
    obtain ⟨hnested, hdescending⟩ := h.chains
    refine ⟨?_, fun inner other ↦ get?_apply_set_of_unowned hid hnone hnested hdescending⟩
    rw [apply_set_of_unowned hnone]
    exact owner?_bindIn_of_not_hidden hid hnested hdescending (not_hidden_self hid hnone)
  declare_refused _ _ _ := ⟨result?_declare_eq_none_iff, ScopeEdit.apply_of_refused⟩
  declareFunction_refused _ _ _ :=
    ⟨result?_declareFunction_eq_none_iff, ScopeEdit.apply_of_refused⟩
  functions_kept _ hvariable := function?_apply hvariable
  variables_kept _ _ _ := get?_apply_declareFunction

/-- Two scopes side by side inside a scope of the program's, of which the first binds a name. -/
def siblings : ScopeTree :=
  [.addChild 0, .addChild 1, .addChild 1, .declare 2 "x" .text].foldl
    (fun tree edit ↦ ScopeEdit.apply edit tree) .initial

theorem built_siblings : siblings.Built :=
  .edit (.declare 2 "x" .text) (.edit (.addChild 1) (.edit (.addChild 1)
    (.edit (.addChild 0) .initial (by decide)) (by decide)) (by decide)) (by decide)

/-- The scope around the two sets the name, and only the second sees it. -/
theorem readsEdits_siblings : siblings.Built ∧ siblings.owner? 1 "x" = none ∧
    ∃ after, after = (ScopeEdit.set 1 "x" (.text "new")).apply siblings ∧
      after.owner? 1 "x" = some 1 ∧ after.get? 2 "x" = some (.text "") ∧
      after.get? 3 "x" = some (.text "new") ∧ after.get? 0 "x" = none := by
  have hnone : siblings.owner? 1 "x" = none := by decide
  have hlaws := readsEdits_of_built built_siblings
  obtain ⟨howner, hget⟩ := hlaws.set_unowned 1 "x" (.text "new") (by decide) hnone
  refine ⟨built_siblings, hnone, _, rfl, howner, ?_, ?_, ?_⟩
  · rw [hget, if_neg (by decide)]
    decide
  · rw [hget, if_pos (by decide)]
  · rw [hget, if_neg (by decide)]
    decide

end ScopeTree

end LineScript
