import LineScript.Scope.ScopeTree
import Mathlib.Data.List.Infix

/-!
# Laws of scope trees

Making a scope and declaring a name change nothing else: what is around a scope is settled when it
is made. A variable is read from the nearest scope that binds its name, and set there too; only
where no scope around does is it bound anew, in the scope that sets it. So setting a variable never
comes between another scope and an owner that it has: the owner of a name, once there is one, stays
the same however variables are set.
-/

namespace LineScript.ScopeTree

variable {tree after : ScopeTree} {id parent scope inner : ScopeId} {name other : String}
  {value : Value}

/-- What follows a scope among those around another is what is around it. -/
def Nested (tree : ScopeTree) : Prop :=
  ∀ ⦃id scope : ScopeId⦄ ⦃rest : List ScopeId⦄, scope :: rest <:+ tree.ancestors id →
    tree.ancestors scope = scope :: rest

/-- The scope in which setting a variable binds it. -/
def holder (tree : ScopeTree) (id : ScopeId) (name : String) : ScopeId :=
  (tree.owner? id name).getD id

theorem ancestors_eq_cons (h : id < tree.count) :
    tree.ancestors id = id :: (tree.ancestors id).tail := by
  rw [ancestors, Array.getElem?_eq_getElem h]
  rfl

theorem ancestors_eq_nil (h : tree.count ≤ id) : tree.ancestors id = [] := by
  rw [ancestors, Array.getElem?_eq_none h]

theorem eq_of_ancestors_eq_cons {rest : List ScopeId} (h : tree.ancestors id = scope :: rest) :
    scope = id := by
  by_cases hid : id < tree.count
  · rw [ancestors_eq_cons hid] at h
    exact (List.cons.inj h).1.symm
  · rw [ancestors_eq_nil (Nat.not_lt.1 hid)] at h
    cases h

theorem parent?_eq : tree.parent? id = (tree.ancestors id).tail.head? := by
  unfold parent? ancestors
  cases tree.scopes[id]? <;> rfl

theorem Nested.suffix_of_mem (h : tree.Nested) (hmem : scope ∈ tree.ancestors id) :
    tree.ancestors scope <:+ tree.ancestors id := by
  obtain ⟨before, after, hsplit⟩ := List.append_of_mem hmem
  have hsuffix : scope :: after <:+ tree.ancestors id := ⟨before, hsplit.symm⟩
  rwa [h hsuffix]

theorem Nested.of_ancestors_eq (h : tree.Nested) (hancestors : after.ancestors = tree.ancestors) :
    after.Nested := by
  rw [Nested, hancestors]
  exact h

theorem nested_initial : initial.Nested := by
  intro id scope rest hsuffix
  cases id with
  | zero =>
    rcases List.suffix_cons_iff.1 hsuffix with heq | hnil
    · obtain ⟨rfl, rfl⟩ := List.cons.inj heq
      rfl
    · cases List.suffix_nil.1 hnil
  | succ id =>
    rw [ancestors_eq_nil (Nat.succ_le_succ (Nat.zero_le id))] at hsuffix
    cases List.suffix_nil.1 hsuffix

@[simp]
theorem count_addChild : (tree.addChild parent).count = tree.count + 1 := by
  simp [addChild, count]

theorem ancestors_addChild : (tree.addChild parent).ancestors id =
    if id = tree.count then id :: tree.ancestors parent else tree.ancestors id := by
  rw [ancestors, addChild, Array.getElem?_push, count]
  by_cases hid : id = tree.scopes.size
  · rw [if_pos hid, if_pos hid]
    rfl
  · rw [if_neg hid, if_neg hid]
    rfl

theorem ancestors_addChild_of_mem (h : scope ∈ tree.ancestors id) :
    (tree.addChild parent).ancestors id = tree.ancestors id := by
  rw [ancestors_addChild, if_neg]
  rintro rfl
  rw [ancestors_eq_nil (Nat.le_refl _)] at h
  cases h

theorem Nested.addChild (h : tree.Nested) (parent : ScopeId) : (tree.addChild parent).Nested := by
  have hold : ∀ {id scope rest}, scope :: rest <:+ tree.ancestors id →
      (tree.addChild parent).ancestors scope = scope :: rest := by
    intro id scope rest hsuffix
    have haround := h hsuffix
    have hself : scope ∈ tree.ancestors scope := by
      rw [haround]
      exact List.mem_cons_self
    rw [ancestors_addChild_of_mem hself, haround]
  intro id scope rest hsuffix
  rw [ancestors_addChild] at hsuffix
  split at hsuffix
  · rename_i hid
    rcases List.suffix_cons_iff.1 hsuffix with heq | htail
    · obtain ⟨rfl, rfl⟩ := List.cons.inj heq
      rw [ancestors_addChild, if_pos hid]
    · exact hold htail
  · exact hold hsuffix

theorem local?_addChild : (tree.addChild parent).local? scope name = tree.local? scope name := by
  rw [local?, local?, addChild, Array.getElem?_push]
  split
  · rename_i hscope
    rw [Array.getElem?_eq_none (Nat.le_of_eq hscope.symm)]
    rfl
  · rfl

theorem localFunction?_addChild :
    (tree.addChild parent).localFunction? scope name = tree.localFunction? scope name := by
  rw [localFunction?, localFunction?, addChild, Array.getElem?_push]
  split
  · rename_i hscope
    rw [Array.getElem?_eq_none (Nat.le_of_eq hscope.symm)]
    rfl
  · rfl

/-- Nothing is made or moved by a change inside a scope. -/
theorem ancestors_modify {change : Scope → Scope}
    (hchange : ∀ content, (change content).enclosing = content.enclosing) :
    (⟨tree.scopes.modify id change⟩ : ScopeTree).ancestors = tree.ancestors := by
  funext around
  rw [ancestors, ancestors, Array.getElem?_modify]
  by_cases hid : id = around
  · rw [if_pos hid]
    cases tree.scopes[around]? with
    | none => rfl
    | some content => exact congrArg _ (hchange content)
  · rw [if_neg hid]

/-- Where a scope binds a name, the name is found there and nothing else has changed. -/
theorem bind_modify {α : Type} {change : Scope → Scope} {part : Scope → Bindings α} {content : α}
    (hchange : ∀ old, part (change old) = (part old).insert name content) :
    ((tree.scopes.modify id change)[scope]?.bind fun found ↦ (part found).get? other) =
      if (id = scope ∧ name = other) ∧ id < tree.count then some content
      else tree.scopes[scope]?.bind fun found ↦ (part found).get? other := by
  rw [Array.getElem?_modify]
  by_cases hscope : id = scope
  · subst hscope
    rw [if_pos rfl]
    by_cases hid : id < tree.count
    · rw [Array.getElem?_eq_getElem hid, Option.map_some, Option.bind_some, Option.bind_some,
        hchange, Bindings.get?_insert]
      simp [hid, eq_comm]
    · rw [Array.getElem?_eq_none (Nat.not_lt.1 hid)]
      simp [hid]
  · simp [hscope]

/-- Declaring a function changes one scope, and nothing but its functions. -/
theorem declareFunction_eq_ok {header : NodeId}
    (h : tree.declareFunction id name header = .ok after) :
    after.count = tree.count ∧ after.ancestors = tree.ancestors ∧
      (∀ scope other, after.local? scope other = tree.local? scope other) ∧
      ∀ scope other, after.localFunction? scope other =
        if (id = scope ∧ name = other) ∧ id < tree.count then some header
        else tree.localFunction? scope other := by
  unfold declareFunction at h
  split at h
  · cases h
  · cases h
    refine ⟨by simp [count], ancestors_modify fun _ ↦ rfl, ?_, ?_⟩
    · intro scope other
      rw [local?, local?, Array.getElem?_modify]
      split
      · cases tree.scopes[scope]? <;> rfl
      · rfl
    · exact fun scope other ↦ bind_modify fun _ ↦ rfl

/-! ## Owners -/

theorem owner?_eq_some_iff : tree.owner? id name = some scope ↔
    (tree.local? scope name).isSome ∧ ∃ before after,
      tree.ancestors id = before ++ scope :: after ∧
        ∀ nearer ∈ before, tree.local? nearer name = none := by
  rw [owner?, List.find?_eq_some_iff_append]
  simp

theorem isSome_owner?_iff : (tree.owner? id name).isSome ↔
    ∃ around ∈ tree.ancestors id, (tree.local? around name).isSome :=
  List.find?_isSome

/-- A variable has the value that its owner gives it. -/
theorem get?_eq_bind_owner? : tree.get? id name =
    (tree.owner? id name).bind fun owner ↦ tree.local? owner name := by
  rw [get?, owner?]
  induction tree.ancestors id with
  | nil => rfl
  | cons around rest ih =>
    rw [List.findSome?_cons, List.find?_cons]
    cases hlocal : tree.local? around name with
    | none => exact ih
    | some value => exact hlocal.symm

theorem get?_of_owner? (h : tree.owner? id name = some scope) :
    tree.get? id name = tree.local? scope name := by
  rw [get?_eq_bind_owner?, h, Option.bind_some]

theorem lt_count_of_local? (h : (tree.local? scope name).isSome) : scope < tree.count := by
  by_contra hge
  rw [local?, Array.getElem?_eq_none (Nat.not_lt.1 hge)] at h
  cases h

/-- A scope that binds a name and holds it for another is its owner there. -/
theorem owner?_of_holder (h : tree.holder id name = scope)
    (hbound : (tree.local? scope name).isSome) : tree.owner? id name = some scope := by
  cases howner : tree.owner? id name with
  | some owner =>
    rw [holder, howner] at h
    exact congrArg some h
  | none =>
    rw [holder, howner, Option.getD_none] at h
    subst h
    have hmem : id ∈ tree.ancestors id := by
      rw [ancestors_eq_cons (lt_count_of_local? hbound)]
      exact List.mem_cons_self
    have hsome := isSome_owner?_iff.2 ⟨id, hmem, hbound⟩
    rw [howner] at hsome
    cases hsome

/-- Between trees with the same scopes, of which the second binds all that the first does, the
owner in the second is the owner in the first if it binds the name there. -/
theorem owner?_of_owner? (hancestors : after.ancestors = tree.ancestors)
    (hkeeps : ∀ around, (tree.local? around name).isSome → (after.local? around name).isSome)
    (howner : after.owner? id name = some scope) (hbound : (tree.local? scope name).isSome) :
    tree.owner? id name = some scope := by
  obtain ⟨-, before, rest, hsplit, hnearer⟩ := owner?_eq_some_iff.1 howner
  rw [hancestors] at hsplit
  refine owner?_eq_some_iff.2 ⟨hbound, before, rest, hsplit, fun nearer hmem ↦ ?_⟩
  by_contra hsome
  have hafter := hkeeps nearer (Option.isSome_iff_ne_none.2 hsome)
  rw [hnearer nearer hmem] at hafter
  cases hafter

/-- A name that has an owner has one also in a tree with the same scopes that binds more. -/
theorem isSome_owner?_mono (hancestors : after.ancestors = tree.ancestors)
    (hkeeps : ∀ around, (tree.local? around name).isSome → (after.local? around name).isSome)
    (howner : (tree.owner? id name).isSome) : (after.owner? id name).isSome := by
  obtain ⟨around, hmem, hbound⟩ := isSome_owner?_iff.1 howner
  rw [← hancestors] at hmem
  exact isSome_owner?_iff.2 ⟨around, hmem, hkeeps around hbound⟩

theorem lt_count_of_mem_ancestors (h : scope ∈ tree.ancestors id) : id < tree.count := by
  by_contra hge
  rw [ancestors_eq_nil (Nat.not_lt.1 hge)] at h
  cases h

theorem holder_mem_ancestors (h : id < tree.count) : tree.holder id name ∈ tree.ancestors id := by
  cases howner : tree.owner? id name with
  | none =>
    rw [holder, howner, Option.getD_none, ancestors_eq_cons h]
    exact List.mem_cons_self
  | some owner =>
    rw [holder, howner, Option.getD_some]
    exact List.mem_of_find?_eq_some howner

theorem holder_lt_count (h : id < tree.count) : tree.holder id name < tree.count := by
  cases howner : tree.owner? id name with
  | none => rwa [holder, howner]
  | some owner =>
    rw [holder, howner]
    exact lt_count_of_local? (owner?_eq_some_iff.1 howner).1

/-- A name that a scope sees is seen from all scopes inside it. -/
theorem Nested.isSome_owner? (h : tree.Nested) (hmem : scope ∈ tree.ancestors id)
    (howner : (tree.owner? scope name).isSome) : (tree.owner? id name).isSome := by
  obtain ⟨around, haround, hbound⟩ := isSome_owner?_iff.1 howner
  exact isSome_owner?_iff.2 ⟨around, (h.suffix_of_mem hmem).subset haround, hbound⟩

/-- A scope is hidden from another for a name: it is not around it, or a scope between them binds the
name. -/
def Hidden (tree : ScopeTree) (id : ScopeId) (scope : ScopeId) (name : String) : Prop :=
  scope ∉ tree.ancestors id ∨ ∃ inner ∈ tree.ancestors id,
    (tree.local? inner name).isSome ∧ scope ∈ (tree.ancestors inner).tail

instance : Decidable (tree.Hidden id scope name) :=
  inferInstanceAs (Decidable (_ ∨ _))

/-- A name is not set in a scope that is hidden. -/
theorem Nested.holder_ne (h : tree.Nested) (hid : id < tree.count)
    (hnodup : (tree.ancestors id).Nodup) (hhidden : tree.Hidden id scope name) :
    tree.holder id name ≠ scope := by
  rintro rfl
  rcases hhidden with hoff | ⟨inner, hinner, hbound, hmem⟩
  · exact hoff (holder_mem_ancestors hid)
  · obtain ⟨owner, howner⟩ :=
      Option.isSome_iff_exists.1 (isSome_owner?_iff.2 ⟨inner, hinner, hbound⟩)
    rw [holder, howner, Option.getD_some] at hmem
    obtain ⟨-, before, after, hsplit, hnearer⟩ := owner?_eq_some_iff.1 howner
    rw [hsplit] at hinner hnodup
    have howner_not_mem : owner ∉ after :=
      (List.nodup_cons.1 (List.nodup_append.1 hnodup).2.1).1
    have haround : tree.ancestors owner = owner :: after := h ⟨before, hsplit.symm⟩
    rcases List.mem_append.1 hinner with hbefore | hbehind
    · rw [hnearer inner hbefore] at hbound
      cases hbound
    · rw [← haround] at hbehind
      have hsuffix := h.suffix_of_mem hbehind
      rw [haround] at hsuffix
      -- The owner would be among the scopes around itself.
      rcases List.suffix_cons_iff.1 hsuffix with heq | hinside
      · rw [heq, List.tail_cons] at hmem
        exact howner_not_mem hmem
      · exact howner_not_mem (hinside.subset (List.mem_of_mem_tail hmem))

/-! ## Binding and setting -/

@[simp]
theorem count_bindIn : (tree.bindIn id name value).count = tree.count := by
  simp [bindIn, count]

@[simp]
theorem ancestors_bindIn : (tree.bindIn id name value).ancestors = tree.ancestors :=
  ancestors_modify fun _ ↦ rfl

theorem local?_bindIn : (tree.bindIn id name value).local? scope other =
    if (id = scope ∧ name = other) ∧ id < tree.count then some value
    else tree.local? scope other :=
  bind_modify fun _ ↦ rfl

theorem localFunction?_bindIn : (tree.bindIn id name value).localFunction? scope other =
    tree.localFunction? scope other := by
  rw [localFunction?, localFunction?, bindIn, Array.getElem?_modify]
  split
  · cases tree.scopes[scope]? <;> rfl
  · rfl

/-- Declaring a variable binds a name that its scope has not bound. -/
theorem declare_eq_ok {kind : Kind} (h : tree.declare id name kind = .ok after) :
    tree.local? id name = none ∧ after = tree.bindIn id name kind.zero := by
  unfold declare at h
  split at h
  · cases h
  · rename_i hnone
    cases h
    exact ⟨by simpa using hnone, rfl⟩

theorem set_eq_bindIn : tree.set id name value = tree.bindIn (tree.holder id name) name value := by
  rw [set, assign?, holder]
  cases tree.owner? id name <;> rfl

@[simp]
theorem count_set : (tree.set id name value).count = tree.count := by
  rw [set_eq_bindIn, count_bindIn]

@[simp]
theorem ancestors_set : (tree.set id name value).ancestors = tree.ancestors := by
  rw [set_eq_bindIn, ancestors_bindIn]

theorem local?_set : (tree.set id name value).local? scope other =
    if (tree.holder id name = scope ∧ name = other) ∧ scope < tree.count then some value
    else tree.local? scope other := by
  rw [set_eq_bindIn, local?_bindIn]
  grind

theorem isSome_local?_set (h : (tree.local? scope other).isSome) :
    ((tree.set id name value).local? scope other).isSome := by
  rw [local?_set]
  split
  · rfl
  · exact h

/-- Setting a variable does not change where a name that has an owner is read. -/
theorem Nested.owner?_set (h : tree.Nested) (howner : tree.owner? inner other = some scope) :
    (tree.set id name value).owner? inner other = some scope := by
  obtain ⟨hbound, before, after, hsplit, hnearer⟩ := owner?_eq_some_iff.1 howner
  refine owner?_eq_some_iff.2 ⟨isSome_local?_set hbound, before, after, ?_, ?_⟩
  · rwa [ancestors_set]
  · intro nearer hmem
    rw [local?_set, if_neg, hnearer nearer hmem]
    rintro ⟨⟨rfl, rfl⟩, hlt⟩
    -- The owner is around the scope that sets the name, so nothing is bound anew there.
    obtain ⟨first, rest, rfl⟩ := List.append_of_mem hmem
    have hsuffix : tree.holder id name :: (rest ++ scope :: after) <:+ tree.ancestors inner :=
      ⟨first, by rw [hsplit, List.append_assoc, List.cons_append]⟩
    have haround := h hsuffix
    have hunbound := hnearer (tree.holder id name) hmem
    cases hid : tree.owner? id name with
    | some owner =>
      have hsome := (owner?_eq_some_iff.1 hid).1
      rw [holder, hid, Option.getD_some] at hunbound
      rw [hunbound] at hsome
      cases hsome
    | none =>
      rw [holder, hid, Option.getD_none] at haround
      have hsome : (tree.owner? id name).isSome :=
        isSome_owner?_iff.2 ⟨scope, by rw [haround]; simp, hbound⟩
      rw [hid] at hsome
      cases hsome

theorem holder_set : (tree.set id name value).holder id other = tree.holder id other := by
  by_cases hsame : name = other ∧ tree.owner? id other = none
  · obtain ⟨rfl, hnone⟩ := hsame
    by_cases hid : id < tree.count
    · have howner : (tree.set id name value).owner? id name = some id := by
        apply owner?_eq_some_iff.2
        refine ⟨?_, [], (tree.ancestors id).tail, ?_, by simp⟩
        · rw [local?_set, holder, hnone, if_pos ⟨⟨rfl, rfl⟩, hid⟩]
          rfl
        · rw [ancestors_set]
          exact ancestors_eq_cons hid
      rw [holder, howner, holder, hnone]
      rfl
    · rw [holder, owner?, ancestors_set, holder, owner?, ancestors_eq_nil (Nat.not_lt.1 hid)]
      rfl
  · have hbinds : ∀ around, ((tree.set id name value).local? around other).isSome =
        (tree.local? around other).isSome := by
      intro around
      rw [local?_set]
      split
      · rename_i hset
        obtain ⟨⟨rfl, rfl⟩, -⟩ := hset
        obtain ⟨owner, howner⟩ := Option.ne_none_iff_exists'.1 fun hnone ↦ hsame ⟨rfl, hnone⟩
        rw [holder, howner, Option.getD_some, (owner?_eq_some_iff.1 howner).1]
        rfl
      · rfl
    rw [holder, owner?, holder, owner?, ancestors_set]
    simp only [hbinds]

section

variable {values : List (String × Value)}

theorem setAll_cons : tree.setAll id ((name, value) :: values) =
    (tree.set id name value).setAll id values :=
  rfl

@[simp]
theorem ancestors_setAll : (tree.setAll id values).ancestors = tree.ancestors := by
  induction values generalizing tree with
  | nil => rfl
  | cons _ _ ih => exact ih.trans ancestors_set

@[simp]
theorem count_setAll : (tree.setAll id values).count = tree.count := by
  induction values generalizing tree with
  | nil => rfl
  | cons _ _ ih => exact ih.trans count_set

theorem isSome_local?_setAll (h : (tree.local? scope other).isSome) :
    ((tree.setAll id values).local? scope other).isSome := by
  induction values generalizing tree with
  | nil => exact h
  | cons _ _ ih => exact ih (isSome_local?_set h)

theorem Nested.owner?_setAll (h : tree.Nested) (howner : tree.owner? inner other = some scope) :
    (tree.setAll id values).owner? inner other = some scope := by
  induction values generalizing tree with
  | nil => exact howner
  | cons _ _ ih => exact ih (h.of_ancestors_eq ancestors_set) (h.owner?_set howner)

/-- Where several variables are set, a name gets the last value that there is for it. -/
theorem local?_setAll : (tree.setAll id values).local? scope other =
    if tree.holder id other = scope ∧ scope < tree.count then
      (values.reverse.lookup other).or (tree.local? scope other)
    else tree.local? scope other := by
  induction values generalizing tree with
  | nil =>
    split <;> rfl
  | cons entry rest ih =>
    obtain ⟨name, value⟩ := entry
    rw [setAll_cons, ih, holder_set, count_set, local?_set, List.reverse_cons, List.lookup_append,
      Option.or_assoc]
    by_cases hname : name = other
    · subst hname
      by_cases hholder : tree.holder id name = scope ∧ scope < tree.count
      · simp [hholder.1, hholder.2]
      · rw [if_neg hholder, if_neg hholder, if_neg (by tauto)]
    · have hset : ¬ ((tree.holder id name = scope ∧ name = other) ∧ scope < tree.count) :=
        fun hset ↦ hname hset.1.2
      rw [if_neg hset, List.lookup_cons, beq_false_of_ne (Ne.symm hname), List.lookup_nil,
        Option.none_or]

theorem holder_setAll : (tree.setAll id values).holder id other = tree.holder id other := by
  induction values generalizing tree with
  | nil => rfl
  | cons _ _ ih => exact ih.trans holder_set

/-- Where several variables are set, a name is bound anew only if nothing around binds it. -/
theorem local?_setAll_cases (h : ((tree.setAll id values).local? scope other).isSome) :
    (tree.local? scope other).isSome ∨
      values ≠ [] ∧ tree.owner? id other = none ∧ scope = id := by
  by_cases hbound : (tree.local? scope other).isSome
  · exact .inl hbound
  · right
    rw [local?_setAll] at h
    split at h
    · rename_i hholder
      refine ⟨?_, ?_⟩
      · rintro rfl
        exact hbound h
      · cases howner : tree.owner? id other with
        | none =>
          rw [holder, howner, Option.getD_none] at hholder
          exact ⟨rfl, hholder.1.symm⟩
        | some owner =>
          rw [holder, howner, Option.getD_some] at hholder
          rw [← hholder.1] at hbound
          exact absurd (owner?_eq_some_iff.1 howner).1 hbound
    · exact absurd h hbound

/-- What was set is seen from where it was set. -/
theorem isSome_owner?_setAll (hid : id < tree.count) (hmem : (name, value) ∈ values) :
    ((tree.setAll id values).owner? id name).isSome := by
  apply isSome_owner?_iff.2
  refine ⟨tree.holder id name, ?_, ?_⟩
  · rw [ancestors_setAll]
    exact holder_mem_ancestors hid
  · rw [local?_setAll, if_pos ⟨rfl, holder_lt_count hid⟩, Option.isSome_or, Bool.or_eq_true]
    left
    rw [Option.isSome_iff_ne_none, Ne, List.lookup_eq_none_iff]
    intro hnone
    exact absurd (hnone _ (List.mem_reverse.2 hmem)) (by simp)

end

end LineScript.ScopeTree
