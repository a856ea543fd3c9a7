import LineScript.Proofs.Scope.Edits

/-!
# Walks to the root

Every scope but the root has a parent, which was made before it. So a walk from a scope to its
parent, and on to the parent of that, stays among the scopes there are and ends at the root. What is
around a scope are the scopes of this walk.
-/

namespace LineScript.ScopeTree

/-- A walk along parents, from a scope to the root. -/
inductive Climbs (tree : ScopeTree) : ScopeId → List ScopeId → Prop where
  | root : tree.parent? rootScope = none → Climbs tree rootScope [rootScope]
  | step {id parent : ScopeId} {walk : List ScopeId} :
      tree.parent? id = some parent → Climbs tree parent walk → Climbs tree id (id :: walk)

/-- Parents were made earlier, walks along them stay among the scopes there are, and what is around
a scope is the walk from it. -/
structure WithinBounds (tree : ScopeTree) : Prop where
  root_lt : rootScope < tree.count
  parent?_root : tree.parent? rootScope = none
  exists_parent : ∀ id, id < tree.count → id ≠ rootScope →
    ∃ parent, tree.parent? id = some parent ∧ parent < id
  climbs : ∀ id, id < tree.count → tree.Climbs id (tree.ancestors id)
  around_lt : ∀ id, ∀ around ∈ tree.ancestors id, around < tree.count

/-- The chain of scopes around each descends to the root. -/
structure Rooted (tree : ScopeTree) : Prop where
  nested : tree.Nested
  descending : tree.Descending
  root_lt : rootScope < tree.count
  root_mem : ∀ id, id < tree.count → rootScope ∈ tree.ancestors id

variable {tree after : ScopeTree} {id parent : ScopeId}

theorem rooted_initial : initial.Rooted where
  nested := nested_initial
  descending := descending_initial
  root_lt := Nat.zero_lt_one
  root_mem id hid := by
    rw [Nat.lt_one_iff.1 hid]
    exact List.mem_cons_self

theorem Rooted.addChild (h : tree.Rooted) (hlt : parent < tree.count) :
    (tree.addChild parent).Rooted where
  nested := h.nested.addChild parent
  descending := h.descending.addChild h.nested parent
  root_lt := by
    rw [count_addChild]
    exact Nat.lt_succ_of_lt h.root_lt
  root_mem id hid := by
    rw [ancestors_addChild]
    split
    · exact List.mem_cons_of_mem _ (h.root_mem parent hlt)
    · rename_i hold
      rw [count_addChild] at hid
      exact h.root_mem id (Nat.lt_of_le_of_ne (Nat.le_of_lt_succ hid) hold)

theorem Rooted.of_eq (h : tree.Rooted) (hcount : after.count = tree.count)
    (hancestors : after.ancestors = tree.ancestors) : after.Rooted where
  nested := h.nested.of_ancestors_eq hancestors
  descending := by
    rw [Descending, hancestors]
    exact h.descending
  root_lt := hcount ▸ h.root_lt
  root_mem := by
    rw [hcount, hancestors]
    exact h.root_mem

theorem Descending.parent_lt (h : tree.Descending) (hparent : tree.parent? id = some parent) :
    parent < id := by
  rw [parent?_eq] at hparent
  obtain ⟨rest, htail⟩ := List.head?_eq_some_iff.1 hparent
  have hpairwise := h id
  have hid : id < tree.count := by
    by_contra hge
    rw [ancestors_eq_nil (Nat.not_lt.1 hge)] at htail
    cases htail
  rw [ancestors_eq_cons hid, htail] at hpairwise
  exact (List.pairwise_cons.1 hpairwise).1 parent List.mem_cons_self

theorem Descending.parent?_root (h : tree.Descending) : tree.parent? rootScope = none := by
  rw [Option.eq_none_iff_forall_ne_some]
  intro parent hparent
  exact Nat.not_lt_zero parent (h.parent_lt hparent)

theorem Rooted.exists_parent (h : tree.Rooted) (hid : id < tree.count) (hroot : id ≠ rootScope) :
    ∃ parent, tree.parent? id = some parent ∧ parent < id := by
  cases hparent : tree.parent? id with
  | some parent => exact ⟨parent, rfl, h.descending.parent_lt hparent⟩
  | none =>
    have hmem := h.root_mem id hid
    rw [h.nested.ancestors_eq_parent? hid, hparent] at hmem
    exact absurd (List.mem_singleton.1 hmem).symm hroot

/-- What is around a scope is the walk from it to the root. -/
theorem Rooted.climbs (h : tree.Rooted) (hid : id < tree.count) :
    tree.Climbs id (tree.ancestors id) := by
  induction id using Nat.strong_induction_on with
  | h id ih =>
    rw [h.nested.ancestors_eq_parent? hid]
    by_cases hroot : id = rootScope
    · rw [hroot, h.descending.parent?_root]
      exact .root h.descending.parent?_root
    · obtain ⟨parent, hparent, hlt⟩ := h.exists_parent hid hroot
      rw [hparent]
      exact .step hparent (ih parent hlt (Nat.lt_trans hlt hid))

theorem Rooted.withinBounds (h : tree.Rooted) : tree.WithinBounds where
  root_lt := h.root_lt
  parent?_root := h.descending.parent?_root
  exists_parent _ hid hroot := h.exists_parent hid hroot
  climbs _ hid := h.climbs hid
  around_lt _ _ hmem := h.nested.lt_count_of_mem hmem

end LineScript.ScopeTree
