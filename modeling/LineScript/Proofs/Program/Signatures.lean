import LineScript.Proofs.Program.BlockScopes
import LineScript.Proofs.Program.Targets

/-!
# Signatures of functions

What the header of a function declares, and what its calls make of it: the parameters have
different names, a function is found under its name at its header, in the scope of which it was
declared, and a call has one operand behind the name for each parameter.
-/

namespace LineScript

namespace Layout

variable {layout after : Layout} {keyword : String} {operands : List Operand} {form : Form}
  {statements : List Statement} {scope : ScopeId} {name : String} {header : NodeId}

/-- Reading parameters keeps the names different. -/
theorem nodup_of_readParameters {parameters all : List Parameter}
    (h : readParameters parameters operands = .ok all)
    (hnodup : (parameters.map Parameter.name).Nodup) : (all.map Parameter.name).Nodup := by
  fun_induction readParameters parameters operands with
  | case1 | case2 | case4 => cases h
  | case3 parameters type rest kind name hkind hnew ih =>
    refine ih h ?_
    rw [List.map_append, List.map_singleton]
    refine List.nodup_append.2 ⟨hnodup, List.pairwise_singleton _ _, ?_⟩
    intro other hmem last hlast hsame
    obtain ⟨parameter, hparameter, rfl⟩ := List.mem_map.1 hmem
    rw [List.mem_singleton.1 hlast] at hsame
    exact hnew (List.any_eq_true.2 ⟨parameter, hparameter, beq_iff_eq.2 hsame⟩)
  | case5 parameters =>
    cases h
    exact hnodup

theorem nodup_of_readHeader {parameters : List Parameter}
    (h : readHeader operands = .ok (name, parameters)) :
    (parameters.map Parameter.name).Nodup := by
  unfold readHeader at h
  split at h
  · split at h
    · obtain ⟨found, hfound, hsame⟩ := Chain.map_eq_ok_iff.1 h
      cases hsame
      exact nodup_of_readParameters hfound .nil
    · cases h
  · cases h

/-- A function is new only where its header is placed. -/
theorem Placement.localFunction?_cases (h : layout.Placement keyword operands after form)
    (hlocal : after.scopes.localFunction? scope name = some header) :
    layout.scopes.localFunction? scope name = some header ∨
      ∃ signature, form = .function signature ∧ signature.name = name ∧
        scope = layout.scope ∧ header = layout.drafts.size := by
  cases h with
  | function _ _ hdeclare =>
    obtain ⟨-, -, -, hfunction⟩ := ScopeTree.declareFunction_eq_ok hdeclare
    have hdeclared := ScopeTree.localFunction?_addChild.symm.trans hlocal
    rw [hfunction] at hdeclared
    split at hdeclared
    · rename_i hhere
      exact .inr ⟨_, rfl, hhere.1.2, hhere.1.1.symm, (Option.some.inj hdeclared).symm⟩
    · exact .inl hdeclared
  | declare _ _ hdeclare =>
    obtain ⟨-, rfl⟩ := ScopeTree.declare_eq_ok hdeclare
    exact .inl (ScopeTree.localFunction?_bindIn.symm.trans hlocal)
  | output | input | call | assign | close => exact .inl hlocal
  | loop | branch => exact .inl (ScopeTree.localFunction?_addChild.symm.trans hlocal)

/-- A function stands under its name in the scope of its header. -/
theorem Placed.exists_function (h : Placed statements layout)
    (hfunction : layout.scopes.localFunction? scope name = some header) :
    ∃ draft signature, layout.drafts[header]? = some draft ∧ draft.form = .function signature ∧
      signature.name = name ∧ draft.scope = scope := by
  induction h with
  | start => cases scope <;> cases hfunction
  | place _ hplace ih =>
    obtain ⟨interpreted, form, hplacement, rfl⟩ := exists_placement hplace
    rcases hplacement.localFunction?_cases hfunction with
      hbefore | ⟨signature, rfl, hname, rfl, rfl⟩
    · obtain ⟨draft, signature, hdraft, hrest⟩ := ih hbefore
      exact ⟨draft, signature, getElem?_push_of_some hdraft _, hrest⟩
    · exact ⟨_, signature, Array.getElem?_push_size, rfl, hname, rfl⟩

/-- What is found under the name of a function is the header of a function of that name. -/
theorem Placed.callee?_eq (h : Placed statements layout) {callee : NodeId}
    (hfunction : layout.scopes.function? layout.scope name = some callee) :
    ∃ draft signature, layout.drafts[callee]? = some draft ∧ draft.form = .function signature ∧
      signature.name = name ∧ layout.callee? name = some (callee, signature) := by
  obtain ⟨around, -, hlocal⟩ := List.exists_of_findSome?_eq_some hfunction
  obtain ⟨draft, signature, hdraft, hform, hname, -⟩ := h.exists_function hlocal
  refine ⟨draft, signature, hdraft, hform, hname, ?_⟩
  have hformAt : layout.formAt? callee = some (.function signature) := by
    rw [formAt?, hdraft, Option.map_some, hform]
  unfold callee?
  rw [hfunction]
  dsimp only
  rw [hformAt]

theorem function?_of_callee? {callee : NodeId} {signature : Signature}
    (h : layout.callee? name = some (callee, signature)) :
    layout.scopes.function? layout.scope name = some callee := by
  unfold callee? at h
  split at h
  · cases h
  · rename_i hfunction
    split at h
    · cases h
      exact hfunction
    · cases h

end Layout

variable {statements : List Statement} {linked : Linked} {id : Nat} {node : Node}

/-- The parameters of a function have different names. -/
theorem nodup_parameters (h : link statements = .ok linked)
    (hnode : linked.program.node? id = some node) {past : Option NodeId} {signature : Signature}
    (haction : node.action = .function past signature) :
    (signature.parameters.map Parameter.name).Nodup := by
  obtain ⟨layout, hplaced, hresolved⟩ := exists_layout_of_link h
  obtain ⟨form, hdraft, hresolution⟩ := hresolved.exists_draft hnode
  rw [haction] at hresolution
  cases hresolution with
  | function hform =>
    obtain ⟨before, after, -, hplacement, -⟩ := hplaced.placement_of_draft hdraft
    rw [hform] at hplacement
    cases hplacement with
    | function _ hheader _ => exact Layout.nodup_of_readHeader hheader

/-- Around the body of a function are the scopes that are around its header. -/
theorem ancestors_bodyScope (h : link statements = .ok linked)
    (hnode : linked.program.node? id = some node) {past : Option NodeId} {signature : Signature}
    (haction : node.action = .function past signature) :
    linked.scopes.ancestors signature.bodyScope =
      signature.bodyScope :: linked.scopes.ancestors node.scope := by
  have hopens : linked.program.brackets[id]? = some .opens := by
    rw [bracket_of_node hnode, haction]
    rfl
  rw [bodyScope_of_node h hnode haction]
  exact ancestors_of_opens h hopens hnode

/-- A call has a name and then one operand for each parameter of the function of that name. -/
theorem operands_of_call (h : link statements = .ok linked)
    (hnode : linked.program.node? id = some node) {callee : NodeId} {function : String}
    {arguments : List Argument} (haction : node.action = .call callee function arguments) :
    ∃ name operands header past signature, node.operands = name :: operands ∧
      linked.program.node? callee = some header ∧ header.action = .function past signature ∧
      function = signature.name ∧ signature.name = name.raw ∧
      signature.parameters.length = operands.length ∧
      arguments = List.zipWith Argument.mk signature.parameters operands := by
  obtain ⟨layout, hplaced, hresolved⟩ := exists_layout_of_link h
  obtain ⟨form, hdraft, hresolution⟩ := hresolved.exists_draft hnode
  obtain ⟨before, after, hbefore, hkeeps, hplacement, -⟩ := hplaced.exists_keeps hdraft
  rw [hresolution.form_of_call haction] at hplacement
  cases hplacement with
  | @call name operands _ signature _ hoperands hcallee hlength =>
    obtain ⟨headerDraft, found, hheader, hform, hname, hsame⟩ :=
      hbefore.callee?_eq (Layout.function?_of_callee? hcallee)
    rw [hcallee] at hsame
    cases hsame
    obtain ⟨action, hfound, hheaderResolution⟩ :=
      hresolved.exists_node callee headerDraft (hkeeps.draft hheader)
    have hfunction := hheaderResolution.action_of_form
    rw [hform] at hfunction
    obtain ⟨past, hfunction⟩ := hfunction
    exact ⟨name, operands, _, past, signature, hoperands, hfound, hfunction, rfl, hname, hlength,
      rfl⟩

end LineScript
