import LineScript.Proofs.Program.Rejection
import LineScript.Proofs.Program.Signatures
import LineScript.Proofs.Scope.Walks

/-!
# Positions and scopes within bounds

Linking hands out positions and scopes in several places, some of them before there is a node or a
scope behind them, and both passes follow them without looking again. In every layout that
statements lead to, they are within bounds: the blocks that are open and the statements that were
placed have scopes of the tree, and a function is found at a header that was placed. So the
positions and scopes that the nodes of a linked program refer to are within bounds too.
-/

namespace LineScript

def Action.positions : Action → List NodeId
  | loop past _ | branch past _ | function past _ => past.toList
  | call callee _ _ => [callee]
  | close (.loop header) => [header]
  | _ => []

def Program.positions (program : Program) (id : NodeId) (node : Node) : List NodeId :=
  (program.next? id).toList ++ (Program.previous? id).toList ++ node.action.positions

def Node.scopeIds (node : Node) : List ScopeId :=
  match node.action with
  | .function _ signature => [node.scope, signature.bodyScope]
  | _ => [node.scope]

/-- Nothing that the passes of linking follow leads out of a layout. -/
structure Layout.WithinBounds (layout : Layout) : Prop where
  scopes : layout.scopes.WithinBounds
  current_lt : layout.scope < layout.scopes.count
  block_lt : ∀ block ∈ layout.surroundings, block.scope < layout.scopes.count
  scope_lt : ∀ (id : NodeId) (draft : Draft), layout.drafts[id]? = some draft →
    draft.scope < layout.scopes.count
  function : ∀ scope name header, layout.scopes.localFunction? scope name = some header →
    scope < layout.scopes.count ∧ header < layout.drafts.size ∧
      ∃ draft signature, layout.drafts[header]? = some draft ∧ draft.form = .function signature ∧
        signature.name = name ∧ draft.scope = scope
  close_lt : ∀ header close, Bracket.closing? layout.brackets header = some close →
    close < layout.drafts.size
  header_lt : ∀ close header, close < layout.drafts.size →
    Bracket.opening? layout.brackets close = some header → header < layout.drafts.size

/-- Nothing that the nodes of a program and its scopes refer to is out of bounds: functions are
found at their headers, and a call has the parameters of its function. -/
structure Linked.WithinBounds (linked : Linked) : Prop where
  scopes : linked.scopes.WithinBounds
  position_lt : ∀ id node, linked.program.node? id = some node →
    ∀ position ∈ linked.program.positions id node, position < linked.program.size
  scope_lt : ∀ id node, linked.program.node? id = some node →
    ∀ scope ∈ node.scopeIds, scope < linked.scopes.count
  function : ∀ scope name header, linked.scopes.localFunction? scope name = some header →
    scope < linked.scopes.count ∧ header < linked.program.size ∧
      ∃ node past signature, linked.program.node? header = some node ∧
        node.action = .function past signature ∧ signature.name = name ∧ node.scope = scope
  call : ∀ id node callee function arguments, linked.program.node? id = some node →
    node.action = .call callee function arguments →
    ∃ header past signature, linked.program.node? callee = some header ∧
      header.action = .function past signature ∧ signature.name = function ∧
      arguments.map Argument.parameter = signature.parameters

namespace Bracket

variable {word : List Bracket} {header close : Nat}

theorem lt_length_of_distance? {distance : Nat} (h : distance? 0 word = some distance) :
    distance < word.length := by
  obtain ⟨inside, after, hsplit, -, hdistance⟩ := exists_split_of_distance? h
  obtain rfl : distance = inside.length := hdistance
  rw [hsplit]
  simp

theorem lt_length_of_closing? (h : closing? word header = some close) : close < word.length := by
  obtain ⟨distance, hdistance, rfl⟩ := Option.map_eq_some_iff.1 h
  have hlt := lt_length_of_distance? hdistance
  rw [List.length_drop] at hlt
  omega

theorem lt_of_opening? (h : opening? word close = some header) : header < close := by
  obtain ⟨distance, hdistance, rfl⟩ := Option.map_eq_some_iff.1 h
  have hlt := lt_length_of_distance? hdistance
  rw [List.length_map, List.length_reverse, List.length_take] at hlt
  omega

end Bracket

namespace Layout

variable {statements : List Statement} {layout : Layout} {id : Nat} {draft : Draft}

/-- Scopes are made inside scopes that there are. -/
theorem Placed.rooted (h : Placed statements layout) : layout.scopes.Rooted := by
  induction h with
  | start => exact ScopeTree.rooted_initial
  | place hplaced hplace ih =>
    obtain ⟨interpreted, form, hplacement, rfl⟩ := exists_placement hplace
    have hnesting := hplacement.nesting
    change interpreted.scopes.Rooted
    split at hnesting
    · obtain ⟨hancestors, hcount, -⟩ := hnesting
      refine (ih.addChild hplaced.scope_lt_count).of_eq ?_ (funext hancestors)
      rw [hcount, ScopeTree.count_addChild]
    · rw [hnesting.1]
      exact ih
    · obtain ⟨hancestors, hcount, -⟩ := hnesting
      exact ih.of_eq hcount hancestors

/-- The blocks around a statement have the scopes around its own. -/
theorem Placed.mem_ancestors_of_surroundings (h : Placed statements layout) {block : Block}
    (hmem : block ∈ layout.surroundings) :
    block.scope ∈ layout.scopes.ancestors layout.scope := by
  rw [h.scoped.ancestors_scope, h.scoped.scopesAt_eq]
  have hscope : block.scope ∈ layout.surroundings.map Block.scope := List.mem_map_of_mem hmem
  rwa [surroundings, List.map_append] at hscope

theorem Placed.scope_lt_of_draft (h : Placed statements layout)
    (hdraft : layout.drafts[id]? = some draft) : draft.scope < layout.scopes.count := by
  have hroot : rootScope ∈ layout.scopes.ancestors draft.scope := by
    rw [h.scoped.ancestors_draft id draft hdraft]
    exact List.mem_append_right _ List.mem_cons_self
  exact ScopeTree.lt_count_of_mem_ancestors hroot

theorem Placed.withinBounds (h : Placed statements layout) : layout.WithinBounds where
  scopes := h.rooted.withinBounds
  current_lt := h.scope_lt_count
  block_lt _ hmem :=
    h.rooted.nested.lt_count_of_mem (h.mem_ancestors_of_surroundings hmem)
  scope_lt _ _ hdraft := h.scope_lt_of_draft hdraft
  function := by
    intro scope name header hfunction
    obtain ⟨draft, signature, hdraft, hform, hname, rfl⟩ := h.exists_function hfunction
    obtain ⟨hlt, -⟩ := Array.getElem?_eq_some_iff.1 hdraft
    exact ⟨h.scope_lt_of_draft hdraft, hlt, draft, signature, hdraft, hform, hname, rfl⟩
  close_lt := by
    intro header close hclose
    have hlt := Bracket.lt_length_of_closing? hclose
    rwa [brackets, List.length_map, Array.length_toList] at hlt
  header_lt close header hclose hheader :=
    Nat.lt_trans (Bracket.lt_of_opening? hheader) hclose

end Layout

variable {statements : List Statement} {linked : Linked} {id : Nat} {node : Node}

/-- An action refers to where it jumps. -/
theorem Action.cases_of_mem_positions {action : Action} {position : NodeId}
    (h : position ∈ action.positions) :
    action.past? = some (some position) ∨
      (∃ function arguments, action = .call position function arguments) ∨
      action = .close (.loop position) := by
  unfold positions at h
  split at h
  · exact .inl (congrArg some (Option.mem_toList.1 h))
  · exact .inl (congrArg some (Option.mem_toList.1 h))
  · exact .inl (congrArg some (Option.mem_toList.1 h))
  · cases List.mem_singleton.1 h
    exact .inr (.inl ⟨_, _, rfl⟩)
  · cases List.mem_singleton.1 h
    exact .inr (.inr rfl)
  · cases h

/-- The `end` of a loop goes back. -/
theorem lt_of_loop (h : link statements = .ok linked)
    (hnode : linked.program.node? id = some node) {header : NodeId}
    (haction : node.action = .close (.loop header)) : header < id := by
  obtain ⟨found, hpair, hblock⟩ := exists_header_of_close h hnode haction
  cases hblock with
  | loop _ hend =>
    cases (hend.action_eq hnode).symm.trans haction
    exact hpair.lt
  | branch _ hend | function _ hend => cases (hend.action_eq hnode).symm.trans haction

theorem position_lt_of_node (h : link statements = .ok linked)
    (hnode : linked.program.node? id = some node) {position : NodeId}
    (hmem : position ∈ linked.program.positions id node) : position < linked.program.size := by
  rw [Program.positions, List.mem_append, List.mem_append] at hmem
  rcases hmem with (hnext | hprevious) | haction
  · exact Program.lt_size_of_next? (Option.mem_toList.1 hnext)
  · have hprevious := Option.mem_toList.1 hprevious
    unfold Program.previous? at hprevious
    split at hprevious
    · cases hprevious
      exact Nat.lt_of_le_of_lt (Nat.sub_le id 1) (Program.lt_size_of_node? hnode)
    · cases hprevious
  · rcases Action.cases_of_mem_positions haction with hpast | ⟨function, arguments, hcall⟩ | hloop
    · obtain ⟨close, -, hnext⟩ := exists_close_of_header h hnode hpast
      exact Program.lt_size_of_next? hnext.symm
    · obtain ⟨hbefore, -⟩ := exists_header_of_call h hnode hcall
      exact Nat.lt_trans hbefore (Program.lt_size_of_node? hnode)
    · exact Nat.lt_trans (lt_of_loop h hnode hloop) (Program.lt_size_of_node? hnode)

theorem scope_lt_of_node (h : link statements = .ok linked)
    (hnode : linked.program.node? id = some node) {scope : ScopeId}
    (hmem : scope ∈ node.scopeIds) : scope < linked.scopes.count := by
  have hscope := ScopeTree.lt_count_of_mem_ancestors (mem_ancestors_of_node h hnode)
  unfold Node.scopeIds at hmem
  split at hmem
  · rename_i signature haction
    rcases List.mem_pair.1 hmem with rfl | rfl
    · exact hscope
    · have hself : signature.bodyScope ∈ linked.scopes.ancestors signature.bodyScope := by
        rw [ancestors_bodyScope h hnode haction]
        exact List.mem_cons_self
      exact ScopeTree.lt_count_of_mem_ancestors hself
  · rwa [List.mem_singleton.1 hmem]

/-- A function is found at its header, from the scope in which that stands. -/
theorem exists_header_of_function (h : link statements = .ok linked) {scope : ScopeId}
    {name : String} {header : NodeId}
    (hfunction : linked.scopes.localFunction? scope name = some header) :
    ∃ node past signature, linked.program.node? header = some node ∧
      node.action = .function past signature ∧ signature.name = name ∧ node.scope = scope := by
  obtain ⟨layout, hplaced, hresolved⟩ := exists_layout_of_link h
  rw [hresolved.scopes_eq] at hfunction
  obtain ⟨draft, signature, hdraft, hform, hname, hscope⟩ := hplaced.exists_function hfunction
  obtain ⟨action, hnode, hresolution⟩ := hresolved.exists_node header draft hdraft
  have haction := hresolution.action_of_form
  rw [hform] at haction
  obtain ⟨past, haction⟩ := haction
  exact ⟨_, past, signature, hnode, haction, hname, hscope⟩

theorem rooted_of_link (h : link statements = .ok linked) : linked.scopes.Rooted := by
  obtain ⟨layout, hplaced, hresolved⟩ := exists_layout_of_link h
  rw [hresolved.scopes_eq]
  exact hplaced.rooted

theorem withinBounds_of_link (h : link statements = .ok linked) : linked.WithinBounds where
  scopes := (rooted_of_link h).withinBounds
  position_lt _ _ hnode _ hmem := position_lt_of_node h hnode hmem
  scope_lt _ _ hnode _ hmem := scope_lt_of_node h hnode hmem
  function := by
    intro scope name header hfunction
    obtain ⟨node, past, signature, hnode, haction, hname, rfl⟩ :=
      exists_header_of_function h hfunction
    exact ⟨ScopeTree.lt_count_of_mem_ancestors (mem_ancestors_of_node h hnode),
      Program.lt_size_of_node? hnode, node, past, signature, hnode, haction, hname, rfl⟩
  call := by
    intro id node callee function arguments hnode haction
    obtain ⟨-, header, past, signature, operands, hheader, hfunction, rfl, hlength, rfl⟩ :=
      exists_header_of_call h hnode haction
    exact ⟨header, past, signature, hheader, hfunction, rfl, map_parameter_zipWith hlength⟩

/-- Where there are no more nodes than 32-bit positions, a position that is referred to stands for
itself. -/
theorem Linked.WithinBounds.ofNat_eq {linked : Linked} {id position : NodeId} {node : Node}
    (h : linked.WithinBounds) (hsize : linked.program.size ≤ NodeId.last + 1)
    (hnode : linked.program.node? id = some node)
    (hmem : position ∈ linked.program.positions id node) : NodeId.ofNat position = position := by
  have hlt := h.position_lt id node hnode position hmem
  exact Nat.min_eq_left (Nat.le_of_lt_succ (Nat.lt_of_lt_of_le hlt hsize))

/-- Positions are told apart by how they are written. -/
theorem NodeId.label_inj {id other : NodeId} : id.label = other.label ↔ id = other := by
  refine ⟨fun h ↦ ?_, congrArg label⟩
  have hdigits : Nat.toDigits 10 id = Nat.toDigits 10 other := by
    have hlist := congrArg String.toList h
    rw [label, label, String.toList_append, String.toList_append] at hlist
    have hwritten := List.append_cancel_left hlist
    rwa [Nat.toString_eq_repr, Nat.toString_eq_repr, Nat.toList_repr, Nat.toList_repr] at hwritten
  rw [← Nat.ofDigitChars_ten_toDigits (n := id), hdigits, Nat.ofDigitChars_ten_toDigits]

end LineScript
