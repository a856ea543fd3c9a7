import LineScript.Proofs.Program.Placement

/-!
# What the second pass of linking can do

`Resolution` lists, for each form that the first pass found, what the second adds to it: the partner
of a bracket, and the formulas. The nodes of a program are the drafts of its layout in order, each
resolved in one of these ways.
-/

namespace LineScript

def Action.bracket : Action → Bracket
  | loop .. | branch .. | function .. => .opens
  | close _ => .closes
  | _ => .plain

/-- Where the header of a block goes past the block, if an action is one. -/
def Action.past? : Action → Option (Option NodeId)
  | loop past _ | branch past _ | function past _ => some past
  | _ => none

def Program.brackets (program : Program) : List Bracket :=
  program.nodes.toList.map fun node ↦ node.action.bracket

namespace Layout

/-- The kind of a block as its `end` sees it, by the form of its header. -/
def blockKind (layout : Layout) (header : NodeId) : BlockKind :=
  match layout.formAt? header with
  | some .loop => .loop header
  | some (.function _) => .function
  | _ => .branch

/-- The ways in which a draft at a position is resolved. -/
inductive Resolution (layout : Layout) (id : NodeId) (draft : Draft) : Action → Prop where
  | declare {kind : Kind} : draft.form = .declare kind → Resolution layout id draft (.declare kind)
  | output : draft.form = .output → Resolution layout id draft .output
  | input : draft.form = .input → Resolution layout id draft .input
  | loop {close : Nat} {condition : Formula} : draft.form = .loop →
      Bracket.closing? layout.brackets id = some close →
      Formula.compile draft.operands = .ok condition →
      Resolution layout id draft (.loop (layout.next? close) condition)
  | branch {close : Nat} {condition : Formula} : draft.form = .branch →
      Bracket.closing? layout.brackets id = some close →
      Formula.compile draft.operands = .ok condition →
      Resolution layout id draft (.branch (layout.next? close) condition)
  | function {close : Nat} {signature : Signature} : draft.form = .function signature →
      Bracket.closing? layout.brackets id = some close →
      Resolution layout id draft (.function (layout.next? close) signature)
  | call {callee : NodeId} {function : String} {arguments : List Argument} :
      draft.form = .call callee function arguments →
      Resolution layout id draft (.call callee function arguments)
  | close {header : Nat} : draft.form = .close →
      Bracket.opening? layout.brackets id = some header →
      Resolution layout id draft (.close (layout.blockKind header))
  | number {value : List Operand} {formula : Formula} : draft.form = .assign .number →
      draft.operands = .symbol "=" :: value → value ≠ [] → Formula.compile value = .ok formula →
      Resolution layout id draft (.assign draft.location.keyword (some formula))
  | text {value : List Operand} : draft.form = .assign .text →
      draft.operands = .symbol "=" :: value → value ≠ [] →
      Resolution layout id draft (.assign draft.location.keyword none)

variable {layout : Layout} {id : NodeId} {draft : Draft} {action : Action}

theorem exists_closing_of_past {keyword : String} {target : Option NodeId}
    (h : layout.past id keyword = .ok target) :
    ∃ close, Bracket.closing? layout.brackets id = some close ∧ layout.next? close = target := by
  unfold past at h
  split at h
  · rename_i close hclose
    exact ⟨close, hclose, Except.ok.inj h⟩
  · exact absurd h (by simp)

theorem exists_opening_of_closedBlock {keyword : String} {kind : BlockKind}
    (h : layout.closedBlock id keyword = .ok kind) :
    ∃ header, Bracket.opening? layout.brackets id = some header ∧
      layout.blockKind header = kind := by
  unfold closedBlock at h
  split at h
  · exact absurd h (by simp)
  · rename_i header hheader
    refine ⟨header, hheader, ?_⟩
    unfold blockKind
    generalize layout.formAt? header = found at h ⊢
    cases found with
    | none => exact Except.ok.inj h
    | some form => cases form <;> exact Except.ok.inj h

theorem compile_eq_ok {operands : List Operand} {formula : Formula}
    (h : compile operands = .ok formula) : Formula.compile operands = .ok formula := by
  unfold compile at h
  cases hcompile : Formula.compile operands with
  | error fault => simp [hcompile, Except.mapError] at h
  | ok compiled => simpa [hcompile, Except.mapError] using h

theorem resolution_of_resolveAssignment {kind : Kind} (hform : draft.form = .assign kind)
    (h : resolveAssignment draft.location.keyword kind draft.operands = .ok action) :
    Resolution layout id draft action := by
  unfold resolveAssignment at h
  split at h
  · rename_i value hoperands
    split at h
    · exact absurd h (by simp)
    · rename_i hempty
      have hvalue : value ≠ [] := by simpa using hempty
      cases kind with
      | number =>
        obtain ⟨formula, hformula, hresult⟩ := Chain.bind_eq_ok_iff.1 h
        cases hresult
        exact .number hform hoperands hvalue (compile_eq_ok hformula)
      | text =>
        cases h
        exact .text hform hoperands hvalue
  · exact absurd h (by simp)

/-- Every draft that is accepted is resolved in the way of its form. -/
theorem resolution_of_resolve (h : layout.resolve id draft = .ok action) :
    Resolution layout id draft action := by
  unfold resolve at h
  dsimp only at h
  split at h
  · rename_i hform
    cases h
    exact .declare hform
  · rename_i hform
    cases h
    exact .output hform
  · rename_i hform
    cases h
    exact .input hform
  · rename_i hform
    obtain ⟨target, hpast, hrest⟩ := Chain.bind_eq_ok_iff.1 h
    obtain ⟨condition, hcompile, hresult⟩ := Chain.bind_eq_ok_iff.1 hrest
    obtain ⟨close, hclose, rfl⟩ := exists_closing_of_past hpast
    cases hresult
    exact .loop hform hclose (compile_eq_ok hcompile)
  · rename_i hform
    obtain ⟨target, hpast, hrest⟩ := Chain.bind_eq_ok_iff.1 h
    obtain ⟨condition, hcompile, hresult⟩ := Chain.bind_eq_ok_iff.1 hrest
    obtain ⟨close, hclose, rfl⟩ := exists_closing_of_past hpast
    cases hresult
    exact .branch hform hclose (compile_eq_ok hcompile)
  · rename_i signature hform
    obtain ⟨target, hpast, hresult⟩ := Chain.bind_eq_ok_iff.1 h
    obtain ⟨close, hclose, rfl⟩ := exists_closing_of_past hpast
    cases hresult
    exact .function hform hclose
  · rename_i hform
    cases h
    exact .call hform
  · rename_i hform
    obtain ⟨kind, hkind, hresult⟩ := Chain.bind_eq_ok_iff.1 h
    obtain ⟨header, hheader, rfl⟩ := exists_opening_of_closedBlock hkind
    cases hresult
    exact .close hform hheader
  · rename_i hform
    exact resolution_of_resolveAssignment hform h

theorem Resolution.bracket_eq (h : Resolution layout id draft action) :
    action.bracket = draft.form.bracket := by
  cases h with
  | declare hform => rw [hform]; rfl
  | output hform => rw [hform]; rfl
  | input hform => rw [hform]; rfl
  | loop hform => rw [hform]; rfl
  | branch hform => rw [hform]; rfl
  | function hform => rw [hform]; rfl
  | call hform => rw [hform]; rfl
  | close hform => rw [hform]; rfl
  | number hform => rw [hform]; rfl
  | text hform => rw [hform]; rfl

/-- The action of a bracket is of the kind that its form says, and that of a call is the call. -/
theorem Resolution.action_of_form (h : Resolution layout id draft action) :
    match draft.form with
    | .loop => ∃ past condition, action = .loop past condition
    | .branch => ∃ past condition, action = .branch past condition
    | .function signature => ∃ past, action = .function past signature
    | .call callee name arguments => action = .call callee name arguments
    | .close => ∃ header, Bracket.opening? layout.brackets id = some header ∧
        action = .close (layout.blockKind header)
    | _ => True := by
  cases h with
  | loop hform => rw [hform]; exact ⟨_, _, rfl⟩
  | branch hform => rw [hform]; exact ⟨_, _, rfl⟩
  | function hform => rw [hform]; exact ⟨_, rfl⟩
  | call hform => rw [hform]
  | close hform hheader => rw [hform]; exact ⟨_, hheader, rfl⟩
  | declare hform | output hform | input hform | number hform | text hform =>
    rw [hform]
    trivial

theorem Resolution.form_of_call (h : Resolution layout id draft action) {callee : NodeId}
    {function : String} {arguments : List Argument}
    (haction : action = .call callee function arguments) :
    draft.form = .call callee function arguments := by
  cases h with
  | call hform =>
    cases haction
    exact hform
  | declare | output | input | loop | branch | function | close | number | text => cases haction

/-- A header goes to the statement after its partner. -/
theorem Resolution.past_eq (h : Resolution layout id draft action) {past : Option NodeId}
    (hpast : action.past? = some past) {close : Nat}
    (hclose : Bracket.closing? layout.brackets id = some close) : past = layout.next? close := by
  cases h with
  | loop _ hfound | branch _ hfound | function _ hfound =>
    cases hpast
    rw [hclose] at hfound
    rw [Option.some.inj hfound]
  | declare | output | input | call | close | number | text => cases hpast

/-- A program resolves the drafts of its layout in order, and takes over the scopes. -/
structure Resolved (layout : Layout) (linked : Linked) : Prop where
  scopes_eq : linked.scopes = layout.scopes
  size_eq : linked.program.size = layout.drafts.size
  exists_node : ∀ (id : Nat) (draft : Draft), layout.drafts[id]? = some draft →
    ∃ action, linked.program.node? id = some ⟨draft.location, draft.operands, draft.scope, action⟩ ∧
      Resolution layout id draft action

theorem resolution_of_resolveNode {node : Node} (h : layout.resolveNode draft id = .ok node) :
    node = ⟨draft.location, draft.operands, draft.scope, node.action⟩ ∧
      Resolution layout id draft node.action := by
  unfold resolveNode at h
  split at h
  · rename_i action haction
    cases h
    exact ⟨rfl, resolution_of_resolve haction⟩
  · exact absurd h (by simp)

theorem resolved_of_finish {linked : Linked} (h : layout.finish = .ok linked) :
    Resolved layout linked := by
  obtain ⟨nodes, hnodes, hresult⟩ := Chain.bind_eq_ok_iff.1 h
  cases hresult
  have hall := Chain.forall₂_of_mapM hnodes
  have hlength := hall.length_eq
  rw [List.length_zipIdx, Array.length_toList] at hlength
  refine ⟨rfl, ?_, ?_⟩
  · rw [Program.size, List.size_toArray, hlength]
  · intro id draft hdraft
    obtain ⟨hlt, -⟩ := Array.getElem?_eq_some_iff.1 hdraft
    have hid : id < nodes.length := hlength ▸ hlt
    have hresolve := hall.get (i := id) (by simpa using hlt) hid
    simp only [List.get_eq_getElem, List.getElem_zipIdx, Array.getElem_toList, Nat.zero_add]
      at hresolve
    rw [Array.getElem?_eq_getElem hlt] at hdraft
    rw [Option.some.inj hdraft] at hresolve
    obtain ⟨hnode, hresolution⟩ := resolution_of_resolveNode hresolve
    refine ⟨nodes[id].action, ?_, hresolution⟩
    rw [← hnode, Program.node?, List.getElem?_toArray, List.getElem?_eq_getElem hid]

variable {linked : Linked}

theorem Resolved.exists_draft (h : Resolved layout linked) {id : Nat} {node : Node}
    (hnode : linked.program.node? id = some node) :
    ∃ form, layout.drafts[id]? = some ⟨node.location, node.operands, node.scope, form⟩ ∧
      Resolution layout id ⟨node.location, node.operands, node.scope, form⟩ node.action := by
  obtain ⟨hlt, -⟩ := Array.getElem?_eq_some_iff.1 hnode
  have hid : id < layout.drafts.size := h.size_eq ▸ hlt
  obtain ⟨action, hfound, hresolution⟩ :=
    h.exists_node id _ (Array.getElem?_eq_getElem hid)
  rw [hnode] at hfound
  cases hfound
  exact ⟨layout.drafts[id].form, Array.getElem?_eq_getElem hid, hresolution⟩

theorem Resolved.brackets_eq (h : Resolved layout linked) :
    linked.program.brackets = layout.brackets := by
  apply List.ext_getElem?
  intro id
  rw [Program.brackets, Layout.brackets, List.getElem?_map, List.getElem?_map,
    Array.getElem?_toList, Array.getElem?_toList]
  cases hdraft : layout.drafts[id]? with
  | none =>
    have hsize := Array.getElem?_eq_none_iff.1 hdraft
    rw [← h.size_eq] at hsize
    rw [Array.getElem?_eq_none_iff.2 hsize]
    rfl
  | some draft =>
    obtain ⟨action, hnode, hresolution⟩ := h.exists_node id draft hdraft
    rw [Program.node?] at hnode
    rw [hnode, Option.map_some, Option.map_some, hresolution.bracket_eq]

theorem Resolved.next?_eq (h : Resolved layout linked) (id : NodeId) :
    layout.next? id = linked.program.next? id := by
  rw [Layout.next?, Program.next?, h.size_eq]

end Layout

/-- A program that is linked comes from a layout of its statements. -/
theorem exists_layout_of_link {statements : List Statement} {linked : Linked}
    (h : link statements = .ok linked) :
    ∃ layout, Layout.Placed statements layout ∧ Layout.Resolved layout linked := by
  obtain ⟨layout, hplaced, hfinish⟩ := Chain.bind_eq_ok_iff.1 h
  exact ⟨layout, Layout.placed_of_ofStatements hplaced, Layout.resolved_of_finish hfinish⟩

end LineScript
