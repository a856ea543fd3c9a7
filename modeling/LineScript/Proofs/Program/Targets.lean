import LineScript.Proofs.Program.Scopes

/-!
# Targets of assignments

Linking takes a statement for an assignment where its keyword names a variable or a parameter. It
looks the name up in the blocks that are open, of which it keeps the scope and the parameters. In
terms of the linked program: a variable of that name was declared in a scope around the statement,
or a function around it has a parameter of that name.
-/

namespace LineScript

def Form.parameters : Form → List Parameter
  | function signature => signature.parameters
  | _ => []

namespace Layout

def parametersAt (layout : Layout) (id : NodeId) : List Parameter :=
  ((layout.formAt? id).map Form.parameters).getD []

variable {layout before after : Layout} {keyword : String} {operands : List Operand} {form : Form}
  {statements : List Statement} {id : NodeId} {draft : Draft}

theorem parametersAt_eq (h : layout.drafts[id]? = some draft) :
    layout.parametersAt id = draft.form.parameters := by
  rw [parametersAt, formAt?, h]
  rfl

/-- A draft that is added leaves the parameters of the others. -/
theorem parametersAt_of_lt (hdrafts : after.drafts = before.drafts.push draft)
    (hlt : id < before.drafts.size) : after.parametersAt id = before.parametersAt id := by
  have hkept : after.drafts[id]? = some before.drafts[id] := by
    rw [hdrafts]
    exact getElem?_push_of_some (Array.getElem?_eq_getElem hlt) _
  rw [parametersAt_eq hkept, parametersAt_eq (Array.getElem?_eq_getElem hlt)]

theorem parametersAt_size (hdrafts : after.drafts = before.drafts.push draft) :
    after.parametersAt before.drafts.size = draft.form.parameters := by
  apply parametersAt_eq
  rw [hdrafts, Array.getElem?_push_size]

/-- One layout has come further than another: drafts are kept, and variables that are declared. -/
structure Keeps (before after : Layout) : Prop where
  draft : ∀ {id : NodeId} {draft : Draft},
    before.drafts[id]? = some draft → after.drafts[id]? = some draft
  value : ∀ {scope : ScopeId} {name : String} {value : Value},
    before.scopes.local? scope name = some value → after.scopes.local? scope name = some value

/-- A statement was placed in the layout of the statements before it, which later ones kept. -/
theorem Placed.exists_keeps (h : Placed statements layout)
    (hdraft : layout.drafts[id]? = some draft) :
    ∃ before after, Placed (statements.take id) before ∧ before.Keeps layout ∧
      before.Placement draft.location.keyword draft.operands after draft.form ∧
      draft.scope = before.scope := by
  induction h with
  | start => exact absurd hdraft (by simp [Layout.start])
  | @place earlier last current _ hplaced hplace ih =>
    have hsize := hplaced.size_drafts
    obtain ⟨interpreted, form, hplacement, rfl⟩ := exists_placement hplace
    have hkeeps : current.Keeps { interpreted with
        drafts := current.drafts.push
          ⟨last.location, Operand.classify last.operands, current.scope, form⟩ } :=
      ⟨fun hdraft ↦ getElem?_push_of_some hdraft _, hplacement.local?_eq⟩
    rw [Array.getElem?_push] at hdraft
    split at hdraft
    · rename_i hid
      cases hdraft
      refine ⟨current, interpreted, ?_, hkeeps, hplacement, rfl⟩
      rwa [hid, hsize, List.take_left]
    · obtain ⟨hlt, -⟩ := Array.getElem?_eq_some_iff.1 hdraft
      obtain ⟨before, after, hbefore, hbeforeKeeps, hrest⟩ := ih hdraft
      refine ⟨before, after, ?_, ?_, hrest⟩
      · rwa [List.take_append_of_le_length (by omega)]
      · exact ⟨fun hfound ↦ hkeeps.draft (hbeforeKeeps.draft hfound),
          fun hfound ↦ hkeeps.value (hbeforeKeeps.value hfound)⟩

/-- What a statement does to the parameters of the open blocks. -/
theorem Placement.parameters_eq (h : layout.Placement keyword operands after form) :
    match form.bracket with
    | .opens => after.blocks.map Block.parameters =
        form.parameters :: layout.blocks.map Block.parameters
    | .closes => after.blocks.map Block.parameters =
        (layout.blocks.map Block.parameters).tail
    | .plain => after.blocks = layout.blocks := by
  cases h with
  | close _ hblocks =>
    rw [Form.bracket, hblocks]
    rfl
  | declare | output | input | loop | branch | function | call | assign => rfl

/-- The open blocks have the parameters of their headers. -/
theorem Placed.parameters_eq (h : Placed statements layout) :
    layout.blocks.map Block.parameters =
      (Bracket.openAt (statements.map Statement.bracket) statements.length).map
        layout.parametersAt := by
  induction h with
  | start => rfl
  | @place earlier last current grown hplaced hplace ih =>
    obtain ⟨interpreted, form, hplacement, hgrown⟩ := exists_placement hplace
    have hdrafts : grown.drafts = current.drafts.push
        ⟨last.location, Operand.classify last.operands, current.scope, form⟩ := by rw [hgrown]
    have hblocks : grown.blocks = interpreted.blocks := by rw [hgrown]
    have hbracket : last.bracket = form.bracket := hplacement.bracket_eq.symm
    have hopen :=
      @Bracket.openAt_concat (earlier.map Statement.bracket) form.bracket
    rw [List.length_append, List.length_map, List.length_singleton] at hopen
    rw [List.map_append, List.map_singleton, hbracket, List.length_append, List.length_singleton,
      hopen, hblocks]
    -- The headers that are open already keep their parameters.
    have hkeep : (Bracket.openAt (earlier.map Statement.bracket) earlier.length).map
          grown.parametersAt = current.blocks.map Block.parameters := by
      rw [ih]
      apply List.map_congr_left
      intro header hmem
      apply parametersAt_of_lt hdrafts
      rw [hplaced.size_drafts]
      exact (Bracket.getElem?_of_mem_openAt hmem).1
    have hlast := parametersAt_size hdrafts
    rw [hplaced.size_drafts] at hlast
    have hparameters := hplacement.parameters_eq
    split at hparameters
    · rename_i hopens
      rw [hopens, Bracket.turn, List.map_cons, hkeep, hlast]
      exact hparameters
    · rename_i hcloses
      rw [hcloses, Bracket.turn, List.map_tail, hkeep]
      exact hparameters
    · rename_i hplain
      rw [hplain, Bracket.turn, hkeep, hparameters]

/-- The name that an assignment is placed with is bound in a scope around it, or a parameter of an
open block. -/
theorem Placed.exists_of_targetKind? (h : Placed statements layout) {name : String} {kind : Kind}
    (hkind : layout.targetKind? name = some kind) :
    (∃ scope ∈ layout.scopes.ancestors layout.scope,
        (layout.scopes.local? scope name).isSome) ∨
      ∃ header ∈ Bracket.openAt (statements.map Statement.bracket) statements.length,
        ∃ parameter ∈ layout.parametersAt header, parameter.name = name := by
  obtain ⟨block, hmem, hblock⟩ := List.exists_of_findSome?_eq_some hkind
  have hscoped := h.scoped
  unfold kindIn? at hblock
  split at hblock
  · rename_i value hvalue
    refine .inl ⟨block.scope, ?_, by rw [hvalue]; rfl⟩
    rw [hscoped.ancestors_scope, hscoped.scopesAt_eq]
    have hscope := List.mem_map_of_mem (f := Block.scope) hmem
    rwa [surroundings, List.map_append] at hscope
  · right
    obtain ⟨parameter, hfound, -⟩ := Option.map_eq_some_iff.1 hblock
    have hparameter := List.mem_of_find?_eq_some hfound
    have hname := List.find?_some hfound
    rcases List.mem_append.1 hmem with hopen | hroot
    · have hparameters := List.mem_map_of_mem (f := Block.parameters) hopen
      rw [h.parameters_eq] at hparameters
      obtain ⟨header, hheader, hsame⟩ := List.mem_map.1 hparameters
      rw [← hsame] at hparameter
      exact ⟨header, hheader, parameter, hparameter, eq_of_beq hname⟩
    · rw [List.mem_singleton.1 hroot] at hparameter
      cases hparameter

end Layout

variable {statements : List Statement} {linked : Linked} {id : NodeId} {node : Node}

/-- An assignment resolves a draft of one, which has its target as keyword. -/
theorem Layout.Resolution.form_of_assign {layout : Layout} {draft : Draft} {action : Action}
    (h : layout.Resolution id draft action) {target : String} {formula : Option Formula}
    (haction : action = .assign target formula) :
    draft.location.keyword = target ∧ ∃ kind, draft.form = .assign kind := by
  cases h with
  | number hform | text hform =>
    cases haction
    exact ⟨rfl, _, hform⟩
  | declare | output | input | loop | branch | function | call | close => cases haction

/-- An assignment has a value behind its `=`, and if it has a formula, the value compiles to it. -/
theorem operands_of_assign (h : link statements = .ok linked)
    (hnode : linked.program.node? id = some node) {target : String} {formula : Option Formula}
    (haction : node.action = .assign target formula) :
    ∃ value, node.operands = .symbol "=" :: value ∧ value ≠ [] ∧
      ∀ compiled, formula = some compiled → Formula.compile value = .ok compiled := by
  obtain ⟨layout, -, hresolved⟩ := exists_layout_of_link h
  obtain ⟨form, -, hresolution⟩ := hresolved.exists_draft hnode
  rw [haction] at hresolution
  cases hresolution with
  | number _ hoperands hvalue hcompile =>
    refine ⟨_, hoperands, hvalue, fun compiled hcompiled ↦ ?_⟩
    rwa [← Option.some.inj hcompiled]
  | text _ hoperands hvalue =>
    exact ⟨_, hoperands, hvalue, fun _ hcompiled ↦ by cases hcompiled⟩

/-- Only headers of functions have parameters. -/
theorem Layout.Resolution.function_of_mem_parameters {layout : Layout} {draft : Draft}
    {action : Action} (h : layout.Resolution id draft action) {parameter : Parameter}
    (hmem : parameter ∈ draft.form.parameters) :
    ∃ past signature, action = .function past signature ∧ parameter ∈ signature.parameters := by
  have haction := h.action_of_form
  cases hform : draft.form with
  | function signature =>
    rw [hform] at hmem haction
    obtain ⟨past, haction⟩ := haction
    exact ⟨past, signature, haction, hmem⟩
  | declare | output | input | loop | branch | call | close | assign =>
    rw [hform] at hmem
    cases hmem

/-- The brackets of a program begin with those of its first statements. -/
theorem exists_brackets_eq (h : link statements = .ok linked) (hid : id ≤ statements.length) :
    ∃ after, linked.program.brackets = (statements.take id).map Statement.bracket ++ after ∧
      ((statements.take id).map Statement.bracket).length = id := by
  refine ⟨(statements.drop id).map Statement.bracket, ?_, ?_⟩
  · rw [brackets_of_link h, ← List.map_append, List.take_append_drop]
  · rw [List.length_map, List.length_take, Nat.min_eq_left hid]

/-- The target of an assignment is declared around it, or is a parameter of a function around it. -/
theorem target_of_assign (h : link statements = .ok linked)
    (hnode : linked.program.node? id = some node) {target : String} {formula : Option Formula}
    (haction : node.action = .assign target formula) :
    (linked.scopes.owner? node.scope target).isSome ∨
      ∃ header found past signature, linked.program.isAround id header = true ∧
        linked.program.node? header = some found ∧ found.action = .function past signature ∧
        ∃ parameter ∈ signature.parameters, parameter.name = target := by
  obtain ⟨layout, hplaced, hresolved⟩ := exists_layout_of_link h
  obtain ⟨form, hdraft, hresolution⟩ := hresolved.exists_draft hnode
  obtain ⟨hkeyword, kind, hform⟩ := hresolution.form_of_assign haction
  obtain ⟨before, after, hbefore, hkeeps, hplacement, hscope⟩ := hplaced.exists_keeps hdraft
  have hid := Program.lt_size_of_node? hnode
  rw [size_of_link h] at hid
  obtain ⟨rest, hbrackets, hlength⟩ := exists_brackets_eq h (Nat.le_of_lt hid)
  have hkind : ∃ kind, before.targetKind? target = some kind := by
    dsimp only at hkeyword hform hplacement
    rw [hform, hkeyword] at hplacement
    cases hplacement with
    | assign _ hkind => exact ⟨_, hkind⟩
  obtain ⟨kind, hkind⟩ := hkind
  rcases hbefore.exists_of_targetKind? hkind with
    ⟨scope, hmem, hbound⟩ | ⟨header, hmem, parameter, hparameter, hname⟩
  · left
    apply ScopeTree.isSome_owner?_iff.2
    refine ⟨scope, ?_, ?_⟩
    · rw [hbefore.scoped.ancestors_scope, hlength] at hmem
      rw [ancestors_of_node h hnode, hbrackets, Bracket.scopesAt_append (Nat.le_of_eq hlength.symm)]
      exact hmem
    · obtain ⟨value, hvalue⟩ := Option.isSome_iff_exists.1 hbound
      rw [hresolved.scopes_eq, hkeeps.value hvalue]
      rfl
  · right
    rw [← List.length_map, hlength] at hmem
    have hopen : header ∈ Bracket.openAt linked.program.brackets id := by
      rw [hbrackets, Bracket.openAt_append_of_le (Nat.le_of_eq hlength.symm)]
      exact hmem
    have hlt : header < before.drafts.size := by
      rw [hbefore.size_drafts]
      have hbound := (Bracket.getElem?_of_mem_openAt hmem).1
      rwa [← hlength, List.length_map] at hbound
    have hheader := Array.getElem?_eq_getElem hlt
    rw [Layout.parametersAt_eq hheader] at hparameter
    obtain ⟨action, hfound, hheaderResolution⟩ :=
      hresolved.exists_node header _ (hkeeps.draft hheader)
    obtain ⟨past, signature, hfunction, hsignature⟩ :=
      hheaderResolution.function_of_mem_parameters hparameter
    have hbalanced := balanced_of_link h
    have haround : linked.program.isAround id header = true :=
      (Program.isAround_iff hbalanced).2
        ⟨Program.isFunction_iff.2 ⟨_, past, signature, hfound, hfunction⟩,
          (Bracket.mem_openAt_iff hbalanced).1 hopen⟩
    exact ⟨header, _, past, signature, haround, hfound, hfunction, parameter, hsignature, hname⟩

end LineScript
