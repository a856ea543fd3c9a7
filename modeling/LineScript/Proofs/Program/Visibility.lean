import LineScript.Proofs.Operand.Classify
import LineScript.Proofs.Program.Lexical

/-!
# Assignments and calls by their places

A statement whose keyword is no keyword of the language is an assignment to what the keyword names
at that place, and a `call` goes to the function that its first operand names there. In both cases
the statements before it decide, block by block from the innermost outwards.
-/

namespace LineScript

namespace Layout

variable {layout : Layout} {earlier : List Statement} {keyword name : String}

theorem interpret_of_not_mem_keywords (operands : List Operand) (hkeyword : keyword ∉ keywords) :
    layout.interpret keyword operands =
      match layout.targetKind? keyword with
      | some kind => .ok (layout, .assign kind)
      | none => .error (.unknownStatement keyword) := by
  simp only [keywords, List.mem_cons, List.not_mem_nil, or_false, not_or] at hkeyword
  obtain ⟨hend, hwhile, hif, hnumber, hstring, hfunction, hcall, hout, hin⟩ := hkeyword
  unfold interpret
  split
  · exact absurd rfl hend
  · exact absurd rfl hwhile
  · exact absurd rfl hif
  · exact absurd rfl hnumber
  · exact absurd rfl hstring
  · exact absurd rfl hfunction
  · exact absurd rfl hcall
  · exact absurd rfl hout
  · exact absurd rfl hin
  · rfl

/-- No block declares two functions of one name. -/
theorem Placed.eq_of_functionOf? (h : Placed earlier layout) {id id' : Nat} {s s' : Statement}
    (hstatement : earlier[id]? = some s) (hstatement' : earlier[id']? = some s')
    (hblock : Lexical.blockOf earlier id = Lexical.blockOf earlier id')
    {parameters parameters' : List Parameter} (hfunction : s.functionOf? = some (name, parameters))
    (hfunction' : s'.functionOf? = some (name, parameters')) : id = id' := by
  obtain ⟨draft, _, _, hdraft, -, hplacement, hscope⟩ := h.exists_draft_of_statement hstatement
  obtain ⟨draft', _, _, hdraft', -, hplacement', hscope'⟩ := h.exists_draft_of_statement hstatement'
  obtain ⟨bodyScope, hform⟩ := hplacement.functionOf?_iff.1 hfunction
  obtain ⟨bodyScope', hform'⟩ := hplacement'.functionOf?_iff.1 hfunction'
  have hfound := h.localFunction?_of_function hdraft hform
  have hfound' := h.localFunction?_of_function hdraft' hform'
  rw [hscope, hblock, ← hscope'] at hfound
  exact Option.some.inj (hfound.symm.trans hfound')

theorem Placed.placeCall_of_none (h : Placed earlier layout) {callee : Operand}
    {arguments : List Operand} (hfunction : Lexical.function? earlier callee.raw = none) :
    layout.placeCall (callee :: arguments) = .error (.unknownFunction callee.raw) := by
  have hcallee : layout.callee? callee.raw = none := by
    rw [← h.function?_eq] at hfunction
    rw [callee?, hfunction]
  unfold placeCall
  dsimp only
  rw [hcallee]

/-- The function that a call goes to, by the statement that declares it. -/
theorem Placed.exists_placeCall (h : Placed earlier layout) {callee : Operand}
    (arguments : List Operand) {header : Nat}
    (hfunction : Lexical.function? earlier callee.raw = some header) :
    ∃ s parameters, earlier[header]? = some s ∧
      s.functionOf? = some (callee.raw, parameters) ∧
      layout.placeCall (callee :: arguments) =
        if parameters.length = arguments.length then
          .ok (layout, .call header callee.raw (List.zipWith Argument.mk parameters arguments))
        else .error (.parameterCount callee.raw parameters.length arguments.length) := by
  rw [← h.function?_eq] at hfunction
  obtain ⟨draft, signature, hdraft, hform, hname, hcallee⟩ := h.callee?_eq hfunction
  obtain ⟨s, _, _, hstatement, -, hplacement, -⟩ := h.exists_statement_of_draft hdraft
  refine ⟨s, signature.parameters, hstatement, ?_, ?_⟩
  · rw [← hname]
    exact hplacement.functionOf?_iff.2 ⟨_, hform⟩
  · unfold placeCall
    dsimp only
    rw [hcallee, ← hname]

/-- An assignment to a number has a formula, and one to a text has none. -/
theorem Resolution.exists_formula {id : NodeId} {draft : Draft} {action : Action}
    (h : layout.Resolution id draft action) {kind : Kind} (hform : draft.form = .assign kind) :
    ∃ value formula, draft.operands = .symbol "=" :: value ∧
      action = .assign draft.location.keyword formula ∧
      formula.map Formula.text = if kind = .number then some (Formula.spell value) else none := by
  cases h with
  | @number value formula hnumber hoperands _ hcompile =>
    rw [hform] at hnumber
    cases hnumber
    refine ⟨value, some formula, hoperands, rfl, ?_⟩
    rw [if_pos rfl, Option.map_some, Formula.text_of_compile hcompile]
  | @text value htext hoperands =>
    rw [hform] at htext
    cases htext
    exact ⟨value, none, hoperands, rfl, rfl⟩
  | declare hother | output hother | input hother | loop hother | branch hother | function hother
  | call hother | close hother =>
    rw [hform] at hother
    cases hother

end Layout

section Reached

variable {statements : List Statement} {position : Nat} {layout after : Layout} {s : Statement}
  {form : Form}

/-- Linking stops at a statement that cannot be interpreted. -/
theorem link_eq_of_interpret_error
    (hreached : Layout.ofStatements (statements.take position) = .ok layout)
    (hstatement : statements[position]? = some s) {fault : LinkFault}
    (hinterpret : layout.interpret s.keyword (Operand.classify s.operands) = .error fault) :
    link statements = .error ⟨s.location, fault⟩ := by
  have hplace : layout.place s = .error ⟨s.location, fault⟩ := by
    unfold Layout.place
    dsimp only
    rw [hinterpret]
    rfl
  have hstops : Layout.StopsPlacing statements position ⟨s.location, fault⟩ :=
    ⟨layout, s, hreached, hstatement, hplace⟩
  exact hstops.link_eq

/-- A statement is placed at its position, as what it was interpreted. -/
theorem exists_place_of_interpret
    (hreached : Layout.ofStatements (statements.take position) = .ok layout)
    (hstatement : statements[position]? = some s)
    (hinterpret : layout.interpret s.keyword (Operand.classify s.operands) = .ok (after, form)) :
    ∃ placed, layout.place s = .ok placed ∧ placed.formAt? position = some form := by
  have hsize : layout.drafts.size = position := by
    rw [(Layout.placed_of_ofStatements hreached).size_drafts, List.length_take,
      Nat.min_eq_left (Nat.le_of_lt (List.getElem?_eq_some_iff.1 hstatement).1)]
  refine ⟨_, Layout.place_eq_ok_iff.2 ⟨after, form, hinterpret, rfl⟩, ?_⟩
  rw [Layout.formAt?, ← hsize, Array.getElem?_push_size]
  rfl

/-- In a program that links, the node of a statement resolves what the statement was interpreted as
behind those before it. -/
theorem exists_resolution_of_link {linked : Linked} (hlink : link statements = .ok linked)
    (hreached : Layout.ofStatements (statements.take position) = .ok layout)
    (hstatement : statements[position]? = some s)
    (hinterpret : layout.interpret s.keyword (Operand.classify s.operands) = .ok (after, form)) :
    ∃ (full : Layout) (action : Action),
      linked.program.node? position =
        some ⟨s.location, Operand.classify s.operands, layout.scope, action⟩ ∧
      full.Resolution position
        ⟨s.location, Operand.classify s.operands, layout.scope, form⟩ action := by
  obtain ⟨full, hfull, hresolved⟩ := exists_layout_of_link hlink
  obtain ⟨before, after, form, hbefore, hfound, hdraft⟩ := hfull.exists_interpret hstatement
  rw [hbefore.ofStatements_eq] at hreached
  cases hreached
  rw [hinterpret] at hfound
  cases hfound
  obtain ⟨action, hnode, hresolution⟩ := hresolved.exists_node position _ hdraft
  exact ⟨full, action, hnode, hresolution⟩

end Reached

section AssignmentsAndCalls

variable {lines : List (List Word)} {position : Nat} {layout : Layout} {s : Statement}

/-! ## Assignments -/

/--
A statement that the first pass comes to, and whose keyword is none of the language, is an assignment
if the keyword names a variable or a parameter there, and otherwise it is refused. What it names is
found in the innermost block around it in which an earlier statement declares it, or that is the
body of a function with such a parameter. In a program that links, the assignment has a formula if
the variable or the parameter is a number, and then the formula is what stands behind the `=`.
-/
theorem assignment_of_linkLines
    (hreached : Layout.ofStatements ((statementsOfLines lines).take position) = .ok layout)
    (hstatement : (statementsOfLines lines)[position]? = some s)
    (hkeyword : s.keyword ∉ Layout.keywords) :
    let earlier := (statementsOfLines lines).take position
    (Lexical.kind? earlier s.keyword = none →
      linkLines lines = .error ⟨s.location, .unknownStatement s.keyword⟩) ∧
    ∀ kind, Lexical.kind? earlier s.keyword = some kind →
      (∃ after, layout.place s = .ok after ∧ after.formAt? position = some (.assign kind)) ∧
      ∀ linked, linkLines lines = .ok linked → ∃ node formula words,
        linked.program.node? position = some node ∧ node.action = .assign s.keyword formula ∧
        s.operands = "=" :: words ∧
        formula.map Formula.text = if kind = .number then some (joinWords words) else none := by
  intro earlier
  have hplaced := Layout.placed_of_ofStatements hreached
  have hinterpret := layout.interpret_of_not_mem_keywords (Operand.classify s.operands) hkeyword
  rw [hplaced.targetKind?_eq] at hinterpret
  constructor
  · intro hnone
    rw [hnone] at hinterpret
    exact link_eq_of_interpret_error hreached hstatement hinterpret
  · intro kind hkind
    rw [hkind] at hinterpret
    constructor
    · exact exists_place_of_interpret hreached hstatement hinterpret
    · intro linked hlink
      obtain ⟨full, action, hnode, hresolution⟩ :=
        exists_resolution_of_link hlink hreached hstatement hinterpret
      obtain ⟨value, formula, hoperands, rfl, htext⟩ := hresolution.exists_formula rfl
      obtain ⟨words, hwords, rfl⟩ := Operand.eq_cons_of_classify hoperands
      rw [Formula.spell_classify] at htext
      exact ⟨_, formula, words, hnode, rfl, hwords, htext⟩

/-- A text outside a function whose parameter has the same name and is a number. -/
def hidden : List (List Word) :=
  [["string", "x"], ["function", "f", "number", "x"], ["x", "=", "1", "+", "2"],
    ["end"]].zipIdx.map
    fun (words, line) ↦ words.map fun text ↦ ⟨text, "hidden", line + 1⟩

theorem assignment_hidden : ∃ linked node formula, linkLines hidden = .ok linked ∧
    linked.program.node? 2 = some node ∧ node.action = .assign "x" (some formula) ∧
    formula.text = "1 + 2" := by
  obtain ⟨linked, hlinked⟩ := Chain.exists_eq_ok
    (show (linkLines hidden).toOption.isSome = true by decide +kernel)
  obtain ⟨layout, hreached⟩ := Chain.exists_eq_ok
    (show (Layout.ofStatements ((statementsOfLines hidden).take 2)).toOption.isSome = true by
      decide +kernel)
  have hkind : Lexical.kind? ((statementsOfLines hidden).take 2) "x" = some .number := by
    decide +kernel
  obtain ⟨-, hassigned⟩ := assignment_of_linkLines hreached rfl (by decide)
  obtain ⟨-, hnode⟩ := hassigned .number hkind
  obtain ⟨node, formula, words, hnode, haction, hwords, htext⟩ := hnode linked hlinked
  cases hwords
  rw [if_pos rfl] at htext
  obtain ⟨formula, rfl, hspelled⟩ := Option.map_eq_some_iff.1 htext
  exact ⟨linked, node, formula, hlinked, hnode, haction, hspelled⟩

/-! ## Calls -/

/--
A `call` with a name that the first pass comes to goes to the function that the name means there:
the one that an earlier statement declares in the innermost block around the `call` in which there
is one. Such a block declares only one function of that name, and what is found under the name of a
function is always the header of a function. Without such a function, or with another number of
operands behind the name than the function has parameters, the program is refused. In a program that
links, the `call` has the header of that function, and the operands with the parameters in order.
-/
theorem call_of_linkLines
    (hreached : Layout.ofStatements ((statementsOfLines lines).take position) = .ok layout)
    (hstatement : (statementsOfLines lines)[position]? = some s) (hkeyword : s.keyword = "call")
    {callee : Operand} {arguments : List Operand}
    (hoperands : Operand.classify s.operands = callee :: arguments) :
    let earlier := (statementsOfLines lines).take position
    (∀ (name : String) (id id' : Nat) (f f' : Statement) (declared declared' : List Parameter),
      earlier[id]? = some f → f.functionOf? = some (name, declared) →
      earlier[id']? = some f' → f'.functionOf? = some (name, declared') →
      Lexical.blockOf earlier id = Lexical.blockOf earlier id' → id = id') ∧
    (∀ (name : String) (header : NodeId),
      layout.scopes.function? layout.scope name = some header →
      ∃ signature, layout.formAt? header = some (.function signature)) ∧
    (Lexical.function? earlier callee.raw = none →
      linkLines lines = .error ⟨s.location, .unknownFunction callee.raw⟩) ∧
    ∀ header, Lexical.function? earlier callee.raw = some header →
      ∃ f parameters, earlier[header]? = some f ∧ f.functionOf? = some (callee.raw, parameters) ∧
        (parameters.length ≠ arguments.length → linkLines lines =
          .error ⟨s.location, .parameterCount callee.raw parameters.length arguments.length⟩) ∧
        (parameters.length = arguments.length →
          (∃ after, layout.place s = .ok after ∧ after.formAt? position =
            some (.call header callee.raw (List.zipWith Argument.mk parameters arguments))) ∧
          ∀ linked, linkLines lines = .ok linked → ∃ node,
            linked.program.node? position = some node ∧ node.action =
              .call header callee.raw (List.zipWith Argument.mk parameters arguments)) := by
  intro earlier
  have hplaced := Layout.placed_of_ofStatements hreached
  have hinterpret : layout.interpret s.keyword (Operand.classify s.operands) =
      layout.placeCall (callee :: arguments) := by
    rw [hkeyword, hoperands]
    rfl
  refine ⟨?_, ?_, ?_, ?_⟩
  · intro name id id' f f' declared declared' hf hfunction hf' hfunction' hblock
    exact hplaced.eq_of_functionOf? hf hf' hblock hfunction hfunction'
  · intro name header hfunction
    obtain ⟨draft, signature, hdraft, hform, -⟩ := hplaced.callee?_eq hfunction
    exact ⟨signature, by rw [Layout.formAt?, hdraft, Option.map_some, hform]⟩
  · intro hnone
    exact link_eq_of_interpret_error hreached hstatement
      (hinterpret.trans (hplaced.placeCall_of_none hnone))
  · intro header hfunction
    obtain ⟨f, parameters, hf, hdeclared, hplaceCall⟩ :=
      hplaced.exists_placeCall arguments hfunction
    refine ⟨f, parameters, hf, hdeclared, ?_, ?_⟩
    · intro hlength
      rw [if_neg hlength] at hplaceCall
      exact link_eq_of_interpret_error hreached hstatement (hinterpret.trans hplaceCall)
    · intro hlength
      rw [if_pos hlength] at hplaceCall
      constructor
      · exact exists_place_of_interpret hreached hstatement (hinterpret.trans hplaceCall)
      · intro linked hlink
        obtain ⟨full, action, hnode, hresolution⟩ := exists_resolution_of_link hlink hreached
          hstatement (hinterpret.trans hplaceCall)
        exact ⟨_, hnode, hresolution.action_of_form⟩

/-- A function inside another one of the same name, which calls itself with a text of two words. -/
def shadowing : List (List Word) :=
  [["function", "f"], ["function", "f", "string", "s"], ["call", "f", "\"a", "b\""], ["end"],
    ["end"]].zipIdx.map
    fun (words, line) ↦ words.map fun text ↦ ⟨text, "shadowing", line + 1⟩

theorem call_shadowing : ∃ linked node, linkLines shadowing = .ok linked ∧
    linked.program.node? 2 = some node ∧
    node.action = .call 1 "f" [⟨⟨"s", .text⟩, .text "\"a b\""⟩] := by
  obtain ⟨linked, hlinked⟩ := Chain.exists_eq_ok
    (show (linkLines shadowing).toOption.isSome = true by decide +kernel)
  obtain ⟨layout, hreached⟩ := Chain.exists_eq_ok
    (show (Layout.ofStatements ((statementsOfLines shadowing).take 2)).toOption.isSome = true by
      decide +kernel)
  have hfunction : Lexical.function? ((statementsOfLines shadowing).take 2) "f" = some 1 := by
    decide +kernel
  have hparameters : (((statementsOfLines shadowing).take 2)[1]?.bind Statement.functionOf?) =
      some ("f", [⟨"s", .text⟩]) := by
    decide +kernel
  have hoperands : Operand.classify ["f", "\"a", "b\""] = [.name "f", .text "\"a b\""] := by
    decide +kernel
  obtain ⟨-, -, -, hcalled⟩ := call_of_linkLines hreached rfl rfl hoperands
  obtain ⟨f, parameters, hf, hdeclared, -, hcall⟩ := hcalled 1 hfunction
  rw [hf, Option.bind_some] at hparameters
  cases hdeclared.symm.trans hparameters
  obtain ⟨-, hnode⟩ := hcall rfl
  obtain ⟨node, hnode, haction⟩ := hnode linked hlinked
  exact ⟨linked, node, hlinked, hnode, haction⟩

end AssignmentsAndCalls

end LineScript
