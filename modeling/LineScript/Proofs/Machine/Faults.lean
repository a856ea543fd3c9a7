import LineScript.Proofs.Machine.Parameters
import LineScript.Proofs.Operand.Classify
import LineScript.Proofs.Program.Targets

/-!
# Faults that linking rules out

Much of what a running statement checks was checked when the program was linked, though by other
means: linking looks an assigned name up among declarations and parameters, and the machine among
the variables that are bound by then. In a run from the start the two agree, so an assignment finds
its target, and a call its function with the parameters that its arguments are for. A formula can
still turn out to be none in one case: the target of an assignment was a text when its line was
linked, and is a number when it runs.
-/

namespace LineScript

variable {statements : List Statement} {lines : List (List Word)} {linked : Linked} {id : NodeId}
  {node : Node}

/-- The operands of a statement are words of a line. -/
theorem exists_line_of_node (hlink : linkLines lines = .ok linked)
    (hnode : linked.program.node? id = some node) :
    ∃ keyword operands, keyword :: operands ∈ lines ∧
      node.operands = Operand.classify (operands.map fun word ↦ word.text) := by
  have hid := Program.lt_size_of_node? hnode
  rw [size_of_link hlink] at hid
  have hstatement := List.getElem?_eq_getElem hid
  obtain ⟨line, hline, hwords⟩ := List.mem_filterMap.1 (List.mem_of_getElem? hstatement)
  obtain ⟨found, hfound, -, hoperands, -⟩ := node_of_statement hlink hstatement
  rw [hnode] at hfound
  cases hfound
  cases line with
  | nil => cases hwords
  | cons keyword operands =>
    refine ⟨keyword, operands, hline, ?_⟩
    rw [hoperands, ← Option.some.inj hwords]

/-- Where no word is blank, the value of an assignment is no empty formula. -/
theorem compile_ne_empty_of_assign (hlink : linkLines lines = .ok linked)
    (hwords : ∀ line ∈ lines, ∀ word ∈ line, ¬ IsBlankText word.text)
    (hnode : linked.program.node? id = some node) {target : String} {formula : Option Formula}
    (haction : node.action = .assign target formula) :
    Formula.compile (node.operands.drop 1) ≠ .error .empty := by
  obtain ⟨value, hoperands, hvalue, -⟩ := operands_of_assign hlink hnode haction
  obtain ⟨keyword, operands, hline, hclassify⟩ := exists_line_of_node hlink hnode
  obtain ⟨first, hfirst⟩ := List.exists_mem_of_ne_nil value hvalue
  have htexts : ∀ text ∈ operands.map fun word ↦ word.text, ¬ IsBlankText text := by
    intro text htext
    obtain ⟨word, hmem, rfl⟩ := List.mem_map.1 htext
    exact hwords _ hline word (List.mem_cons_of_mem _ hmem)
  have hblank : ¬ IsBlankText first.raw := by
    apply Operand.not_isBlankText_raw htexts
    rw [← hclassify, hoperands]
    exact List.mem_cons_of_mem _ hfirst
  rw [hoperands]
  exact Formula.compile_ne_empty hfirst hblank

namespace Machine

variable {program : Program} {m : Machine} {failed : Machine} {fault : RuntimeFault}

/-- The current statement fails with a fault. -/
def Raises (program : Program) (m : Machine) (fault : RuntimeFault) : Prop :=
  ∃ elapsed failed failure, m.step program elapsed = (failed, .error failure) ∧
    failure.fault = fault

theorem refusal_of_raises (h : m.Raises program fault) :
    ∃ id node failed, m.current = some id ∧ program.node? id = some node ∧
      Refusal m id node failed fault := by
  obtain ⟨elapsed, failed, failure, hstep, hfault⟩ := h
  obtain ⟨id, node, fault, hcurrent, hnode, hrefusal, rfl⟩ := refusal_of_step hstep
  cases hfault
  exact ⟨id, node, failed, hcurrent, hnode, hrefusal⟩

/-- What is raised at a node is a refusal of its statement. -/
theorem exists_refusal_of_raises (hcurrent : m.current = some id)
    (hnode : program.node? id = some node) (h : m.Raises program fault) :
    ∃ failed, Refusal m id node failed fault := by
  obtain ⟨found, other, failed, hfound, hother, hrefusal⟩ := refusal_of_raises h
  rw [hcurrent] at hfound
  cases hfound
  rw [hnode] at hother
  cases hother
  exact ⟨failed, hrefusal⟩

theorem fault_of_arguments {function : String} {scopes : ScopeTree} {scope : ScopeId}
    {arguments : List Argument}
    (h : arguments.mapM (argumentValue function scopes scope) = .error fault) :
    ∃ argument ∈ arguments, fault = .undeclared argument.operand.raw ∨
      fault = .argumentKind function argument.parameter.name argument.parameter.kind := by
  obtain ⟨argument, hmem, hargument⟩ := Chain.exists_error_of_mapM h
  refine ⟨argument, hmem, ?_⟩
  unfold argumentValue at hargument
  split at hargument
  · cases hargument
    exact .inl rfl
  · split at hargument
    · cases hargument
    · cases hargument
      exact .inr rfl

/-- A call fails for the sake of an argument, or of the limit on calls. -/
theorem Refusal.fault_of_call (h : Refusal m id node failed fault) {callee : NodeId}
    {function : String} {arguments : List Argument}
    (haction : node.action = .call callee function arguments) :
    (∃ argument ∈ arguments, fault = .undeclared argument.operand.raw ∨
        fault = .argumentKind function argument.parameter.name argument.parameter.kind) ∨
      ∃ limit, fault = .recursionLimit limit := by
  cases h with
  | argument hcall hfault =>
    rw [haction] at hcall
    cases hcall
    exact .inl (fault_of_arguments hfault)
  | recursion => exact .inr ⟨_, rfl⟩
  | condition hother =>
    rw [haction] at hother
    rcases hother with hother | hother <;> cases hother
  | inputForm hother | inputTarget hother | inputClosed hother | inputGarbled hother
  | noActiveCall hother | target hother | formula hother =>
    rw [haction] at hother
    cases hother

/-- An assignment that does not know a variable does not find its target. -/
theorem Refusal.get?_of_undeclared {name : String} (h : Refusal m id node failed (.undeclared name))
    {target : String} {formula : Option Formula} (haction : node.action = .assign target formula) :
    m.scopes.get? node.scope target = none := by
  cases h with
  | target hassign hnone =>
    rw [haction] at hassign
    cases hassign
    exact hnone
  | inputTarget hother | argument hother =>
    rw [haction] at hother
    cases hother

/-- A compiled formula is neither empty nor invalid. -/
theorem exists_failed_of_eval {formula : Formula} {scopes : ScopeTree} {scope : ScopeId}
    {error : FormulaError} (h : formula.eval scopes scope = .error error) :
    ∃ reason, error = .failed formula.text reason := by
  unfold Formula.eval at h
  split at h
  · cases h
    exact ⟨_, rfl⟩
  · rename_i outcome _
    cases houtcome : Formula.asNumber outcome with
    | ok value =>
      rw [houtcome] at h
      cases h
    | error reason =>
      rw [houtcome] at h
      cases h
      exact ⟨reason, rfl⟩

/-- Only a formula that is compiled when its statement runs can be empty or invalid. -/
theorem Refusal.compile_of_formula {error : FormulaError}
    (h : Refusal m id node failed (.formula error)) :
    (∃ text reason, error = .failed text reason) ∨
      ∃ target value, node.action = .assign target none ∧
        m.scopes.get? node.scope target = some (.number value) ∧
        Formula.compile (node.operands.drop 1) = .error error := by
  cases h with
  | condition _ heval =>
    obtain ⟨reason, rfl⟩ := exists_failed_of_eval heval
    exact .inl ⟨_, _, rfl⟩
  | argument _ hfault =>
    obtain ⟨_, -, hfault | hfault⟩ := fault_of_arguments hfault
    · cases hfault
    · cases hfault
  | @formula target formula old _ haction hold hvalue =>
    unfold assignedValue at hvalue
    split at hvalue
    · rename_i compiled _
      cases heval : compiled.eval m.scopes node.scope with
      | ok value =>
        rw [heval] at hvalue
        cases hvalue
      | error found =>
        rw [heval] at hvalue
        cases hvalue
        obtain ⟨reason, rfl⟩ := exists_failed_of_eval heval
        exact .inl ⟨_, _, rfl⟩
    · rename_i hkind
      rcases Chain.bind_eq_error_iff.1 hvalue with hcompile | ⟨compiled, -, hrest⟩
      · cases old with
        | number value => exact .inr ⟨target, value, haction, hold, hcompile⟩
        | text => cases hkind
      · rcases Chain.bind_eq_error_iff.1 hrest with heval | ⟨value, -, hresult⟩
        · obtain ⟨reason, rfl⟩ := exists_failed_of_eval heval
          exact .inl ⟨_, _, rfl⟩
        · cases hresult
    · cases hvalue

variable {options : MachineOptions} {input : Input} {output : Output} {visited : List Machine}

/-- The target of an assignment is bound when the assignment runs. -/
theorem Visits.isSome_get?_target (hlink : link statements = .ok linked)
    (hvisits : Visits linked.program (start linked options input output) visited m)
    (hcurrent : m.current = some id) (hnode : linked.program.node? id = some node)
    {target : String} {formula : Option Formula} (haction : node.action = .assign target formula) :
    (m.scopes.get? node.scope target).isSome := by
  have hancestors : m.scopes.ancestors = linked.scopes.ancestors := hvisits.ancestors_eq
  have howner : (m.scopes.owner? node.scope target).isSome := by
    rcases target_of_assign hlink hnode haction with
      hdeclared | ⟨header, opener, past, signature, haround, hopener, hfunction, parameter, hmem,
        rfl⟩
    · exact ScopeTree.isSome_owner?_mono hancestors (fun around ↦ hvisits.isSome_local?) hdeclared
    · have hbound := (hvisits.bindsParameters hlink).current id hcurrent header opener haround
        hopener parameter (by rw [hfunction]; exact hmem)
      obtain ⟨-, close, hpair, hlt, hle⟩ :=
        (Program.isAround_iff (balanced_of_link hlink)).1 haround
      have hscope := scope_of_pair hlink hnode hpair hlt hle hopener
      rw [← hancestors] at hscope
      exact ((nested_of_link hlink).of_ancestors_eq hancestors).isSome_owner? hscope hbound
  obtain ⟨owner, howner⟩ := Option.isSome_iff_exists.1 howner
  rw [ScopeTree.get?_of_owner? howner]
  exact (ScopeTree.owner?_eq_some_iff.1 howner).1

/--
In a run from the start of a program whose words are not blank, an assignment finds its target, and
a call a function with its name and the parameters that its arguments are for; a call fails for the
sake of an argument or of the limit on calls. No formula is found empty, and one is found invalid
only where an assignment was linked without a formula and its target is a number when it runs.
-/
theorem faults_of_linkLines (hlink : linkLines lines = .ok linked)
    (hwords : ∀ line ∈ lines, ∀ word ∈ line, ¬ IsBlankText word.text)
    (hvisits : Visits linked.program (start linked options input output) visited m) :
    (∀ id node, m.current = some id → linked.program.node? id = some node →
      (∀ target formula, node.action = .assign target formula →
        (m.scopes.get? node.scope target).isSome ∧
          ∀ name, ¬ m.Raises linked.program (.undeclared name)) ∧
      ∀ callee function arguments, node.action = .call callee function arguments →
        (∃ header past signature, linked.program.node? callee = some header ∧
          header.action = .function past signature ∧ signature.name = function ∧
          arguments.map Argument.parameter = signature.parameters) ∧
        ∀ fault, m.Raises linked.program fault →
          (∃ argument ∈ arguments, fault = .undeclared argument.operand.raw ∨
            fault = .argumentKind function argument.parameter.name argument.parameter.kind) ∨
          ∃ limit, fault = .recursionLimit limit) ∧
    ¬ m.Raises linked.program (.formula .empty) ∧
    ∀ text reason, m.Raises linked.program (.formula (.invalid text reason)) →
      ∃ id node target value, m.current = some id ∧ linked.program.node? id = some node ∧
        node.action = .assign target none ∧
        m.scopes.get? node.scope target = some (.number value) := by
  refine ⟨fun id node hcurrent hnode ↦ ⟨?_, ?_⟩, ?_, ?_⟩
  · intro target formula haction
    have hbound := hvisits.isSome_get?_target hlink hcurrent hnode haction
    refine ⟨hbound, fun name hraises ↦ ?_⟩
    obtain ⟨failed, hrefusal⟩ := exists_refusal_of_raises hcurrent hnode hraises
    rw [hrefusal.get?_of_undeclared haction] at hbound
    cases hbound
  · intro callee function arguments haction
    constructor
    · obtain ⟨-, header, past, signature, operands, hheader, hfunction, hname, hlength, harguments⟩ :=
        exists_header_of_call hlink hnode haction
      refine ⟨header, past, signature, hheader, hfunction, hname.symm, ?_⟩
      rw [harguments, map_parameter_zipWith hlength]
    · intro fault hraises
      obtain ⟨failed, hrefusal⟩ := exists_refusal_of_raises hcurrent hnode hraises
      exact hrefusal.fault_of_call haction
  · intro hraises
    obtain ⟨id, node, failed, -, hnode, hrefusal⟩ := refusal_of_raises hraises
    rcases hrefusal.compile_of_formula with ⟨_, _, hfailed⟩ | ⟨target, _, haction, -, hcompile⟩
    · cases hfailed
    · exact compile_ne_empty_of_assign hlink hwords hnode haction hcompile
  · intro text reason hraises
    obtain ⟨id, node, failed, hcurrent, hnode, hrefusal⟩ := refusal_of_raises hraises
    rcases hrefusal.compile_of_formula with ⟨_, _, hfailed⟩ | ⟨target, value, haction, hget, -⟩
    · cases hfailed
    · exact ⟨id, node, target, value, hcurrent, hnode, haction, hget⟩

/-- A text that a function takes for a number, before a line that is a text but no formula. -/
def mistaken : List (List Word) :=
  [["string", "s"], ["function", "f", "number", "s"], ["s", "=", "2"], ["end"], ["call", "f", "1"],
    ["s", "=", "1", "+"]].zipIdx.map
    fun (words, line) ↦ words.map fun text ↦ ⟨text, "mistaken", line + 1⟩

theorem faults_mistaken : ∃ linked visited m reason, linkLines mistaken = .ok linked ∧
    (∀ line ∈ mistaken, ∀ word ∈ line, ¬ IsBlankText word.text) ∧
    Visits linked.program (start linked ⟨none, false⟩ ⟨[]⟩ .fresh) visited m ∧
    m.Raises linked.program (.formula (.invalid "1 +" reason)) ∧
    ¬ m.Raises linked.program (.formula .empty) ∧
    ∃ id node target value, m.current = some id ∧ linked.program.node? id = some node ∧
      node.action = .assign target none ∧
      m.scopes.get? node.scope target = some (.number value) := by
  have hwords : ∀ line ∈ mistaken, ∀ word ∈ line, ¬ IsBlankText word.text := by decide +kernel
  have hrun : ((linkLines mistaken).toOption.map fun linked ↦
      let m := (runFor linked.program 6 (start linked ⟨none, false⟩ ⟨[]⟩ .fresh)).1
      match (m.step linked.program 0).2 with
      | .error ⟨_, .formula (.invalid text _), _⟩ => some text
      | _ => none) = some (some "1 +") := by
    decide +kernel
  obtain ⟨linked, hlinked, hfacts⟩ := Chain.exists_of_map_toOption hrun
  dsimp only at hfacts
  split at hfacts
  · rename_i location text reason calls hstep
    cases hfacts
    have hvisits := visits_of_runFor linked.program 6 (start linked ⟨none, false⟩ ⟨[]⟩ .fresh)
    have hraises : Raises linked.program
        (runFor linked.program 6 (start linked ⟨none, false⟩ ⟨[]⟩ .fresh)).1
        (.formula (.invalid "1 +" reason)) := ⟨0, _, _, Prod.ext rfl hstep, rfl⟩
    obtain ⟨-, hempty, hinvalid⟩ := faults_of_linkLines hlinked hwords hvisits
    exact ⟨linked, _, _, reason, hlinked, hwords, hvisits, hraises, hempty,
      hinvalid _ reason hraises⟩
  · cases hfacts

end Machine

end LineScript
