import LineScript.Proofs.Machine.Lockstep
import LineScript.Proofs.Machine.Parameters
import LineScript.Proofs.Program.Signatures
import Mathlib.Data.List.Nodup

/-!
# Entering a function

A call and the header that it goes to bind the parameters together: the arguments are evaluated
before any parameter is set, and no two parameters have the same name, so each parameter gets the
value of its argument, whatever variables the arguments mention and wherever the parameters are
set. A parameter is set in the scope that the header sees it in. The body sees it there too, unless
the scope of the body has a variable of that name itself, and it has one only if a statement
directly in the body declares it.
-/

namespace LineScript

namespace ScopeTree

variable {tree : ScopeTree} {id inner : ScopeId} {name : String} {value : Value}
  {values : List (String × Value)}

theorem lookup_reverse_of_mem (hnodup : (values.map Prod.fst).Nodup) (hmem : (name, value) ∈ values) :
    values.reverse.lookup name = some value := by
  cases hlookup : values.reverse.lookup name with
  | none =>
    rw [List.lookup_eq_none_iff] at hlookup
    exact absurd (hlookup _ (List.mem_reverse.2 hmem)) (by simp)
  | some found =>
    have hsame := List.inj_on_of_nodup_map hnodup (Machine.mem_of_lookup_reverse hlookup) hmem rfl
    rw [(Prod.mk.inj hsame).2]

/-- Where variables of different names are set, each has its value. -/
theorem get?_setAll_of_mem (hid : id < tree.count) (hnodup : (values.map Prod.fst).Nodup)
    (hmem : (name, value) ∈ values) : (tree.setAll id values).get? id name = some value := by
  have hlocal : (tree.setAll id values).local? (tree.holder id name) name = some value := by
    rw [local?_setAll, if_pos ⟨rfl, holder_lt_count hid⟩, lookup_reverse_of_mem hnodup hmem,
      Option.some_or]
  have howner : (tree.setAll id values).owner? id name = some (tree.holder id name) :=
    owner?_of_holder holder_setAll (by rw [hlocal]; rfl)
  rw [get?_of_owner? howner, hlocal]

/-- A scope sees what it binds, and otherwise what the scope around it sees. -/
theorem get?_of_ancestors_cons (hancestors : tree.ancestors inner = inner :: tree.ancestors id) :
    tree.get? inner name = (tree.local? inner name).or (tree.get? id name) := by
  unfold get?
  rw [hancestors, List.findSome?_cons]
  cases tree.local? inner name <;> rfl

end ScopeTree

namespace Machine

variable {program : Program} {m between after : Machine} {id : NodeId} {node : Node} {flow : Flow}

theorem Advance.call_cases (h : Advance program m id node after flow) {callee : NodeId}
    {function : String} {arguments : List Argument}
    (haction : node.action = .call callee function arguments) :
    ∃ values calls, arguments.mapM (argumentValue function m.scopes node.scope) = .ok values ∧
      m.calls.push id = .ok calls ∧ after = { m with calls, staged := some values } ∧
      flow = .jump callee := by
  cases h with
  | call hcall hvalues hcalls =>
    rw [haction] at hcall
    cases hcall
    exact ⟨_, _, hvalues, hcalls, rfl, rfl⟩
  | declare hother | output hother | leave hother | input hother | assign hother | skip hother
  | enter hother | again hother | «return» hother =>
    rw [haction] at hother
    cases hother
  | test hother =>
    rw [haction] at hother
    rcases hother with hother | hother <;> cases hother

theorem Advance.enter_cases (h : Advance program m id node after flow) {past : Option NodeId}
    {signature : Signature} (haction : node.action = .function past signature)
    {values : List (String × Value)} (hstaged : m.staged = some values) :
    after = { m with staged := none, scopes := m.scopes.setAll node.scope values } ∧
      flow = .next := by
  cases h with
  | enter _ hvalues =>
    rw [hstaged] at hvalues
    cases hvalues
    exact ⟨rfl, rfl⟩
  | skip _ hnone =>
    rw [hstaged] at hnone
    cases hnone
  | call hother | declare hother | output hother | leave hother | input hother | assign hother
  | again hother | «return» hother =>
    rw [haction] at hother
    cases hother
  | test hother =>
    rw [haction] at hother
    rcases hother with hother | hother <;> cases hother

/-- A step at a statement is an advance of that statement. -/
theorem advance_of_node {elapsed : Nat} {more : Bool} (hcurrent : m.current = some id)
    (hnode : program.node? id = some node) (hstep : m.step program elapsed = (after, .ok more)) :
    ∃ advanced flow, Advance program m id node advanced flow ∧
      after = arrive program elapsed id node advanced flow := by
  rcases advance_of_step hstep with
    ⟨-, -, hmissing⟩ | ⟨found, foundNode, advanced, flow, hposition, hfound, hadvance, hafter, -⟩
  · rw [hcurrent, Option.bind_some, hnode] at hmissing
    cases hmissing
  · rw [hcurrent] at hposition
    cases hposition
    rw [hnode] at hfound
    cases hfound
    exact ⟨advanced, flow, hadvance, hafter⟩

/-- The value that is staged for a parameter is that of its argument. -/
theorem exists_value_of_arguments {function : String} {scopes : ScopeTree} {scope : ScopeId}
    {parameters : List Parameter} {operands : List Operand} {values : List (String × Value)}
    (h : (List.zipWith Argument.mk parameters operands).mapM (argumentValue function scopes scope) =
      .ok values) {index : Nat} {parameter : Parameter} {operand : Operand}
    (hparameter : parameters[index]? = some parameter) (hoperand : operands[index]? = some operand) :
    ∃ raw value, operand.value? scopes scope = some raw ∧
      parameter.kind.coerce? raw = some value ∧ (parameter.name, value) ∈ values := by
  have hargument : (List.zipWith Argument.mk parameters operands)[index]? =
      some ⟨parameter, operand⟩ := by
    rw [List.getElem?_zipWith, hparameter, hoperand]
  obtain ⟨hlt, hat⟩ := List.getElem?_eq_some_iff.1 hargument
  have hall := Chain.forall₂_of_mapM h
  have hlength := hall.length_eq
  have hvalue := hall.get hlt (hlength ▸ hlt)
  rw [List.get_eq_getElem, hat] at hvalue
  unfold argumentValue at hvalue
  split at hvalue
  · cases hvalue
  · rename_i raw hraw
    split at hvalue
    · rename_i value hcoerce
      refine ⟨raw, value, hraw, hcoerce, ?_⟩
      rw [Except.ok.inj hvalue]
      exact List.getElem_mem _
    · cases hvalue

variable {statements : List Statement} {linked : Linked}

/-- Directly in the body of a function, the scopes around are those around the body. -/
theorem isAround_of_scope_eq (hlink : link statements = .ok linked)
    (hnode : linked.program.node? id = some node) {past : Option NodeId} {signature : Signature}
    (haction : node.action = .function past signature) {inside : Nat} {inner : Node}
    (hinner : linked.program.node? inside = some inner) (hscope : inner.scope = signature.bodyScope) :
    linked.program.isAround inside id = true := by
  have hopens : linked.program.brackets[id]? = some .opens := by
    rw [bracket_of_node hnode, haction]
    rfl
  have hmem := mem_ancestors_of_node hlink hinner
  rw [ancestors_of_node hlink hinner, hscope, bodyScope_of_node hlink hnode haction] at hmem
  have hbalanced := balanced_of_link hlink
  exact (Program.isAround_iff hbalanced).2
    ⟨Program.isFunction_iff.2 ⟨node, past, signature, hnode, haction⟩,
      (Bracket.blockScope_mem_scopesAt_iff hbalanced hopens).1 hmem⟩

/-- A step binds no parameter of a function anew in the body of the function: the only statement
there that could is the header of a function, and by then the parameter is bound outside. -/
theorem BindsParameters.local?_of_step (hlink : link statements = .ok linked)
    (hbinds : BindsParameters linked.program m)
    (hancestors : m.scopes.ancestors = linked.scopes.ancestors)
    (hnode : linked.program.node? id = some node) {past : Option NodeId} {signature : Signature}
    (haction : node.action = .function past signature) {parameter : Parameter}
    (hmem : parameter ∈ signature.parameters) {elapsed : Nat}
    (hbound : ((m.step linked.program elapsed).1.scopes.local? signature.bodyScope
      parameter.name).isSome) :
    (m.scopes.local? signature.bodyScope parameter.name).isSome := by
  rcases scopes_of_step linked.program m elapsed with
    ⟨hscopes, -⟩ | ⟨inside, inner, values, hcurrent, hinner, hwrites, hscopes⟩
  · rwa [hscopes] at hbound
  · rw [hscopes] at hbound
    rcases ScopeTree.local?_setAll_cases hbound with hbefore | ⟨hvalues, hunbound, hscope⟩
    · exact hbefore
    · exfalso
      -- The parameter is bound around the statement, since that stands in the body.
      have haround := isAround_of_scope_eq hlink hnode haction hinner hscope.symm
      have hsignature : parameter ∈ node.action.parameters := by
        rw [haction]
        exact hmem
      have howner := hbinds.current inside hcurrent id node haround hnode parameter hsignature
      have hnested := (nested_of_link hlink).of_ancestors_eq hancestors
      have hheader : node.scope ∈ m.scopes.ancestors inner.scope := by
        rw [hancestors, ← hscope, ancestors_bodyScope hlink hnode haction]
        exact List.mem_cons_of_mem _ (mem_ancestors_of_node hlink hnode)
      have hseen := hnested.isSome_owner? hheader howner
      rw [hunbound] at hseen
      cases hseen

/-- The body of a function has a variable with the name of a parameter only if it declares one. -/
theorem Visits.local?_bodyScope_iff (hlink : link statements = .ok linked)
    {options : MachineOptions} {input : Input} {output : Output} {visited : List Machine}
    (h : Visits linked.program (start linked options input output) visited m)
    (hnode : linked.program.node? id = some node) {past : Option NodeId} {signature : Signature}
    (haction : node.action = .function past signature) {parameter : Parameter}
    (hmem : parameter ∈ signature.parameters) :
    (m.scopes.local? signature.bodyScope parameter.name).isSome ↔
      ∃ kind, linked.program.Declares signature.bodyScope parameter.name kind := by
  constructor
  · intro hbound
    induction h with
    | refl =>
      obtain ⟨value, hvalue⟩ := Option.isSome_iff_exists.1 hbound
      obtain ⟨kind, hdeclares, -⟩ := declares_of_local? hlink hvalue
      exact ⟨kind, hdeclares⟩
    | step elapsed hbefore ih =>
      exact ih ((hbefore.bindsParameters hlink).local?_of_step hlink hbefore.ancestors_eq hnode
        haction hmem hbound)
  · rintro ⟨kind, hdeclares⟩
    apply h.isSome_local?
    change (linked.scopes.local? _ _).isSome
    rw [local?_of_declares hlink hdeclares]
    rfl

/-! ## Calls and headers -/

/--
What a call and the header that it goes to come to. Each parameter has the value of its argument, as
the call evaluated it, brought to the kind of the parameter; so it is seen from the header, and from
the body too, unless the body has a variable of that name. Nothing else is set.
-/
structure Entered (program : Program) (m after : Machine) (site callee : NodeId) (scope : ScopeId)
    (operands : List Operand) (header : Node) (signature : Signature) : Prop where
  bound : ∀ (index : Nat) (parameter : Parameter) (operand : Operand),
    signature.parameters[index]? = some parameter → operands[index]? = some operand →
    ∃ raw value, operand.value? m.scopes scope = some raw ∧
      parameter.kind.coerce? raw = some value ∧
      after.scopes.get? header.scope parameter.name = some value ∧
      after.scopes.get? signature.bodyScope parameter.name =
        (m.scopes.local? signature.bodyScope parameter.name).or (some value)
  unchanged : ∀ scope name,
    (∀ parameter ∈ signature.parameters, parameter.name = name →
      scope ≠ m.scopes.holder header.scope name) →
    after.scopes.local? scope name = m.scopes.local? scope name
  calls_eq : after.calls = { m.calls with sites := site :: m.calls.sites }
  staged_eq : after.staged = none
  current_eq : after.current = program.next? callee

/-- Setting the staged values at the header binds the parameters. -/
theorem entered_of_setAll (hlink : link statements = .ok linked)
    (hancestors : m.scopes.ancestors = linked.scopes.ancestors) {callee : NodeId} {header : Node}
    (hheader : linked.program.node? callee = some header) {past : Option NodeId}
    {signature : Signature} (hfunction : header.action = .function past signature)
    {function : String} {scope : ScopeId} {operands : List Operand}
    {values : List (String × Value)}
    (hvalues : (List.zipWith Argument.mk signature.parameters operands).mapM
      (argumentValue function m.scopes scope) = .ok values)
    (hlength : signature.parameters.length = operands.length)
    (hscopes : after.scopes = m.scopes.setAll header.scope values) {site : NodeId}
    (hcalls : after.calls = { m.calls with sites := site :: m.calls.sites })
    (hstaged : after.staged = none) (hcurrent : after.current = linked.program.next? callee) :
    Entered linked.program m after site callee scope operands header signature := by
  have hnames : values.map Prod.fst = signature.parameters.map Parameter.name := by
    have hparameters := parameters_of_arguments hvalues
    rw [map_parameter_zipWith hlength] at hparameters
    rw [← hparameters, List.map_map]
    rfl
  have hnodup : (values.map Prod.fst).Nodup := by
    rw [hnames]
    exact nodup_parameters hlink hheader hfunction
  have hbody := ancestors_bodyScope hlink hheader hfunction
  rw [← hancestors] at hbody
  have hself := mem_ancestors_of_node hlink hheader
  rw [← hancestors] at hself
  have hid := ScopeTree.lt_count_of_mem_ancestors hself
  -- No parameter is set in the scope of the body, which is not around the header.
  have hinside : ∀ name, m.scopes.holder header.scope name ≠ signature.bodyScope := by
    intro name hsame
    have hmem : m.scopes.holder header.scope name ∈ m.scopes.ancestors header.scope :=
      ScopeTree.holder_mem_ancestors hid
    rw [hsame, hancestors, ancestors_of_node hlink hheader,
      bodyScope_of_node hlink hheader hfunction] at hmem
    have hopens : linked.program.brackets[callee]? = some .opens := by
      rw [bracket_of_node hheader, hfunction]
      rfl
    obtain ⟨close, -, hlt, -⟩ :=
      (Bracket.blockScope_mem_scopesAt_iff (balanced_of_link hlink) hopens).1 hmem
    exact Nat.lt_irrefl _ hlt
  refine ⟨?_, ?_, hcalls, hstaged, hcurrent⟩
  · intro index parameter operand hparameter hoperand
    obtain ⟨raw, value, hraw, hcoerce, hmem⟩ :=
      exists_value_of_arguments hvalues hparameter hoperand
    have hget : after.scopes.get? header.scope parameter.name = some value := by
      rw [hscopes]
      exact ScopeTree.get?_setAll_of_mem hid hnodup hmem
    refine ⟨raw, value, hraw, hcoerce, hget, ?_⟩
    have haround : after.scopes.ancestors signature.bodyScope =
        signature.bodyScope :: after.scopes.ancestors header.scope := by
      rw [hscopes, ScopeTree.ancestors_setAll, hbody]
    rw [ScopeTree.get?_of_ancestors_cons haround, hget, hscopes, ScopeTree.local?_setAll,
      if_neg fun hholder ↦ hinside _ hholder.1]
  · intro other name hother
    rw [hscopes, ScopeTree.local?_setAll]
    split
    · rename_i hholder
      cases hlookup : values.reverse.lookup name with
      | none => rw [Option.none_or]
      | some value =>
        have hmem := List.mem_map_of_mem (f := Prod.fst) (mem_of_lookup_reverse hlookup)
        rw [hnames] at hmem
        obtain ⟨parameter, hparameter, hname⟩ := List.mem_map.1 hmem
        exact absurd hholder.1.symm (hother parameter hparameter hname)
    · rfl

/--
Where a call and then the header that it goes to run without failing, each parameter of the function
has the value of its argument, evaluated where the call stands and before anything is set, and
brought to the kind of the parameter. The header sees it, and the body sees it unless it has a
variable of that name; in a machine that the program comes to, the body has one only if a statement
directly in it declares one. Nothing else is set; the calls are one more, which is this one, nothing
is staged, and the body comes next.
-/
theorem entry_of_linkLines {lines : List (List Word)} (hlink : linkLines lines = .ok linked)
    (hancestors : m.scopes.ancestors = linked.scopes.ancestors) {site : NodeId}
    (hcurrent : m.current = some site) (hnode : linked.program.node? site = some node)
    {callee : NodeId} {function : String} {arguments : List Argument}
    (haction : node.action = .call callee function arguments) {elapsed elapsed' : Nat}
    {more more' : Bool} (hcall : m.step linked.program elapsed = (between, .ok more))
    (henter : between.step linked.program elapsed' = (after, .ok more')) :
    ∃ name operands header past signature, node.operands = name :: operands ∧
      linked.program.node? callee = some header ∧ header.action = .function past signature ∧
      signature.name = name.raw ∧ signature.parameters.length = operands.length ∧
      Entered linked.program m after site callee node.scope operands header signature ∧
      ∀ options input output visited,
        Visits linked.program (start linked options input output) visited m →
        ∀ parameter ∈ signature.parameters,
          ((m.scopes.local? signature.bodyScope parameter.name).isSome ↔
            ∃ kind, linked.program.Declares signature.bodyScope parameter.name kind) := by
  obtain ⟨name, operands, header, past, signature, hoperands, hheader, hfunction, -, hname, hlength,
    rfl⟩ := operands_of_call hlink hnode haction
  obtain ⟨called, flow, hadvance, rfl⟩ := advance_of_node hcurrent hnode hcall
  obtain ⟨values, calls, hvalues, hpush, rfl, rfl⟩ := hadvance.call_cases haction
  obtain ⟨entered, flow, hadvance, rfl⟩ := advance_of_node rfl hheader henter
  obtain ⟨rfl, rfl⟩ := hadvance.enter_cases hfunction rfl
  have hlimit : calls.limit = m.calls.limit := CallStack.limit_of_push hpush
  have hcalls : calls = { m.calls with sites := site :: m.calls.sites } :=
    CallStack.eq_of_sites_eq (CallStack.sites_of_push hpush) hlimit
  refine ⟨name, operands, header, past, signature, hoperands, hheader, hfunction, hname, hlength,
    entered_of_setAll hlink hancestors hheader hfunction hvalues hlength rfl hcalls rfl rfl, ?_⟩
  intro options input output visited hvisits parameter hmem
  exact hvisits.local?_bodyScope_iff hlink hheader hfunction hmem

/-- A function that calls itself with its parameters in the other order, of which one has the name
of a variable outside. -/
def swapped : List (List Word) :=
  [["string", "a"], ["function", "f", "string", "a", "string", "b"], ["call", "f", "b", "a"],
    ["end"], ["call", "f", "\"x\"", "\"y\""]].zipIdx.map
    fun (words, line) ↦ words.map fun text ↦ ⟨text, "swapped", line + 1⟩

theorem entry_swapped : ∃ linked between after header, linkLines swapped = .ok linked ∧
    let m := (start linked ⟨none, false⟩ ⟨[]⟩ .fresh).stepped linked.program (fun _ ↦ 0) 4
    (m.scopes.get? 1 "a" = some (.text "x") ∧ m.scopes.get? 1 "b" = some (.text "y")) ∧
      (∃ more more', m.step linked.program 0 = (between, .ok more) ∧
        between.step linked.program 0 = (after, .ok more')) ∧
      linked.program.node? 1 = some header ∧
      after.scopes.get? header.scope "a" = some (.text "y") ∧
      after.scopes.get? header.scope "b" = some (.text "x") ∧
      after.calls.sites = 2 :: m.calls.sites := by
  have hprogram : ((linkLines swapped).toOption.map fun linked ↦
      (linked.program.callee? 2, (linked.program.node? 1).map fun node ↦ node.action.parameters,
        (linked.program.node? 2).map fun node ↦ (node.operands.tail, node.scope))) =
      some (some 1, some [⟨"a", .text⟩, ⟨"b", .text⟩],
        some ([.name "b", .name "a"], 1)) := by
    decide +kernel
  have hstate : ((linkLines swapped).toOption.map fun linked ↦
      let m := (start linked ⟨none, false⟩ ⟨[]⟩ .fresh).stepped linked.program (fun _ ↦ 0) 4
      (m.current, m.scopes.get? 1 "a", m.scopes.get? 1 "b",
        (m.step linked.program 0).2.toOption.isSome,
        ((m.step linked.program 0).1.step linked.program 0).2.toOption.isSome)) =
      some (some 2, some (.text "x"), some (.text "y"), true, true) := by
    decide +kernel
  obtain ⟨linked, hlinked, hprogram⟩ := Chain.exists_of_map_toOption hprogram
  rw [hlinked, Except.toOption, Option.map_some] at hstate
  obtain ⟨visited, hvisits⟩ := visits_stepped linked.program (fun _ ↦ 0)
    (start linked ⟨none, false⟩ ⟨[]⟩ .fresh) 4
  simp only [Option.some.injEq, Prod.mk.injEq, Option.map_eq_some_iff] at hprogram hstate
  obtain ⟨hcallee, ⟨header, hheader, hparameters⟩, site, hsite, hoperands, hscope⟩ := hprogram
  obtain ⟨hcurrent, ha, hb, hcall, henter⟩ := hstate
  obtain ⟨caller, function, arguments, hcaller, haction⟩ :=
    Program.callee?_eq_some_iff.1 hcallee
  rw [hsite] at hcaller
  cases hcaller
  generalize hm : (start linked ⟨none, false⟩ ⟨[]⟩ .fresh).stepped linked.program (fun _ ↦ 0) 4 =
    m at hvisits hcurrent ha hb hcall henter
  rcases hfirst : m.step linked.program 0 with ⟨between, failure | more⟩
  · rw [hfirst] at hcall
    cases hcall
  rw [hfirst] at henter
  rcases hsecond : between.step linked.program 0 with ⟨after, failure | more'⟩
  · rw [hsecond] at henter
    cases henter
  obtain ⟨name, operands, found, past, signature, hsplit, hfound, hfunction, -, -, hentered, -⟩ :=
    entry_of_linkLines hlinked hvisits.ancestors_eq hcurrent hsite haction hfirst hsecond
  rw [hheader] at hfound
  cases hfound
  rw [hfunction, Action.parameters] at hparameters
  rw [hsplit, List.tail_cons] at hoperands
  subst hoperands
  have hbound : ∀ (index : Nat) (parameter argument text : String),
      signature.parameters[index]? = some ⟨parameter, .text⟩ →
      [Operand.name "b", .name "a"][index]? = some (.name argument) →
      m.scopes.get? 1 argument = some (.text text) →
      after.scopes.get? header.scope parameter = some (.text text) := by
    intro index parameter argument text hparameter hargument hvalue
    obtain ⟨raw, value, hraw, hcoerce, hget, -⟩ :=
      hentered.bound index ⟨parameter, .text⟩ (.name argument) hparameter hargument
    rw [hscope, Operand.value?, hvalue] at hraw
    cases hraw
    cases hcoerce
    exact hget
  rw [hparameters] at hbound
  subst hm
  refine ⟨linked, between, after, header, hlinked, ⟨ha, hb⟩, ⟨more, more', hfirst, hsecond⟩,
    hheader, hbound 0 "a" "b" "y" rfl rfl hb, hbound 1 "b" "a" "x" rfl rfl ha, ?_⟩
  rw [hentered.calls_eq]

end Machine

end LineScript
