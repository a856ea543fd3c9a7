import LineScript.Proofs.Machine.Writes

/-!
# Kinds of declared variables

A declared variable is bound throughout a run. Assignments and `in` give it values of the kind that
it has, so it keeps the kind it was declared with, with one exception: the header of a function
overwrites a variable that has the name of a parameter, and the kind of the parameter need not be
that of the variable. After such a call the variable has the kind of the parameter.
-/

namespace LineScript

/-- The header of a function that has a parameter, whose name means a variable of a scope there. -/
def Linked.Overwrites (linked : Linked) (header : NodeId) (scope : ScopeId)
    (parameter : Parameter) : Prop :=
  ∃ node past signature, linked.program.node? header = some node ∧
    node.action = .function past signature ∧ parameter ∈ signature.parameters ∧
    linked.scopes.owner? node.scope parameter.name = some scope

namespace Machine

open Program (stagedParameter)

variable {m after : Machine} {node : Node} {values : List (String × Value)} {scope : ScopeId}
  {name : String} {value : Value}

/-- What a statement makes of a variable: it keeps its kind, or a parameter overwrites it. -/
theorem Writes.exists_local? (h : Writes m node values) {old : Value}
    (hold : m.scopes.local? scope name = some old) :
    ∃ value, (m.scopes.setAll node.scope values).local? scope name = some value ∧
      (value.kind = old.kind ∨
        (∃ past signature, node.action = .function past signature) ∧ m.staged = some values ∧
          (name, value) ∈ values ∧ m.scopes.owner? node.scope name = some scope) := by
  have hbound : (m.scopes.local? scope name).isSome := by
    rw [hold]
    rfl
  rw [ScopeTree.local?_setAll, hold]
  split
  · rename_i hholder
    have howner := ScopeTree.owner?_of_holder hholder.1 hbound
    cases hlookup : values.reverse.lookup name with
    | none => exact ⟨old, rfl, .inl rfl⟩
    | some value =>
      refine ⟨value, rfl, ?_⟩
      have hmem := mem_of_lookup_reverse hlookup
      cases h with
      | nothing => cases hmem
      | target _ hget hkind =>
        cases List.mem_singleton.1 hmem
        rw [ScopeTree.get?_of_owner? howner, hold] at hget
        cases hget
        exact .inl hkind
      | parameters haction hstaged => exact .inr ⟨⟨_, _, haction⟩, hstaged, hmem, howner⟩
  · exact ⟨old, rfl, .inl rfl⟩

variable {linked : Linked}

/--
A declared variable is bound in every machine that a program comes to, and has the kind it was
declared with, unless it has the kind of a parameter by which the header of a function that was
called overwrote it.
-/
theorem kind_of_declares {lines : List (List Word)} (hlink : linkLines lines = .ok linked)
    {options : MachineOptions} {input : Input} {output : Output} {visited : List Machine}
    (hvisits : Visits linked.program (start linked options input output) visited m) {kind : Kind}
    (hdeclares : linked.program.Declares scope name kind) :
    ∃ value, m.scopes.local? scope name = some value ∧
      (value.kind = kind ∨ ∃ before ∈ visited, ∃ header, before.current = some header ∧
        before.staged.isSome ∧ linked.Overwrites header scope ⟨name, value.kind⟩) := by
  have hdeclared := local?_of_declares hlink hdeclares
  induction hvisits with
  | refl => exact ⟨_, hdeclared, .inl kind.kind_zero⟩
  | @step visited before elapsed hbefore ih =>
    obtain ⟨old, hold, hkind⟩ := ih
    have hearlier : ∀ {other : Value}, other.kind = old.kind →
        other.kind = kind ∨ ∃ earlier ∈ visited ++ [before], ∃ header,
          earlier.current = some header ∧ earlier.staged.isSome ∧
            linked.Overwrites header scope ⟨name, other.kind⟩ := by
      intro other hsame
      rw [hsame]
      exact hkind.imp_right fun ⟨earlier, hmem, hheader⟩ ↦
        ⟨earlier, List.mem_append_left _ hmem, hheader⟩
    rcases scopes_of_step linked.program before elapsed with
      ⟨hscopes, -⟩ | ⟨id, node, values, hcurrent, hnode, hwrites, hscopes⟩
    · rw [hscopes]
      exact ⟨old, hold, hearlier rfl⟩
    · rw [hscopes]
      obtain ⟨value, hvalue, hsame | ⟨-, hstaged, hmem, howner⟩⟩ := hwrites.exists_local? hold
      · exact ⟨value, hvalue, hearlier hsame⟩
      · refine ⟨value, hvalue, .inr ⟨before, by simp, id, hcurrent, ?_, ?_⟩⟩
        · rw [hstaged]
          rfl
        -- What is staged has the kinds of the parameters, and names mean at the header what they
        -- meant when the program was linked.
        have hinv := hbefore.inChain hlink
          (inChain_start hlink linked.scopes options input output)
        obtain ⟨-, -, header, found, past, signature, -, -, hheader, hfound, haction, hvalues, -⟩ :=
          hinv.entering values hstaged
        rw [hcurrent] at hheader
        cases hheader
        rw [hnode] at hfound
        cases hfound
        have hparameter : (⟨name, value.kind⟩ : Parameter) ∈ signature.parameters := by
          rw [← hvalues]
          exact List.mem_map_of_mem (f := stagedParameter) hmem
        refine ⟨node, past, signature, hnode, haction, hparameter, ?_⟩
        refine ScopeTree.owner?_of_owner? hbefore.ancestors_eq ?_ howner ?_
        · exact fun around hbound ↦ hbefore.isSome_local? hbound
        · rw [hdeclared]
          rfl

/-- A number that has the name of a parameter for texts. -/
def retyping : List (List Word) :=
  [["number", "x"], ["function", "f", "string", "x"], ["end"], ["call", "f", "\"a\""],
    ["x", "=", "1", "+", "1"], ["out", "x"]].zipIdx.map
    fun (words, line) ↦ words.map fun text ↦ ⟨text, "retyping", line + 1⟩

theorem exists_run_retyping : ∃ linked visited m, linkLines retyping = .ok linked ∧
    linked.program.Declares rootScope "x" .number ∧
    Visits linked.program (start linked ⟨none, false⟩ ⟨[]⟩ .fresh) visited m ∧
    m.scopes.local? rootScope "x" = some (.text "a") := by
  have hrun : ((linkLines retyping).toOption.map fun linked ↦
      ((linked.program.node? 0).map fun node ↦ (node.declared?, node.scope),
        (runFor linked.program 4 (start linked ⟨none, false⟩ ⟨[]⟩ .fresh)).1.scopes.local?
          rootScope "x")) =
      some (some (some ("x", .number), rootScope), some (.text "a")) := by
    decide +kernel
  obtain ⟨linked, hlinked, hfacts⟩ := Chain.exists_of_map_toOption hrun
  obtain ⟨hnode, hlocal⟩ := Prod.mk.inj hfacts
  obtain ⟨node, hfound, hdeclared⟩ := Option.map_eq_some_iff.1 hnode
  obtain ⟨hname, hscope⟩ := Prod.mk.inj hdeclared
  exact ⟨linked, _, _, hlinked, ⟨0, node, hfound, hname, hscope⟩,
    visits_of_runFor linked.program 4 _, hlocal⟩

/-- A number that a call turns into a text. -/
theorem number_becomes_text : ∃ linked visited m value, linkLines retyping = .ok linked ∧
    linked.program.Declares rootScope "x" .number ∧
    Visits linked.program (start linked ⟨none, false⟩ ⟨[]⟩ .fresh) visited m ∧
    m.scopes.local? rootScope "x" = some value ∧ value.kind ≠ .number := by
  obtain ⟨linked, visited, m, hlinked, hdeclares, hvisits, hlocal⟩ := exists_run_retyping
  exact ⟨linked, visited, m, _, hlinked, hdeclares, hvisits, hlocal, by decide⟩

theorem overwrites_retyping : ∃ linked visited m, linkLines retyping = .ok linked ∧
    linked.program.Declares rootScope "x" .number ∧
    Visits linked.program (start linked ⟨none, false⟩ ⟨[]⟩ .fresh) visited m ∧
    ∃ before ∈ visited, ∃ header, before.current = some header ∧ before.staged.isSome ∧
      linked.Overwrites header rootScope ⟨"x", .text⟩ := by
  obtain ⟨linked, visited, m, hlinked, hdeclares, hvisits, hlocal⟩ := exists_run_retyping
  refine ⟨linked, visited, m, hlinked, hdeclares, hvisits, ?_⟩
  obtain ⟨value, hvalue, hkind⟩ := kind_of_declares hlinked hvisits hdeclares
  rw [hlocal] at hvalue
  cases hvalue
  rcases hkind with hsame | hover
  · cases hsame
  · exact hover

end Machine

end LineScript
