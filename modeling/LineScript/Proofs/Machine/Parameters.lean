import LineScript.Proofs.Machine.Writes

/-!
# Parameters of running functions

A statement only runs in the body of a function after the header of the function has bound its
parameters, and nothing unbinds them. This also holds of the functions around that function, since
whoever calls it stands in their bodies too. So what is kept by every step is that the parameters
of all functions around the current statement are bound, and those of all functions around the
calls that are being executed.
-/

namespace LineScript

def Action.parameters : Action → List Parameter
  | function _ signature => signature.parameters
  | _ => []

namespace Machine

/-- The parameters of all functions around a position are bound, as their headers see them. -/
def BindsAround (program : Program) (scopes : ScopeTree) (position : NodeId) : Prop :=
  ∀ header node, program.isAround position header = true → program.node? header = some node →
    ∀ parameter ∈ node.action.parameters, (scopes.owner? node.scope parameter.name).isSome

/-- What every step keeps: parameters are bound around the current statement and all calls. -/
structure BindsParameters (program : Program) (m : Machine) : Prop where
  current : ∀ position, m.current = some position → BindsAround program m.scopes position
  sites : ∀ site ∈ m.calls.sites, BindsAround program m.scopes site

variable {program : Program} {scopes : ScopeTree} {position : NodeId} {m after : Machine}
  {id : NodeId} {node : Node} {flow : Flow}

theorem BindsAround.of_subset (h : BindsAround program scopes position) {other : NodeId}
    (hsubset : ∀ header, program.isAround other header = true →
      program.isAround position header = true) : BindsAround program scopes other :=
  fun header node haround ↦ h header node (hsubset header haround)

theorem BindsAround.mono (h : BindsAround program scopes position) {larger : ScopeTree}
    (hancestors : larger.ancestors = scopes.ancestors)
    (hkeeps : ∀ around name, (scopes.local? around name).isSome →
      (larger.local? around name).isSome) : BindsAround program larger position := by
  intro header node haround hnode parameter hmem
  have howner := h header node haround hnode parameter hmem
  exact ScopeTree.isSome_owner?_mono hancestors (fun around ↦ hkeeps around _) howner

/-- A function that is around the next position is around a position, or its header stands there. -/
theorem eq_or_isAround_of_succ {statements : List Statement} {linked : Linked}
    (hlink : link statements = .ok linked) {header : NodeId}
    (h : linked.program.isAround (position + 1) header = true) :
    header = position ∨ linked.program.isAround position header = true := by
  have hbalanced := balanced_of_link hlink
  obtain ⟨hfunction, close, hpair, hlt, hle⟩ := (Program.isAround_iff hbalanced).1 h
  rcases Nat.lt_or_eq_of_le (Nat.le_of_lt_succ hlt) with hbefore | rfl
  · exact .inr ((Program.isAround_iff hbalanced).2
      ⟨hfunction, close, hpair, hbefore, Nat.le_of_succ_le hle⟩)
  · exact .inl rfl

variable {statements : List Statement} {linked : Linked}

/-- A statement that opens no function may go on with the next. -/
theorem BindsAround.next (hlink : link statements = .ok linked)
    (h : BindsAround linked.program scopes id) (hnode : linked.program.node? id = some node)
    (hopen : ∀ past signature, node.action ≠ .function past signature)
    (hnext : linked.program.next? id = some position) :
    BindsAround linked.program scopes position := by
  unfold Program.next? at hnext
  split at hnext
  · cases hnext
    apply h.of_subset
    intro header haround
    rcases eq_or_isAround_of_succ hlink haround with rfl | hbefore
    · obtain ⟨hfunction, -⟩ := (Program.isAround_iff (balanced_of_link hlink)).1 haround
      obtain ⟨found, past, signature, hfound, haction⟩ := Program.isFunction_iff.1 hfunction
      rw [hnode] at hfound
      cases hfound
      exact absurd haction (hopen past signature)
    · exact hbefore
  · cases hnext

/-- A header may go past its block. -/
theorem BindsAround.past (hlink : link statements = .ok linked)
    (h : BindsAround linked.program scopes id) (hnode : linked.program.node? id = some node)
    {past : Option NodeId} (hpast : node.action.past? = some past)
    (hposition : past = some position) : BindsAround linked.program scopes position := by
  obtain ⟨close, hpair, rfl⟩ := exists_close_of_header hlink hnode hpast
  unfold Program.next? at hposition
  split at hposition
  · cases hposition
    apply h.of_subset
    rw [Program.isAround_after (balanced_of_link hlink) hpair]
    exact fun _ haround ↦ haround
  · cases hposition

/-- The header of a function binds its parameters, and its body begins. -/
theorem BindsAround.enter (hlink : link statements = .ok linked)
    (h : BindsAround linked.program scopes id) (hnode : linked.program.node? id = some node)
    (hbound : ∀ parameter ∈ node.action.parameters,
      (scopes.owner? node.scope parameter.name).isSome)
    (hnext : linked.program.next? id = some position) :
    BindsAround linked.program scopes position := by
  unfold Program.next? at hnext
  split at hnext
  · cases hnext
    intro header found haround hfound
    rcases eq_or_isAround_of_succ hlink haround with rfl | hbefore
    · rw [hnode] at hfound
      cases hfound
      exact hbound
    · exact h header found hbefore hfound
  · cases hnext

/-- The `end` of a loop may go back to its header. -/
theorem BindsAround.again (hlink : link statements = .ok linked)
    (h : BindsAround linked.program scopes id) (hnode : linked.program.node? id = some node)
    {header : NodeId} (haction : node.action = .close (.loop header)) :
    BindsAround linked.program scopes header := by
  have hbalanced := balanced_of_link hlink
  obtain ⟨found, hpair, hblock⟩ := exists_header_of_close hlink hnode haction
  apply h.of_subset
  intro other haround
  obtain ⟨hfunction, close, hother, hlt, hle⟩ := (Program.isAround_iff hbalanced).1 haround
  cases hblock with
  | loop hheader hend =>
    have hsame := hend.action_eq hnode
    rw [haction] at hsame
    cases hsame
    have hheaderLt := hpair.lt
    have hnested := hother.nested_or_disjoint hpair hlt
    exact (Program.isAround_iff hbalanced).2 ⟨hfunction, close, hother, by omega, by omega⟩
  | branch _ hend | function _ hend =>
    have hsame := hend.action_eq hnode
    rw [haction] at hsame
    cases hsame

/-- What is bound at the header of a function after a call has staged values for it. -/
theorem isSome_owner?_of_entering {values : List (String × Value)}
    (hentering : Entering program m values) (hcurrent : m.current = some id)
    (hnode : program.node? id = some node) (hscope : node.scope < m.scopes.count)
    {parameter : Parameter} (hmem : parameter ∈ node.action.parameters) :
    ((m.scopes.setAll node.scope values).owner? node.scope parameter.name).isSome := by
  obtain ⟨-, -, header, found, _, _, -, -, hheader, hfound, hfunction, hvalues, -⟩ := hentering
  rw [hcurrent] at hheader
  cases hheader
  rw [hnode] at hfound
  cases hfound
  rw [hfunction, Action.parameters, ← hvalues] at hmem
  obtain ⟨⟨name, value⟩, hentry, rfl⟩ := List.mem_map.1 hmem
  exact ScopeTree.isSome_owner?_setAll hscope hentry

/-- The position that a statement leads to has its parameters bound. -/
theorem BindsParameters.current_of_advance (hlink : link statements = .ok linked)
    (h : BindsParameters linked.program m) (hinv : InChain linked.program m)
    (hancestors : m.scopes.ancestors = linked.scopes.ancestors) (hcurrent : m.current = some id)
    (hnode : linked.program.node? id = some node)
    (hadvance : Advance linked.program m id node after flow)
    (hmono : ∀ position, BindsAround linked.program m.scopes position →
      BindsAround linked.program after.scopes position)
    (hfollow : follow linked.program id flow = some position) :
    BindsAround linked.program after.scopes position := by
  have hhere := h.current id hcurrent
  cases hadvance with
  | declare haction | output haction | leave haction | input haction _ _ _ | assign haction _ _ =>
    exact (hmono id hhere).next hlink hnode (by simp [haction]) hfollow
  | test haction _ =>
    split at hfollow
    · refine hhere.past hlink hnode ?_ hfollow
      rcases haction with haction | haction <;> exact congrArg Action.past? haction
    · refine hhere.next hlink hnode ?_ hfollow
      rcases haction with haction | haction <;> simp [haction]
  | skip haction _ => exact hhere.past hlink hnode (congrArg Action.past? haction) hfollow
  | enter haction hstaged =>
    refine (hmono id hhere).enter hlink hnode ?_ hfollow
    have hscope := mem_ancestors_of_node hlink hnode
    rw [← hancestors] at hscope
    exact fun parameter hmem ↦ isSome_owner?_of_entering (hinv.entering _ hstaged) hcurrent hnode
      (ScopeTree.lt_count_of_mem_ancestors hscope) hmem
  | call haction _ _ =>
    cases hfollow
    exact hhere.of_subset fun header haround ↦ isAround_of_call hlink hnode haction haround
  | again haction =>
    cases hfollow
    exact hhere.again hlink hnode haction
  | «return» haction hpop =>
    have hsites := CallStack.sites_of_pop? hpop
    have hchain := hinv.chain_at hcurrent (hinv.staged_eq_none hcurrent hnode (by simp [haction]))
    rw [hsites] at hchain
    obtain ⟨callee, hcallee, -, -⟩ := hchain
    obtain ⟨caller, function, arguments, hcaller, hcall⟩ := Program.callee?_eq_some_iff.1 hcallee
    have hsite := h.sites _ (by rw [hsites]; exact List.mem_cons_self)
    exact hsite.next hlink hcaller (by simp [hcall]) hfollow

/-- The calls after a statement are calls before it, or the current one. -/
theorem Advance.mem_sites (h : Advance program m id node after flow) {site : NodeId}
    (hmem : site ∈ after.calls.sites) : site = id ∨ site ∈ m.calls.sites := by
  cases h with
  | call _ _ hcalls =>
    rw [CallStack.sites_of_push hcalls] at hmem
    exact List.mem_cons.1 hmem
  | «return» _ hpop =>
    rw [CallStack.sites_of_pop? hpop]
    exact .inr (List.mem_cons_of_mem _ hmem)
  | declare | output | leave | input | assign | test | skip | enter | again => exact .inr hmem

theorem BindsParameters.of_step (hlink : link statements = .ok linked)
    (h : BindsParameters linked.program m) (hinv : InChain linked.program m)
    (hancestors : m.scopes.ancestors = linked.scopes.ancestors) (elapsed : Nat) :
    BindsParameters linked.program (m.step linked.program elapsed).1 := by
  have hmono : ∀ position, BindsAround linked.program m.scopes position →
      BindsAround linked.program (m.step linked.program elapsed).1.scopes position :=
    fun position hbinds ↦ hbinds.mono (ancestors_of_step linked.program m elapsed)
      fun around name ↦ isSome_local?_of_step
  rcases step_cases linked.program m elapsed with
    ⟨id, node, advanced, flow, hcurrent, hnode, hadvance, hafter⟩ |
    ⟨-, hcurrent, hcalls, -, -⟩
  · rw [hafter] at hmono ⊢
    refine ⟨fun position hposition ↦ ?_, fun site hsite ↦ ?_⟩
    · have hbinds :=
        h.current_of_advance hlink hinv hancestors hcurrent hnode hadvance hmono hposition
      exact hbinds
    · rcases hadvance.mem_sites hsite with rfl | hbefore
      · exact hmono site (h.current site hcurrent)
      · exact hmono site (h.sites site hbefore)
  · refine ⟨fun position hposition ↦ ?_, fun site hsite ↦ ?_⟩
    · rw [hcurrent] at hposition
      exact hmono position (h.current position hposition)
    · rw [hcalls] at hsite
      exact hmono site (h.sites site hsite)

theorem bindsParameters_start (hlink : link statements = .ok linked) (options : MachineOptions)
    (input : Input) (output : Output) :
    BindsParameters linked.program (start linked options input output) where
  current := by
    intro position hposition header node haround
    change linked.program.entry? = some position at hposition
    unfold Program.entry? at hposition
    split at hposition
    · cases hposition
      obtain ⟨-, close, -, hlt, -⟩ :=
        (Program.isAround_iff (balanced_of_link hlink)).1 haround
      exact absurd hlt (Nat.not_lt_zero header)
    · cases hposition
  sites := fun site hsite ↦ absurd hsite (by simp [start, CallStack.empty])

/-- In all machines that a program comes to, the parameters of the functions around the current
statement are bound. -/
theorem Visits.bindsParameters (hlink : link statements = .ok linked) {options : MachineOptions}
    {input : Input} {output : Output} {visited : List Machine}
    (h : Visits linked.program (start linked options input output) visited m) :
    BindsParameters linked.program m := by
  induction h with
  | refl => exact bindsParameters_start hlink options input output
  | step elapsed hbefore ih =>
    have hinv := hbefore.inChain hlink (inChain_start hlink linked.scopes options input output)
    exact ih.of_step hlink hinv hbefore.ancestors_eq elapsed

end Machine

end LineScript
