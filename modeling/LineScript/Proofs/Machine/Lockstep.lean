import LineScript.Proofs.Machine.Writes

/-!
# Machines in lockstep

What a statement does is decided by the position, the calls, what is staged, the variables and the
input. Two machines that agree on these still agree after a step, and the step ends alike in both.
How their outputs compare is left open: statements only append to the output, so any relation that
survives the writing of a line will do. Limits may differ too, as long as neither machine refuses a
call that the other one enters.
-/

namespace LineScript

namespace CallStack

theorem push_of_lt {stack : CallStack} (hroom : ∀ limit, stack.limit = some limit →
    stack.depth < limit) (site : NodeId) :
    stack.push site = .ok { stack with sites := site :: stack.sites } := by
  unfold push
  cases hlimit : stack.limit with
  | none => rfl
  | some limit =>
    have hlt := hroom limit hlimit
    rw [Option.filter_some_neg (by simpa using hlt)]

theorem push_of_le {stack : CallStack} {limit : Nat} (hlimit : stack.limit = some limit)
    (hfull : limit ≤ stack.depth) (site : NodeId) : stack.push site = .error ⟨limit⟩ := by
  unfold push
  rw [hlimit, Option.filter_some_pos (by simpa using hfull)]

theorem limit_of_push {stack after : CallStack} {site : NodeId}
    (h : stack.push site = .ok after) : after.limit = stack.limit := by
  unfold push at h
  split at h
  · cases h
  · cases h
    rfl

theorem limit_of_pop? {stack outer : CallStack} {site : NodeId}
    (h : stack.pop? = some (site, outer)) : outer.limit = stack.limit := by
  unfold pop? at h
  split at h
  · cases h
  · cases h
    rfl

theorem eq_of_sites_eq {stack stack' : CallStack} (hsites : stack'.sites = stack.sites)
    (hlimit : stack'.limit = stack.limit) : stack' = stack := by
  cases stack
  cases stack'
  cases hsites
  cases hlimit
  rfl

/-- Two stacks enter calls alike: both do, with the same calls in them after it, or both refuse,
for the same limit. -/
def EntersAlike (stack stack' : CallStack) : Prop :=
  ∀ site, (stack'.push site).map sites = (stack.push site).map sites

end CallStack

namespace Machine

/-- Whether the current statement is a call whose arguments can be bound. -/
def isCalling (program : Program) (m : Machine) : Bool :=
  match m.current.bind program.node? with
  | some ⟨_, _, scope, .call _ function arguments⟩ =>
    (arguments.mapM (argumentValue function m.scopes scope)).isOk
  | _ => false

/-- Outputs that are related stay so when the same line is written to both. -/
def SurvivesWriting (Similar : Output → Output → Prop) : Prop :=
  ∀ output output' line, Similar output output' →
    Similar (output.writeLine line) (output'.writeLine line)

/-- Two machines agree on all that decides what a statement does, and their outputs are related. -/
structure Agree (Similar : Output → Output → Prop) (m m' : Machine) : Prop where
  current : m'.current = m.current
  sites : m'.calls.sites = m.calls.sites
  staged : m'.staged = m.staged
  scopes : m'.scopes = m.scopes
  input : m'.input = m.input
  output : Similar m.output m'.output
  steps : m'.steps = m.steps

end Machine

/-- What came of a statement is the same, up to what machines may differ in that agree. -/
inductive Attempt.Agree (Similar : Output → Output → Prop) : Attempt → Attempt → Prop where
  | done {m m' : Machine} (flow : Flow) : Machine.Agree Similar m m' →
      Attempt.Agree Similar (.done m flow) (.done m' flow)
  | failed {m m' : Machine} (fault : RuntimeFault) : Machine.Agree Similar m m' →
      Attempt.Agree Similar (.failed m fault) (.failed m' fault)

namespace Machine

variable {Similar : Output → Output → Prop} {program : Program} {m m' : Machine}

theorem survivesWriting_eq : SurvivesWriting (· = ·) :=
  fun _ _ line h ↦ congrArg (·.writeLine line) h

theorem agree_refl (m : Machine) : Agree (· = ·) m m :=
  ⟨rfl, rfl, rfl, rfl, rfl, rfl, rfl⟩

theorem Agree.depth (h : Agree Similar m m') : m'.calls.depth = m.calls.depth :=
  congrArg List.length h.sites

theorem Agree.backtrace (h : Agree Similar m m') :
    m'.backtrace program = m.backtrace program := by
  rw [Machine.backtrace, h.sites, Machine.backtrace]

theorem Agree.isCalling (h : Agree Similar m m') :
    m'.isCalling program = m.isCalling program := by
  unfold Machine.isCalling
  rw [h.current, h.scopes]

theorem isCalling_iff {id : NodeId} {node : Node} (hcurrent : m.current = some id)
    (hnode : program.node? id = some node) :
    m.isCalling program = true ↔ ∃ callee function arguments values,
      node.action = .call callee function arguments ∧
      arguments.mapM (argumentValue function m.scopes node.scope) = .ok values := by
  unfold isCalling
  rw [hcurrent, Option.bind_some, hnode]
  obtain ⟨location, operands, scope, action⟩ := node
  cases action with
  | call callee function arguments =>
    cases hvalues : arguments.mapM (argumentValue function m.scopes scope) with
    | error fault => simp [Except.isOk, Except.toBool, hvalues]
    | ok values => simp [Except.isOk, Except.toBool, hvalues]
  | _ => simp

section Statements

variable {node : Node}

theorem Agree.attempt_output
    (hwrite : SurvivesWriting Similar)
    (h : Agree Similar m m') : Attempt.Agree Similar (m.runOutput node) (m'.runOutput node) := by
  unfold runOutput
  rw [h.scopes]
  exact .done _ { h with scopes := rfl, output := hwrite _ _ _ h.output }

/-- Reading a word looks at the output only to append to it. -/
theorem exists_readWord
    (hwrite : SurvivesWriting Similar)
    (kind : Kind) (pieces : List InputPiece) {output output' : Output}
    (h : Similar output output') :
    ∃ word rest written written', readWord kind output pieces = (word, rest, written) ∧
      readWord kind output' pieces = (word, rest, written') ∧ Similar written written' := by
  induction pieces generalizing output output' with
  | nil => exact ⟨_, _, _, _, rfl, rfl, h⟩
  | cons piece pieces ih =>
    cases piece with
    | garbled => exact ⟨_, _, _, _, rfl, rfl, h⟩
    | word word =>
      unfold readWord
      split
      · exact ⟨_, _, _, _, rfl, rfl, h⟩
      · exact ih (hwrite _ _ _ h)

theorem Agree.attempt_input
    (hwrite : SurvivesWriting Similar)
    (h : Agree Similar m m') : Attempt.Agree Similar (m.runInput node) (m'.runInput node) := by
  unfold runInput
  rw [h.scopes]
  split
  · split
    · rename_i operand _ _ old _
      obtain ⟨word, rest, written, written', hread, hread', hsimilar⟩ :=
        exists_readWord hwrite old.kind m.input.pieces h.output
      unfold readInto
      rw [h.input, hread, hread']
      cases word with
      | accepted value =>
        exact .done _ { h with
          input := rfl
          output := hsimilar
          scopes := congrArg (·.set node.scope operand.raw value) h.scopes }
      | closed => exact .failed _ { h with input := rfl, output := hsimilar }
      | garbled => exact .failed _ { h with input := rfl, output := hsimilar }
    · exact .failed _ h
  · exact .failed _ h

theorem Agree.attempt_condition (h : Agree Similar m m') (past : Option NodeId)
    (condition : Formula) :
    Attempt.Agree Similar (m.runCondition node past condition)
      (m'.runCondition node past condition) := by
  unfold runCondition
  rw [h.scopes]
  split
  · exact .failed _ h
  · exact .done _ h

theorem Agree.attempt_assignment (h : Agree Similar m m') (target : String)
    (formula : Option Formula) :
    Attempt.Agree Similar (m.runAssignment node target formula)
      (m'.runAssignment node target formula) := by
  unfold runAssignment
  rw [h.scopes]
  split
  · exact .failed _ h
  · split
    · exact .failed _ h
    · rename_i value _
      exact .done _ { h with scopes := rfl }

theorem Agree.attempt_header (h : Agree Similar m m') (past : Option NodeId) :
    Attempt.Agree Similar (m.runHeader node past) (m'.runHeader node past) := by
  unfold runHeader
  rw [h.staged]
  split
  · exact .done _ h
  · rename_i values _
    exact .done _ { h with
      staged := rfl
      scopes := congrArg (·.setAll node.scope values) h.scopes }

/-- Only a call looks at the limit, and only after its arguments are bound. -/
theorem Agree.attempt_call (h : Agree Similar m m') (id callee : NodeId) (function : String)
    (arguments : List Argument)
    (hpush : ∀ values, arguments.mapM (argumentValue function m.scopes node.scope) = .ok values →
      m.calls.EntersAlike m'.calls) :
    Attempt.Agree Similar (m.runCall id node callee function arguments)
      (m'.runCall id node callee function arguments) := by
  unfold runCall
  rw [h.scopes]
  cases hvalues : arguments.mapM (argumentValue function m.scopes node.scope) with
  | error fault => exact .failed _ h
  | ok values =>
    have halike := hpush values hvalues id
    dsimp only
    cases hcalls : m.calls.push id with
    | error fault =>
      rw [hcalls] at halike
      rw [Chain.map_eq_error_iff.1 halike]
      exact .failed _ h
    | ok calls =>
      rw [hcalls] at halike
      obtain ⟨calls', hcalls', hsites⟩ := Chain.map_eq_ok_iff.1 halike
      rw [hcalls']
      exact .done _ { h with sites := hsites, staged := rfl, scopes := rfl }

theorem Agree.attempt_end (h : Agree Similar m m') (block : BlockKind) :
    Attempt.Agree Similar (m.runEnd program block) (m'.runEnd program block) := by
  unfold runEnd
  cases block with
  | loop header => exact .done _ h
  | branch => exact .done _ h
  | function =>
    unfold CallStack.pop?
    rw [h.sites]
    cases hsites : m.calls.sites with
    | nil => exact .failed _ h
    | cons site outer => exact .done _ { h with sites := rfl }

end Statements

/-- A statement does the same to machines that agree, unless it is a call that only one of them
enters. -/
theorem Agree.attempt
    (hwrite : SurvivesWriting Similar)
    (h : Agree Similar m m') {id : NodeId} {node : Node} (hcurrent : m.current = some id)
    (hnode : program.node? id = some node)
    (hpush : m.isCalling program = true → m.calls.EntersAlike m'.calls) :
    Attempt.Agree Similar (m.attempt program id node) (m'.attempt program id node) := by
  unfold Machine.attempt
  cases haction : node.action with
  | declare kind => exact .done _ h
  | output => exact h.attempt_output hwrite
  | input => exact h.attempt_input hwrite
  | loop past condition => exact h.attempt_condition past condition
  | branch past condition => exact h.attempt_condition past condition
  | function past signature => exact h.attempt_header past
  | call callee function arguments =>
    apply h.attempt_call
    intro values hvalues
    exact hpush ((isCalling_iff hcurrent hnode).2 ⟨_, _, _, _, haction, hvalues⟩)
  | close block => exact h.attempt_end block
  | assign target formula => exact h.attempt_assignment target formula

theorem Agree.arrive {elapsed elapsed' : Nat} {id : NodeId} {node : Node} {flow : Flow}
    (h : Agree Similar m m') :
    Agree Similar (m.arrive program elapsed id node flow)
      (m'.arrive program elapsed' id node flow) :=
  { h with current := rfl, steps := congrArg (· + 1) h.steps }

/-- Machines that agree take a step alike, unless it is a call that only one of them enters. -/
theorem Agree.step (program : Program)
    (hwrite : SurvivesWriting Similar)
    (h : Agree Similar m m')
    (hpush : m.isCalling program = true → m.calls.EntersAlike m'.calls)
    (elapsed elapsed' : Nat) :
    Agree Similar (m.step program elapsed).1 (m'.step program elapsed').1 ∧
      (m'.step program elapsed').2 = (m.step program elapsed).2 := by
  cases hfound : m.current.bind program.node? with
  | none =>
    have hfound' : m'.current.bind program.node? = none := by rwa [h.current]
    rw [step_of_missing hfound, step_of_missing hfound']
    exact ⟨h, rfl⟩
  | some node =>
    obtain ⟨id, hcurrent, hnode⟩ := Option.bind_eq_some_iff.1 hfound
    have hcurrent' : m'.current = some id := h.current.trans hcurrent
    have hattempts := h.attempt hwrite hcurrent hnode hpush
    generalize hattempt : m.attempt program id node = attempted at hattempts
    generalize hattempt' : m'.attempt program id node = attempted' at hattempts
    cases hattempts with
    | done flow hadvanced =>
      rw [step_of_done hcurrent hnode hattempt, step_of_done hcurrent' hnode hattempt']
      exact ⟨hadvanced.arrive, rfl⟩
    | failed fault hfailed =>
      rw [step_of_failed hcurrent hnode hattempt, step_of_failed hcurrent' hnode hattempt',
        hfailed.backtrace]
      exact ⟨hfailed, rfl⟩

/-- No step changes how many calls there may be. -/
theorem limit_of_step (program : Program) (m : Machine) (elapsed : Nat) :
    (m.step program elapsed).1.calls.limit = m.calls.limit := by
  rcases step_cases program m elapsed with
    ⟨id, node, advanced, flow, -, -, hadvance, hafter⟩ | ⟨-, -, hcalls, -, -⟩
  · rw [hafter]
    change advanced.calls.limit = _
    cases hadvance with
    | call _ _ hcalls => exact CallStack.limit_of_push hcalls
    | «return» _ hpop => exact CallStack.limit_of_pop? hpop
    | _ => rfl
  · rw [hcalls]

/-- Machines that agree and have the same calls and limit take every step alike. -/
theorem Agree.step_of_calls_eq (program : Program)
    (hwrite : SurvivesWriting Similar)
    (h : Agree Similar m m') (hcalls : m'.calls = m.calls) (elapsed elapsed' : Nat) :
    Agree Similar (m.step program elapsed).1 (m'.step program elapsed').1 ∧
      (m'.step program elapsed').1.calls = (m.step program elapsed).1.calls ∧
      (m'.step program elapsed').2 = (m.step program elapsed).2 := by
  have halike : m.calls.EntersAlike m'.calls := by
    rw [hcalls]
    exact fun _ ↦ rfl
  obtain ⟨hagree, hresult⟩ := h.step program hwrite (fun _ ↦ halike) elapsed elapsed'
  refine ⟨hagree, CallStack.eq_of_sites_eq hagree.sites ?_, hresult⟩
  rw [limit_of_step, limit_of_step, hcalls]

/-- The machine after a number of steps, where a clock tells how long each of them takes. A step
that fails is taken again. -/
def stepped (program : Program) (clock : Nat → Nat) (m : Machine) : Nat → Machine
  | 0 => m
  | count + 1 => ((m.stepped program clock count).step program (clock count)).1

theorem visits_stepped (program : Program) (clock : Nat → Nat) (m : Machine) (count : Nat) :
    ∃ visited, Visits program m visited (m.stepped program clock count) := by
  induction count with
  | zero => exact ⟨[], .refl⟩
  | succ count ih =>
    obtain ⟨visited, hvisits⟩ := ih
    exact ⟨_, hvisits.step (clock count)⟩

theorem limit_stepped (program : Program) (clock : Nat → Nat) (m : Machine) (count : Nat) :
    (m.stepped program clock count).calls.limit = m.calls.limit := by
  induction count with
  | zero => rfl
  | succ count ih => exact (limit_of_step program _ _).trans ih

/-- Machines that agree and have the same calls and limit agree after any number of steps. -/
theorem Agree.stepped (program : Program)
    (hwrite : SurvivesWriting Similar)
    (h : Agree Similar m m') (hcalls : m'.calls = m.calls) (clock clock' : Nat → Nat)
    (count : Nat) :
    Agree Similar (m.stepped program clock count) (m'.stepped program clock' count) ∧
      (m'.stepped program clock' count).calls = (m.stepped program clock count).calls := by
  induction count with
  | zero => exact ⟨h, hcalls⟩
  | succ count ih =>
    obtain ⟨hagree, hsame⟩ := ih
    obtain ⟨hafter, hcallsAfter, -⟩ :=
      hagree.step_of_calls_eq program hwrite hsame (clock count) (clock' count)
    exact ⟨hafter, hcallsAfter⟩

end Machine

end LineScript
