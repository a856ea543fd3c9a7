import LineScript.Machine.Step
import Mathlib.Tactic.Common

/-!
# What a step can do

`Advance` lists everything that a statement can do to a machine when it does not fail: which fields
change, where it goes next, and what was checked. A step that succeeds is an advance at the current
statement, and a machine reaches another by such steps.
-/

namespace LineScript

namespace CallStack

theorem sites_of_push {stack after : CallStack} {site : NodeId}
    (h : stack.push site = .ok after) : after.sites = site :: stack.sites := by
  unfold push at h
  split at h
  · cases h
  · cases h
    rfl

theorem sites_of_pop? {stack outer : CallStack} {site : NodeId}
    (h : stack.pop? = some (site, outer)) : stack.sites = site :: outer.sites := by
  unfold pop? at h
  split at h
  · cases h
  · rename_i hsites
    cases h
    exact hsites

theorem sites_of_pop?_eq_none {stack : CallStack} (h : stack.pop? = none) :
    stack.sites = [] := by
  unfold pop? at h
  split at h
  · assumption
  · cases h

theorem pop?_of_push {stack after : CallStack} {site : NodeId}
    (h : stack.push site = .ok after) : after.pop? = some (site, stack) := by
  unfold push at h
  split at h
  · cases h
  · cases h
    rfl

end CallStack

namespace Machine

/-- The effects of the statement at a position, and where it goes. -/
inductive Advance (program : Program) (m : Machine) (id : NodeId) (node : Node) :
    Machine → Flow → Prop where
  | declare {kind : Kind} : node.action = .declare kind → Advance program m id node m .next
  | output : node.action = .output →
      Advance program m id node
        { m with
          output := m.output.writeLine
            (outputLine (·.display m.scopes node.scope) node.operands) } .next
  | input {operand : Operand} {old value : Value} {pieces : List InputPiece} {output : Output} :
      node.action = .input → node.operands = [operand] →
      m.scopes.get? node.scope operand.raw = some old →
      readWord old.kind m.output m.input.pieces = (.accepted value, pieces, output) →
      Advance program m id node
        { m with
          input := ⟨pieces⟩
          output := output
          scopes := m.scopes.set node.scope operand.raw value } .next
  | test {past : Option NodeId} {condition : Formula} {value : Float} :
      node.action = .loop past condition ∨ node.action = .branch past condition →
      condition.eval m.scopes node.scope = .ok value →
      Advance program m id node m (if value == 0 then .jump past else .next)
  | skip {past : Option NodeId} {signature : Signature} :
      node.action = .function past signature → m.staged = none →
      Advance program m id node m (.jump past)
  | enter {past : Option NodeId} {signature : Signature} {values : List (String × Value)} :
      node.action = .function past signature → m.staged = some values →
      Advance program m id node
        { m with staged := none, scopes := m.scopes.setAll node.scope values } .next
  | call {callee : NodeId} {function : String} {arguments : List Argument}
      {values : List (String × Value)} {calls : CallStack} :
      node.action = .call callee function arguments →
      arguments.mapM (argumentValue function m.scopes node.scope) = .ok values →
      m.calls.push id = .ok calls →
      Advance program m id node { m with calls, staged := some values } (.jump callee)
  | again {header : NodeId} :
      node.action = .close (.loop header) → Advance program m id node m (.jump header)
  | leave : node.action = .close .branch → Advance program m id node m .next
  | return {site : NodeId} {calls : CallStack} :
      node.action = .close .function → m.calls.pop? = some (site, calls) →
      Advance program m id node { m with calls } (.jump (program.next? site))
  | assign {target : String} {formula : Option Formula} {old value : Value} :
      node.action = .assign target formula → m.scopes.get? node.scope target = some old →
      assignedValue node formula old.kind m.scopes = .ok value →
      Advance program m id node { m with scopes := m.scopes.set node.scope target value } .next

variable {program : Program} {m after : Machine} {id : NodeId} {node : Node} {flow : Flow}

theorem advance_of_runInput (haction : node.action = .input)
    (h : m.runInput node = .done after flow) : Advance program m id node after flow := by
  unfold runInput at h
  split at h
  · rename_i operand hoperands
    split at h
    · rename_i old hold
      unfold readInto at h
      rcases hread : readWord old.kind m.output m.input.pieces with ⟨word, pieces, output⟩
      rw [hread] at h
      dsimp only at h
      cases word with
      | accepted value =>
        cases h
        exact .input haction hoperands hold hread
      | closed => cases h
      | garbled => cases h
    · cases h
  · cases h

theorem advance_of_runCondition {past : Option NodeId} {condition : Formula}
    (haction : node.action = .loop past condition ∨ node.action = .branch past condition)
    (h : m.runCondition node past condition = .done after flow) :
    Advance program m id node after flow := by
  unfold runCondition at h
  split at h
  · cases h
  · rename_i value hvalue
    cases h
    exact .test haction hvalue

theorem advance_of_runHeader {past : Option NodeId} {signature : Signature}
    (haction : node.action = .function past signature)
    (h : m.runHeader node past = .done after flow) : Advance program m id node after flow := by
  unfold runHeader at h
  split at h
  · rename_i hstaged
    cases h
    exact .skip haction hstaged
  · rename_i values hstaged
    cases h
    exact .enter haction hstaged

theorem advance_of_runCall {callee : NodeId} {function : String} {arguments : List Argument}
    (haction : node.action = .call callee function arguments)
    (h : m.runCall id node callee function arguments = .done after flow) :
    Advance program m id node after flow := by
  unfold runCall at h
  split at h
  · cases h
  · rename_i values hvalues
    split at h
    · cases h
    · rename_i calls hcalls
      cases h
      exact .call haction hvalues hcalls

theorem advance_of_runEnd {block : BlockKind} (haction : node.action = .close block)
    (h : m.runEnd program block = .done after flow) : Advance program m id node after flow := by
  unfold runEnd at h
  split at h
  · cases h
    exact .again haction
  · cases h
    exact .leave haction
  · split at h
    · cases h
    · rename_i site calls hpop
      cases h
      exact .return haction hpop

theorem advance_of_runAssignment {target : String} {formula : Option Formula}
    (haction : node.action = .assign target formula)
    (h : m.runAssignment node target formula = .done after flow) :
    Advance program m id node after flow := by
  unfold runAssignment at h
  split at h
  · cases h
  · rename_i old hold
    split at h
    · cases h
    · rename_i value hvalue
      cases h
      exact .assign haction hold hvalue

/-- A statement that does not fail advances the machine in one of these ways. -/
theorem advance_of_attempt (h : m.attempt program id node = .done after flow) :
    Advance program m id node after flow := by
  unfold attempt at h
  split at h
  · rename_i haction
    cases h
    exact .declare haction
  · rename_i haction
    cases h
    exact .output haction
  · rename_i haction
    exact advance_of_runInput haction h
  · rename_i haction
    exact advance_of_runCondition (.inl haction) h
  · rename_i haction
    exact advance_of_runCondition (.inr haction) h
  · rename_i haction
    exact advance_of_runHeader haction h
  · rename_i haction
    exact advance_of_runCall haction h
  · rename_i haction
    exact advance_of_runEnd haction h
  · rename_i haction
    exact advance_of_runAssignment haction h

/-! ## Failing statements -/

/-- The ways in which the statement at a position fails, and what is left of the machine. -/
inductive Refusal (m : Machine) (id : NodeId) (node : Node) : Machine → RuntimeFault → Prop where
  | inputForm : node.action = .input → (∀ operand, node.operands ≠ [operand]) →
      Refusal m id node m (.inputForm node.operands.length)
  | inputTarget {operand : Operand} : node.action = .input → node.operands = [operand] →
      m.scopes.get? node.scope operand.raw = none →
      Refusal m id node m (.undeclared operand.raw)
  | inputClosed {operand : Operand} {old : Value} {pieces : List InputPiece} {output : Output} :
      node.action = .input → node.operands = [operand] →
      m.scopes.get? node.scope operand.raw = some old →
      readWord old.kind m.output m.input.pieces = (.closed, pieces, output) →
      Refusal m id node { m with input := ⟨pieces⟩, output := output } (.inputClosed operand.raw)
  | inputGarbled {operand : Operand} {old : Value} {pieces : List InputPiece} {output : Output} :
      node.action = .input → node.operands = [operand] →
      m.scopes.get? node.scope operand.raw = some old →
      readWord old.kind m.output m.input.pieces = (.garbled, pieces, output) →
      Refusal m id node { m with input := ⟨pieces⟩, output := output } .garbledInput
  | condition {past : Option NodeId} {condition : Formula} {error : FormulaError} :
      node.action = .loop past condition ∨ node.action = .branch past condition →
      condition.eval m.scopes node.scope = .error error →
      Refusal m id node m (.formula error)
  | argument {callee : NodeId} {function : String} {arguments : List Argument}
      {fault : RuntimeFault} : node.action = .call callee function arguments →
      arguments.mapM (argumentValue function m.scopes node.scope) = .error fault →
      Refusal m id node m fault
  | recursion {callee : NodeId} {function : String} {arguments : List Argument}
      {values : List (String × Value)} {fault : RecursionLimit} :
      node.action = .call callee function arguments →
      arguments.mapM (argumentValue function m.scopes node.scope) = .ok values →
      m.calls.push id = .error fault →
      Refusal m id node m (.recursionLimit fault)
  | noActiveCall : node.action = .close .function → m.calls.pop? = none →
      Refusal m id node m .noActiveCall
  | target {target : String} {formula : Option Formula} : node.action = .assign target formula →
      m.scopes.get? node.scope target = none → Refusal m id node m (.undeclared target)
  | formula {target : String} {formula : Option Formula} {old : Value} {error : FormulaError} :
      node.action = .assign target formula → m.scopes.get? node.scope target = some old →
      assignedValue node formula old.kind m.scopes = .error error →
      Refusal m id node m (.formula error)

variable {failed : Machine} {fault : RuntimeFault}

theorem refusal_of_runInput (haction : node.action = .input)
    (h : m.runInput node = .failed failed fault) : Refusal m id node failed fault := by
  unfold runInput at h
  split at h
  · rename_i operand hoperands
    split at h
    · rename_i old hold
      unfold readInto at h
      rcases hread : readWord old.kind m.output m.input.pieces with ⟨word, pieces, output⟩
      rw [hread] at h
      dsimp only at h
      cases word with
      | accepted value => cases h
      | closed =>
        cases h
        exact .inputClosed haction hoperands hold hread
      | garbled =>
        cases h
        exact .inputGarbled haction hoperands hold hread
    · rename_i hnone
      cases h
      exact .inputTarget haction hoperands hnone
  · rename_i hoperands
    cases h
    exact .inputForm haction hoperands

theorem refusal_of_runCondition {past : Option NodeId} {condition : Formula}
    (haction : node.action = .loop past condition ∨ node.action = .branch past condition)
    (h : m.runCondition node past condition = .failed failed fault) :
    Refusal m id node failed fault := by
  unfold runCondition at h
  split at h
  · rename_i error herror
    cases h
    exact .condition haction herror
  · cases h

theorem refusal_of_runCall {callee : NodeId} {function : String} {arguments : List Argument}
    (haction : node.action = .call callee function arguments)
    (h : m.runCall id node callee function arguments = .failed failed fault) :
    Refusal m id node failed fault := by
  unfold runCall at h
  split at h
  · rename_i found hfound
    cases h
    exact .argument haction hfound
  · rename_i values hvalues
    split at h
    · rename_i limit hlimit
      cases h
      exact .recursion haction hvalues hlimit
    · cases h

theorem refusal_of_runEnd {block : BlockKind} (haction : node.action = .close block)
    (h : m.runEnd program block = .failed failed fault) : Refusal m id node failed fault := by
  unfold runEnd at h
  split at h
  · cases h
  · cases h
  · split at h
    · rename_i hpop
      cases h
      exact .noActiveCall haction hpop
    · cases h

theorem refusal_of_runAssignment {target : String} {formula : Option Formula}
    (haction : node.action = .assign target formula)
    (h : m.runAssignment node target formula = .failed failed fault) :
    Refusal m id node failed fault := by
  unfold runAssignment at h
  split at h
  · rename_i hnone
    cases h
    exact .target haction hnone
  · rename_i old hold
    split at h
    · rename_i error herror
      cases h
      exact .formula haction hold herror
    · cases h

/-- A statement that fails does so in one of these ways. -/
theorem refusal_of_attempt (h : m.attempt program id node = .failed failed fault) :
    Refusal m id node failed fault := by
  unfold attempt at h
  split at h
  · cases h
  · cases h
  · rename_i haction
    exact refusal_of_runInput haction h
  · rename_i haction
    exact refusal_of_runCondition (.inl haction) h
  · rename_i haction
    exact refusal_of_runCondition (.inr haction) h
  · unfold runHeader at h
    split at h <;> cases h
  · rename_i haction
    exact refusal_of_runCall haction h
  · rename_i haction
    exact refusal_of_runEnd haction h
  · rename_i haction
    exact refusal_of_runAssignment haction h

/-! ## Steps -/

/-- A machine after a statement: where it goes on, and what is counted. -/
def arrive (program : Program) (elapsed : Nat) (id : NodeId) (node : Node) (m : Machine)
    (flow : Flow) : Machine :=
  { m with current := follow program id flow, steps := m.steps + 1 }.record
    node.action.label elapsed

/-- Where there is no current statement, a step does nothing. -/
theorem step_of_missing {elapsed : Nat} (hmissing : m.current.bind program.node? = none) :
    m.step program elapsed = (m, .ok false) := by
  unfold step tryCurrent
  cases hcurrent : m.current with
  | none => rfl
  | some id =>
    rw [hcurrent, Option.bind_some] at hmissing
    dsimp only
    rw [hmissing]
    rfl

theorem step_of_done {elapsed : Nat} (hcurrent : m.current = some id)
    (hnode : program.node? id = some node)
    (hattempt : m.attempt program id node = .done after flow) :
    m.step program elapsed =
      (arrive program elapsed id node after flow, .ok (follow program id flow).isSome) := by
  unfold step tryCurrent
  rw [hcurrent]
  dsimp only
  rw [hnode, Option.map_some, hattempt]
  rfl

theorem step_of_failed {elapsed : Nat} (hcurrent : m.current = some id)
    (hnode : program.node? id = some node)
    (hattempt : m.attempt program id node = .failed failed fault) :
    m.step program elapsed = (failed, .error ⟨node.location, fault, failed.backtrace program⟩) := by
  unfold step tryCurrent
  rw [hcurrent]
  dsimp only
  rw [hnode, Option.map_some, hattempt]
  rfl

/-- A step that succeeds either finds nothing to run, or advances at the current statement. -/
theorem advance_of_step {elapsed : Nat} {more : Bool}
    (h : m.step program elapsed = (after, .ok more)) :
    (after = m ∧ more = false ∧ m.current.bind program.node? = none) ∨
      ∃ id node advanced flow, m.current = some id ∧ program.node? id = some node ∧
        Advance program m id node advanced flow ∧
        after = arrive program elapsed id node advanced flow ∧ more = after.current.isSome := by
  cases hfound : m.current.bind program.node? with
  | none =>
    rw [step_of_missing hfound] at h
    cases h
    exact .inl ⟨rfl, rfl, rfl⟩
  | some node =>
    obtain ⟨id, hcurrent, hnode⟩ := Option.bind_eq_some_iff.1 hfound
    cases hattempt : m.attempt program id node with
    | failed failed fault =>
      rw [step_of_failed hcurrent hnode hattempt] at h
      cases h
    | done advanced flow =>
      rw [step_of_done hcurrent hnode hattempt] at h
      cases h
      exact .inr ⟨id, node, advanced, flow, hcurrent, hnode, advance_of_attempt hattempt, rfl, rfl⟩

/-- A step fails where the current statement does. -/
theorem attempt_of_step {elapsed : Nat} {failure : Failure}
    (h : m.step program elapsed = (failed, .error failure)) :
    ∃ id node fault, m.current = some id ∧ program.node? id = some node ∧
      m.attempt program id node = .failed failed fault ∧
      failure = ⟨node.location, fault, failed.backtrace program⟩ := by
  cases hfound : m.current.bind program.node? with
  | none =>
    rw [step_of_missing hfound] at h
    cases h
  | some node =>
    obtain ⟨id, hcurrent, hnode⟩ := Option.bind_eq_some_iff.1 hfound
    cases hattempt : m.attempt program id node with
    | failed left fault =>
      rw [step_of_failed hcurrent hnode hattempt] at h
      cases h
      exact ⟨id, node, fault, hcurrent, hnode, hattempt, rfl⟩
    | done advanced flow =>
      rw [step_of_done hcurrent hnode hattempt] at h
      cases h

/-- A step that fails does so at the current statement. -/
theorem refusal_of_step {elapsed : Nat} {failure : Failure}
    (h : m.step program elapsed = (failed, .error failure)) :
    ∃ id node fault, m.current = some id ∧ program.node? id = some node ∧
      Refusal m id node failed fault ∧
      failure = ⟨node.location, fault, failed.backtrace program⟩ := by
  obtain ⟨id, node, fault, hcurrent, hnode, hattempt, hfailure⟩ := attempt_of_step h
  exact ⟨id, node, fault, hcurrent, hnode, refusal_of_attempt hattempt, hfailure⟩

/-- The header of a function never fails. -/
theorem Refusal.not_function (h : Refusal m id node failed fault) (past : Option NodeId)
    (signature : Signature) : node.action ≠ .function past signature := by
  cases h with
  | condition haction => rcases haction with haction | haction <;> simp [haction]
  | inputForm haction | inputTarget haction | inputClosed haction | inputGarbled haction
  | argument haction | recursion haction | noActiveCall haction | target haction
  | formula haction => simp [haction]

/-- A statement that fails leaves everything but the input and the output as it is. -/
theorem Refusal.unchanged (h : Refusal m id node failed fault) :
    failed.current = m.current ∧ failed.calls = m.calls ∧ failed.staged = m.staged ∧
      failed.scopes = m.scopes := by
  cases h <;> exact ⟨rfl, rfl, rfl, rfl⟩

/-- What a machine comes to by steps that succeed. -/
inductive Reaches (program : Program) (m : Machine) : Machine → Prop where
  | refl : Reaches program m m
  | step {before after : Machine} {elapsed : Nat} {more : Bool} : Reaches program m before →
      before.step program elapsed = (after, .ok more) → Reaches program m after

/-- A run that does not fail comes to the machine that it ends with. -/
theorem reaches_of_runFor {budget : Nat} {ending : Ending}
    (h : runFor program budget m = (after, ending))
    (hending : ∀ failure, ending ≠ .failed failure) : Reaches program m after := by
  suffices hrun : ∀ middle, Reaches program m middle →
      runFor program budget middle = (after, ending) → Reaches program m after from
    hrun m .refl h
  clear h
  induction budget with
  | zero =>
    intro middle hmiddle h
    cases h
    exact hmiddle
  | succ budget ih =>
    intro middle hmiddle h
    unfold runFor at h
    split at h
    · cases h
      exact absurd rfl (hending _)
    · rename_i next hstep
      cases h
      exact hmiddle.step hstep
    · rename_i next hstep
      exact ih next (hmiddle.step hstep) h

end Machine

end LineScript
