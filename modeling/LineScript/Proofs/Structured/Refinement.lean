import LineScript.Proofs.Structured.Fitting
import LineScript.Proofs.Structured.Observation

/-!
# Machines refine structured interpretation

Running the nodes of a program step by step, with its jumps and its call stack, comes to the same as
running it along its outline. A part of the outline is followed by the steps that begin where the
part does and end where it ends, with the same calls: this is shown for every part at once, by
induction on the budget of the interpreter. Where the budget is not enough, as many steps have been
made, so that the two also agree on the programs that do not end.
-/

namespace LineScript

def Program.at? (program : Program) (position : Nat) : Option NodeId :=
  if position < program.size then some position else none

theorem Program.at?_of_node {program : Program} {id : NodeId} {node : Node}
    (hnode : program.node? id = some node) : program.at? id = some id :=
  if_pos (lt_size_of_node? hnode)

namespace Structured

open Machine (arrive follow runFor)

variable {program : Program} {m after : Machine} {seen ran : List NodeId} {id : NodeId}
  {node : Node} {calls : CallStack} {q budget : Nat} {finish : Option Finish}

/-- An effect and an attempt agree on what comes of a statement that goes on with the next one. -/
def Effect.Mirrors (m : Machine) (seen : List NodeId) : Effect → Attempt → Prop
  | .done world, .done after flow =>
    flow = .next ∧ after.calls = m.calls ∧ after.staged = m.staged ∧ worldOf after seen = world
  | .failed world fault, .failed after found =>
    found = fault ∧ after.calls = m.calls ∧ after.current = m.current ∧
      worldOf after seen = world
  | _, _ => False

theorem mirrors_readInto (scope : ScopeId) (name : String) (old : Value) :
    ((worldOf m seen).readInto scope name old).Mirrors m seen
      (m.readInto scope name old.kind) := by
  unfold World.readInto Machine.readInto
  dsimp only [worldOf]
  rcases Machine.readWord old.kind m.output m.input.pieces with ⟨word, pieces, output⟩
  cases word with
  | accepted value => exact ⟨rfl, rfl, rfl, rfl⟩
  | closed => exact ⟨rfl, rfl, rfl, rfl⟩
  | garbled => exact ⟨rfl, rfl, rfl, rfl⟩

/-- Statements that neither bound a block nor call do the same in a machine. -/
theorem mirrors_perform (hplain : node.action.bracket = .plain)
    (hcall : ∀ callee function arguments, node.action ≠ .call callee function arguments) :
    ((worldOf m seen).perform node).Mirrors m seen (m.attempt program id node) := by
  unfold World.perform Machine.attempt
  cases haction : node.action with
  | declare kind => exact ⟨rfl, rfl, rfl, rfl⟩
  | output => exact ⟨rfl, rfl, rfl, rfl⟩
  | input =>
    dsimp only
    unfold Machine.runInput
    rcases node.operands with _ | ⟨operand, _ | ⟨other, others⟩⟩
    · exact ⟨rfl, rfl, rfl, rfl⟩
    · dsimp only [worldOf]
      cases m.scopes.get? node.scope operand.raw with
      | none => exact ⟨rfl, rfl, rfl, rfl⟩
      | some old => exact mirrors_readInto _ _ _
    · exact ⟨rfl, rfl, rfl, rfl⟩
  | assign target formula =>
    unfold Machine.runAssignment
    dsimp only [worldOf]
    cases m.scopes.get? node.scope target with
    | none => exact ⟨rfl, rfl, rfl, rfl⟩
    | some old =>
      dsimp only
      cases Machine.assignedValue node formula old.kind m.scopes with
      | error error => exact ⟨rfl, rfl, rfl, rfl⟩
      | ok value => exact ⟨rfl, rfl, rfl, rfl⟩
  | call callee function arguments => exact absurd haction (hcall _ _ _)
  | loop | branch | function | close =>
    rw [haction] at hplain
    cases hplain

/-! ## Following an outline -/

/--
The steps of a machine follow the interpreter. Where a part of a program runs to its end, they lead
to the position after it, with given calls; where a statement fails, it fails after some steps; and
where the interpreter has no answer, they use up its budget.
-/
def Follows (program : Program) (m : Machine) (seen : List NodeId) (calls : CallStack) (q : Nat)
    (budget : Nat) : Option Finish → Prop
  | some (.normal world) => ∃ count after ran, Walks program count m seen after ran ∧
      after.current = program.at? q ∧ after.calls = calls ∧ after.staged = none ∧
      worldOf after ran = world
  | some (.failed world id failure) => ∃ count before ran failed,
      Walks program count m seen before ran ∧ before.step program 0 = (failed, .error failure) ∧
      before.current = some id ∧ failed.current = some id ∧ worldOf failed ran = world
  | none => ∃ count after ran, Walks program count m seen after ran ∧ budget ≤ count

theorem Follows.of_walks {count larger : Nat} (hwalks : Walks program count m seen after ran)
    (h : Follows program after ran calls q budget finish) (hlarger : larger ≤ count + budget) :
    Follows program m seen calls q larger finish := by
  match finish with
  | some (.normal world) =>
    obtain ⟨further, last, all, hfurther, hlast⟩ := h
    exact ⟨count + further, last, all, hwalks.trans hfurther, hlast⟩
  | some (.failed world id failure) =>
    obtain ⟨further, before, all, failed, hfurther, hfailed⟩ := h
    exact ⟨count + further, before, all, failed, hwalks.trans hfurther, hfailed⟩
  | none =>
    obtain ⟨further, last, all, hfurther, hbudget⟩ := h
    exact ⟨count + further, last, all, hwalks.trans hfurther, by omega⟩

/-- A statement that is done, and what follows after it. -/
theorem Follows.of_done {advanced : Machine} {flow : Flow} (hcurrent : m.current = some id)
    (hnode : program.node? id = some node)
    (hattempt : m.attempt program id node = .done advanced flow)
    (h : Follows program (arrive program 0 id node advanced flow)
      (seen ++ currentLeaf program m) calls q budget finish) :
    Follows program m seen calls q (budget + 1) finish := by
  have hwalks : Walks program 1 m seen (arrive program 0 id node advanced flow)
      (seen ++ currentLeaf program m) :=
    .step hcurrent hnode (Machine.step_of_done hcurrent hnode hattempt) (.refl _ _)
  exact h.of_walks hwalks (by omega)

/-- The same for a statement that bounds a block. -/
theorem Follows.of_bound {advanced : Machine} {flow : Flow} (hcurrent : m.current = some id)
    (hnode : program.node? id = some node) (hbound : node.action.bracket ≠ .plain)
    (hattempt : m.attempt program id node = .done advanced flow)
    (h : Follows program (arrive program 0 id node advanced flow) seen calls q budget finish) :
    Follows program m seen calls q (budget + 1) finish := by
  apply Follows.of_done hcurrent hnode hattempt
  rw [currentLeaf_of_bound hcurrent hnode hbound, List.append_nil]
  exact h

/-- What follows with a budget follows with a smaller one. -/
theorem Follows.weaken (h : Follows program m seen calls q (budget + 1) finish) :
    Follows program m seen calls q budget finish :=
  h.of_walks (.refl m seen) (by omega)

/-- A statement fails. -/
theorem Follows.of_failed {failed : Machine} {fault : RuntimeFault}
    (hcurrent : m.current = some id) (hnode : program.node? id = some node)
    (hattempt : m.attempt program id node = .failed failed fault)
    (hcalls : failed.calls = m.calls) (hstays : failed.current = m.current) :
    Follows program m seen calls q budget
      (fail program m.calls id node fault (worldOf failed seen)) := by
  have hstep : m.step program 0 =
      (failed, .error ⟨node.location, fault, m.calls.sites.filterMap program.location?⟩) := by
    rw [Machine.step_of_failed hcurrent hnode hattempt, Machine.backtrace, hcalls]
  exact ⟨0, m, seen, failed, .refl m seen, hstep, hcurrent, hstays.trans hcurrent, rfl⟩

/-- One part of a program after another. -/
theorem Follows.andThen {e : Nat} {first : Option Finish} {next : World → Option Finish}
    {callsBetween : CallStack} (hfirst : Follows program m seen callsBetween e budget first)
    (hnext : ∀ middle ran, middle.current = program.at? e → middle.calls = callsBetween →
      middle.staged = none →
      Follows program middle ran calls q budget (next (worldOf middle ran))) :
    Follows program m seen calls q budget (andThen first next) := by
  match first with
  | some (.normal world) =>
    obtain ⟨count, middle, ran, hwalks, hcurrent, hcalls, hstaged, rfl⟩ := hfirst
    exact (hnext middle ran hcurrent hcalls hstaged).of_walks hwalks (Nat.le_add_left _ _)
  | some (.failed world id failure) => exact hfirst
  | none => exact hfirst

/-- All parts of a program are followed, as far as a budget goes. -/
def Simulated (program : Program) (whole : Outline) (budget : Nat) : Prop :=
  ∀ (m : Machine) (seen : List NodeId) (p q : Nat) (outline : Outline),
    Fits program p outline q → m.current = program.at? p → m.staged = none →
    Follows program m seen m.calls q budget
      (exec program whole budget m.calls outline (worldOf m seen))

variable {whole rest inside : Outline} {p e : Nat}

theorem Simulated.leaf (hsimulated : Simulated program whole budget)
    (hcurrent : m.current = some p) (hstaged : m.staged = none)
    (hnode : program.node? p = some node) (hplain : node.action.bracket = .plain)
    (hcall : ∀ callee function arguments, node.action ≠ .call callee function arguments)
    (hrest : Fits program (p + 1) rest q) :
    Follows program m seen m.calls q (budget + 1)
      (exec program whole (budget + 1) m.calls (.line p rest) (worldOf m seen)) := by
  have hmirrors : ((worldOf m seen).perform node).Mirrors m seen (m.attempt program p node) :=
    mirrors_perform hplain hcall
  rw [exec_leaf hnode hcall]
  cases hattempt : m.attempt program p node with
  | done advanced flow =>
    cases hperform : (worldOf m seen).perform node with
    | failed world fault =>
      rw [hattempt, hperform] at hmirrors
      exact hmirrors.elim
    | done world =>
      rw [hattempt, hperform] at hmirrors
      obtain ⟨rfl, hcalls, hkept, rfl⟩ := hmirrors
      apply Follows.of_done hcurrent hnode hattempt
      rw [currentLeaf_of_plain hcurrent hnode hplain, ← hcalls]
      exact hsimulated (arrive program 0 p node advanced .next) (seen ++ [p]) _ _ rest hrest rfl
        (hkept.trans hstaged)
  | failed failed found =>
    cases hperform : (worldOf m seen).perform node with
    | done world =>
      rw [hattempt, hperform] at hmirrors
      exact hmirrors.elim
    | failed world fault =>
      rw [hattempt, hperform] at hmirrors
      obtain ⟨rfl, hcalls, hstays, rfl⟩ := hmirrors
      exact .of_failed hcurrent hnode hattempt hcalls hstays

/-- A header with staged values binds them, and the `end` of its body goes back to the call. -/
theorem Simulated.body (hsimulated : Simulated program whole budget) {callee : NodeId}
    (hcurrent : m.current = some callee) {values : List (String × Value)}
    (hstaged : m.staged = some values) {site : NodeId} {outer : CallStack}
    (hpop : m.calls.pop? = some (site, outer)) {header : Node}
    (hheader : program.node? callee = some header) {past : Option NodeId}
    {signature : Signature} (hfunction : header.action = .function past signature) {close : Nat}
    {body : Outline} (hinside : Fits program (callee + 1) body close)
    (hend : program.Holds close "end" (.close .function))
    (hrest : Fits program (site + 1) rest q) :
    Follows program m seen outer q budget
      (Structured.andThen
        (exec program whole budget m.calls body
          ⟨m.scopes.setAll header.scope values, m.input, m.output, seen⟩)
        fun world ↦ exec program whole budget outer rest world) := by
  have henter : m.attempt program callee header =
      .done { m with staged := none, scopes := m.scopes.setAll header.scope values } .next := by
    rw [Machine.attempt, hfunction]
    dsimp only
    rw [Machine.runHeader, hstaged]
  have hopens : header.action.bracket ≠ .plain := by
    rw [hfunction]
    exact Bracket.noConfusion
  apply Follows.weaken
  apply Follows.of_bound hcurrent hheader hopens henter
  refine .andThen (hsimulated _ seen _ _ body hinside rfl rfl) ?_
  intro middle ran hmiddle hcalls hnone
  obtain ⟨closer, hcloser, -, hclose⟩ := hend
  rw [Program.at?_of_node hcloser] at hmiddle
  have hmiddlePop : middle.calls.pop? = some (site, outer) := by
    rw [hcalls]
    exact hpop
  have hreturn : middle.attempt program close closer =
      .done { middle with calls := outer } (.jump (program.next? site)) := by
    rw [Machine.attempt, hclose]
    dsimp only
    rw [Machine.runEnd, hmiddlePop]
  have hcloses : closer.action.bracket ≠ .plain := by
    rw [hclose]
    exact Bracket.noConfusion
  apply Follows.weaken
  apply Follows.of_bound hmiddle hcloser hcloses hreturn
  exact hsimulated _ ran _ _ rest hrest rfl hnone

/-- A call goes to the header, which binds the values, and comes back from the `end`. -/
theorem Simulated.call (hsimulated : Simulated program whole budget)
    (hcurrent : m.current = some p) (hnode : program.node? p = some node) {callee : NodeId}
    {function : String} {arguments : List Argument}
    (haction : node.action = .call callee function arguments) {header : Node}
    (hheader : program.node? callee = some header) {past : Option NodeId}
    {signature : Signature} (hfunction : header.action = .function past signature) {close : Nat}
    {body : Outline} (hbody : body? callee whole = some body)
    (hinside : Fits program (callee + 1) body close)
    (hend : program.Holds close "end" (.close .function)) (hrest : Fits program (p + 1) rest q) :
    Follows program m seen m.calls q (budget + 1)
      (exec program whole (budget + 1) m.calls (.line p rest) (worldOf m seen)) := by
  have hattempt : m.attempt program p node = m.runCall p node callee function arguments := by
    rw [Machine.attempt, haction]
  rw [exec_call hnode haction hheader hbody]
  dsimp only [worldOf]
  unfold Machine.runCall at hattempt
  cases hvalues : arguments.mapM (Machine.argumentValue function m.scopes node.scope) with
  | error fault =>
    rw [hvalues] at hattempt
    exact .of_failed hcurrent hnode hattempt rfl rfl
  | ok values =>
    rw [hvalues] at hattempt
    dsimp only at hattempt ⊢
    cases hinner : m.calls.push p with
    | error fault =>
      rw [hinner] at hattempt
      exact .of_failed hcurrent hnode hattempt rfl rfl
    | ok inner =>
      rw [hinner] at hattempt
      have hplain : node.action.bracket = .plain := by
        rw [haction]
        rfl
      apply Follows.of_done hcurrent hnode hattempt
      rw [currentLeaf_of_plain hcurrent hnode hplain]
      exact hsimulated.body rfl rfl (CallStack.pop?_of_push hinner) hheader hfunction hinside hend
        hrest

/--
The header of a block that is left out when its condition is zero. What `again` does after the body
is what the `end` of the block leads to.
-/
theorem Simulated.test (hsimulated : Simulated program whole budget)
    (hcurrent : m.current = some p) (hstaged : m.staged = none)
    (hnode : program.node? p = some node) {condition : Formula}
    (haction : node.action = .loop (program.next? e) condition ∨
      node.action = .branch (program.next? e) condition)
    (hinside : Fits program (p + 1) inside e) (hrest : Fits program (e + 1) rest q)
    {again : World → Option Finish}
    (hagain : ∀ middle ran, middle.current = program.at? e → middle.calls = m.calls →
      middle.staged = none →
      Follows program middle ran m.calls q budget (again (worldOf middle ran))) :
    Follows program m seen m.calls q (budget + 1)
      (match condition.eval m.scopes node.scope with
        | .error error => fail program m.calls p node (.formula error) (worldOf m seen)
        | .ok value =>
          if value == 0 then exec program whole budget m.calls rest (worldOf m seen)
          else
            Structured.andThen (exec program whole budget m.calls inside (worldOf m seen))
              again) := by
  have hattempt : m.attempt program p node =
      m.runCondition node (program.next? e) condition := by
    rw [Machine.attempt]
    rcases haction with haction | haction <;> rw [haction]
  have hopens : node.action.bracket ≠ .plain := by
    rcases haction with haction | haction <;> rw [haction] <;> exact Bracket.noConfusion
  unfold Machine.runCondition at hattempt
  cases hvalue : condition.eval m.scopes node.scope with
  | error error =>
    rw [hvalue] at hattempt
    exact .of_failed hcurrent hnode hattempt rfl rfl
  | ok value =>
    rw [hvalue] at hattempt
    dsimp only at hattempt ⊢
    by_cases hzero : (value == 0) = true
    · rw [if_pos hzero] at hattempt ⊢
      apply Follows.of_bound hcurrent hnode hopens hattempt
      exact hsimulated _ seen _ _ rest hrest rfl hstaged
    · rw [if_neg hzero] at hattempt ⊢
      apply Follows.of_bound hcurrent hnode hopens hattempt
      exact .andThen (hsimulated _ seen _ _ inside hinside rfl hstaged) hagain

/-- The `end` of a loop leads to its header. -/
theorem Simulated.again (hsimulated : Simulated program whole budget)
    (hblock : Fits program p (.block p inside e rest) q)
    (hend : program.Holds e "end" (.close (.loop p))) (hheader : program.node? p = some node)
    (hcurrent : m.current = program.at? e) (hstaged : m.staged = none) :
    Follows program m seen m.calls q budget
      (exec program whole budget m.calls (.block p inside e rest) (worldOf m seen)) := by
  obtain ⟨closer, hcloser, -, hclose⟩ := hend
  rw [Program.at?_of_node hcloser] at hcurrent
  have hattempt : m.attempt program e closer = .done m (.jump p) := by
    rw [Machine.attempt, hclose]
    rfl
  have hcloses : closer.action.bracket ≠ .plain := by
    rw [hclose]
    exact Bracket.noConfusion
  apply Follows.weaken
  apply Follows.of_bound hcurrent hcloser hcloses hattempt
  exact hsimulated _ seen _ _ _ hblock (Program.at?_of_node hheader).symm hstaged

/-- The `end` of a branch leads to the statement after it. -/
theorem Simulated.leave (hsimulated : Simulated program whole budget)
    (hend : program.Holds e "end" (.close .branch)) (hrest : Fits program (e + 1) rest q)
    (hcurrent : m.current = program.at? e) (hstaged : m.staged = none) :
    Follows program m seen m.calls q budget
      (exec program whole budget m.calls rest (worldOf m seen)) := by
  obtain ⟨closer, hcloser, -, hclose⟩ := hend
  rw [Program.at?_of_node hcloser] at hcurrent
  have hattempt : m.attempt program e closer = .done m .next := by
    rw [Machine.attempt, hclose]
    rfl
  have hcloses : closer.action.bracket ≠ .plain := by
    rw [hclose]
    exact Bracket.noConfusion
  apply Follows.weaken
  apply Follows.of_bound hcurrent hcloser hcloses hattempt
  exact hsimulated _ seen _ _ _ hrest rfl hstaged

/-- The header of a function leads past its block where no values are staged. -/
theorem Simulated.skip (hsimulated : Simulated program whole budget)
    (hcurrent : m.current = some p) (hstaged : m.staged = none)
    (hnode : program.node? p = some node) {signature : Signature}
    (haction : node.action = .function (program.next? e) signature)
    (hrest : Fits program (e + 1) rest q) :
    Follows program m seen m.calls q (budget + 1)
      (exec program whole (budget + 1) m.calls (.block p inside e rest) (worldOf m seen)) := by
  have hattempt : m.attempt program p node = .done m (.jump (program.next? e)) := by
    rw [Machine.attempt, haction]
    dsimp only
    rw [Machine.runHeader, hstaged]
  have hopens : node.action.bracket ≠ .plain := by
    rw [haction]
    exact Bracket.noConfusion
  rw [exec_function hnode haction]
  apply Follows.of_bound hcurrent hnode hopens hattempt
  exact hsimulated _ seen _ _ rest hrest rfl hstaged

theorem Simulated.block (hsimulated : Simulated program whole budget)
    (hcurrent : m.current = program.at? p) (hstaged : m.staged = none)
    (hfits : Fits program p (.block p inside e rest) q) (hblock : program.Block p e)
    (hinside : Fits program (p + 1) inside e) (hrest : Fits program (e + 1) rest q) :
    Follows program m seen m.calls q (budget + 1)
      (exec program whole (budget + 1) m.calls (.block p inside e rest) (worldOf m seen)) := by
  cases hblock with
  | loop hheader hend =>
    obtain ⟨node, hnode, -, haction⟩ := hheader
    rw [Program.at?_of_node hnode] at hcurrent
    rw [exec_loop hnode haction]
    refine hsimulated.test hcurrent hstaged hnode (.inl haction) hinside hrest ?_
    intro middle ran hmiddle hcalls hnone
    rw [← hcalls]
    exact hsimulated.again hfits hend hnode hmiddle hnone
  | branch hheader hend =>
    obtain ⟨node, hnode, -, haction⟩ := hheader
    rw [Program.at?_of_node hnode] at hcurrent
    rw [exec_branch hnode haction]
    refine hsimulated.test hcurrent hstaged hnode (.inr haction) hinside hrest ?_
    intro middle ran hmiddle hcalls hnone
    rw [← hcalls]
    exact hsimulated.leave hend hrest hmiddle hnone
  | function hheader hend =>
    obtain ⟨node, hnode, -, haction⟩ := hheader
    rw [Program.at?_of_node hnode] at hcurrent
    exact hsimulated.skip hcurrent hstaged hnode haction hrest

/-! ## Whole programs -/

variable {statements : List Statement} {linked : Linked}

/-- The steps of a program that links follow its outline, with every budget. -/
theorem simulated_of_link (hlink : link statements = .ok linked)
    (hwhole : Fits linked.program 0 whole linked.program.size) (budget : Nat) :
    Simulated linked.program whole budget := by
  induction budget with
  | zero =>
    intro m seen p q outline _ _ _
    exact ⟨0, m, seen, .refl m seen, Nat.le_refl _⟩
  | succ budget ih =>
    intro m seen p q outline hfits hcurrent hstaged
    cases hfits with
    | empty => exact ⟨0, m, seen, .refl m seen, hcurrent, rfl, hstaged, rfl⟩
    | @line _ _ rest node hnode hplain hrest =>
      rw [Program.at?_of_node hnode] at hcurrent
      by_cases hcall : ∀ callee function arguments, node.action ≠ .call callee function arguments
      · exact ih.leaf hcurrent hstaged hnode hplain hcall hrest
      · push Not at hcall
        obtain ⟨callee, function, arguments, haction⟩ := hcall
        obtain ⟨-, header, past, signature, -, hheader, hfunction, -⟩ :=
          exists_header_of_call hlink hnode haction
        obtain ⟨body, close, hbody, hblock, hinside⟩ := hwhole.exists_body hheader hfunction
          (Nat.zero_le _) (Program.lt_size_of_node? hheader)
        cases hblock with
        | loop hother _ | branch hother _ =>
          rw [hother.action_eq hheader] at hfunction
          cases hfunction
        | function _ hend =>
          exact ih.call hcurrent hnode haction hheader hfunction hbody hinside hend hrest
    | block hblock hinside hrest =>
      exact ih.block hcurrent hstaged (.block hblock hinside hrest) hblock hinside hrest

/-- Where the interpreter answers, so does the machine. -/
theorem Follows.exists_observe {finish : Finish}
    (h : Follows program m seen calls program.size budget (some finish)) :
    ∃ steps, observe program steps seen m = some finish := by
  match finish with
  | .normal world =>
    obtain ⟨count, last, ran, hwalks, hcurrent, -, -, rfl⟩ := h
    have hhalted : last.current = none := hcurrent.trans (if_neg (Nat.lt_irrefl _))
    refine ⟨count + 0, ?_⟩
    calc
      observe program (count + 0) seen m = observe program 0 ran last := observe_walks hwalks 0
      _ = some (.normal (worldOf last ran)) := observe_of_halted hhalted 0
  | .failed world id failure =>
    obtain ⟨count, before, ran, failed, hwalks, hstep, -, hcurrent, rfl⟩ := h
    refine ⟨count + 1, ?_⟩
    calc
      observe program (count + 1) seen m = observe program 1 ran before := observe_walks hwalks 1
      _ = some (.failed (worldOf failed ran) id failure) := observe_of_failing hstep hcurrent 0

/-- What the machine answers is what the interpreter does, if it has the budget. -/
theorem Follows.eq_of_observe {steps : Nat} {observed : Finish}
    (h : Follows program m seen calls program.size budget finish) (hbudget : steps < budget)
    (hobserved : observe program steps seen m = some observed) : finish = some observed := by
  match finish with
  | some (.normal world) =>
    obtain ⟨count, last, ran, hwalks, hcurrent, -, -, rfl⟩ := h
    have hhalted : last.current = none := hcurrent.trans (if_neg (Nat.lt_irrefl _))
    by_cases hlt : steps < count
    · rw [observe_of_lt hwalks hlt] at hobserved
      cases hobserved
    · obtain ⟨further, rfl⟩ := Nat.exists_eq_add_of_le (Nat.not_lt.1 hlt)
      rw [observe_walks hwalks, observe_of_halted hhalted] at hobserved
      exact hobserved
  | some (.failed world id failure) =>
    obtain ⟨count, before, ran, failed, hwalks, hstep, hbefore, hcurrent, rfl⟩ := h
    by_cases hlt : steps < count
    · rw [observe_of_lt hwalks hlt] at hobserved
      cases hobserved
    · obtain ⟨further, rfl⟩ := Nat.exists_eq_add_of_le (Nat.not_lt.1 hlt)
      rw [observe_walks hwalks] at hobserved
      cases further with
      | zero =>
        rw [observe_zero hbefore] at hobserved
        cases hobserved
      | succ further =>
        rw [observe_of_failing hstep hcurrent] at hobserved
        exact hobserved
  | none =>
    obtain ⟨count, last, ran, hwalks, hcount⟩ := h
    rw [observe_of_lt hwalks (by omega)] at hobserved
    cases hobserved

/--
A program that links has an outline by its keywords alone, and running it along the outline and
running its nodes step by step finish alike, whatever the variables are at first and whatever there
is to read: each does so when the other does, normally or by the same failure of the same
statement, with the same variables, input left, output, and statements that ran. A machine never
finishes in two ways.
-/
theorem exists_run_iff_exists_observe {lines : List (List Word)}
    (hlink : linkLines lines = .ok linked) :
    ∃ outline,
      Outline.ofBrackets ((statementsOfLines lines).map Statement.bracket) = some outline ∧
      ∀ (scopes : ScopeTree) (options : MachineOptions) (input : Input) (output : Output),
        (∀ finish,
          (∃ budget, run linked.program outline options.maxCallDepth budget scopes input output =
            some finish) ↔
          ∃ steps, observe linked.program steps []
            (Machine.start ⟨linked.program, scopes⟩ options input output) = some finish) ∧
        ∀ steps steps' finish finish',
          observe linked.program steps []
            (Machine.start ⟨linked.program, scopes⟩ options input output) = some finish →
          observe linked.program steps' []
            (Machine.start ⟨linked.program, scopes⟩ options input output) = some finish' →
          finish = finish' := by
  obtain ⟨outline, houtline⟩ := exists_outline_of_link hlink
  rw [brackets_of_link hlink] at houtline
  refine ⟨outline, houtline, ?_⟩
  intro scopes options input output
  have hfits := fits_of_link hlink houtline
  have hfollows : ∀ budget, Follows linked.program
      (Machine.start ⟨linked.program, scopes⟩ options input output) []
      (.empty options.maxCallDepth) linked.program.size budget
      (run linked.program outline options.maxCallDepth budget scopes input output) := by
    intro budget
    exact simulated_of_link hlink hfits budget _ [] 0 _ outline hfits rfl rfl
  constructor
  · intro finish
    constructor
    · rintro ⟨budget, hrun⟩
      have hfollow := hfollows budget
      rw [hrun] at hfollow
      exact hfollow.exists_observe
    · rintro ⟨steps, hobserve⟩
      exact ⟨steps + 1, (hfollows _).eq_of_observe (Nat.lt_succ_self _) hobserve⟩
  · intro steps steps' finish finish' hobserve hobserve'
    have hfollow := hfollows (steps + steps' + 1)
    apply Option.some.inj
    calc
      some finish = run linked.program outline options.maxCallDepth (steps + steps' + 1) scopes
          input output := (hfollow.eq_of_observe (by omega) hobserve).symm
      _ = some finish' := hfollow.eq_of_observe (by omega) hobserve'

theorem exists_run_countdown : ∃ linked outline budget world, linkLines countdown = .ok linked ∧
    Outline.ofBrackets ((statementsOfLines countdown).map Statement.bracket) = some outline ∧
    run linked.program outline none budget linked.scopes ⟨[]⟩ .fresh = some (.normal world) ∧
    world.leaves = [6, 7, 9, 2, 3, 2, 3] ∧ world.output = .kept "2\n1\n" := by
  obtain ⟨linked, hlinked⟩ := exists_linked_countdown
  have hruns : ((linkLines countdown).toOption.bind fun linked ↦
      (observe linked.program 20 [] (Machine.start linked ⟨none, false⟩ ⟨[]⟩ .fresh)).map
        fun
        | .normal world => some (world.leaves, world.output)
        | .failed .. => none) =
      some (some ([6, 7, 9, 2, 3, 2, 3], .kept "2\n1\n")) := by
    decide +kernel
  rw [hlinked] at hruns
  obtain ⟨finish, hobserve, hfinish⟩ := Option.map_eq_some_iff.1 hruns
  obtain ⟨outline, houtline, hagree⟩ := exists_run_iff_exists_observe hlinked
  cases finish with
  | failed => cases hfinish
  | normal world =>
    obtain ⟨budget, hrun⟩ :=
      ((hagree linked.scopes ⟨none, false⟩ ⟨[]⟩ .fresh).1 (.normal world)).2 ⟨20, hobserve⟩
    obtain ⟨hleaves, houtput⟩ := Prod.mk.inj (Option.some.inj hfinish)
    exact ⟨linked, outline, budget, world, hlinked, houtline, hrun, hleaves, houtput⟩

end Structured

end LineScript
