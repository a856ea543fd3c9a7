import LineScript.Proofs.Machine.Instrumentation

/-!
# Runs to their end

A run to its end is told by the statements that ran without failing, by the machine at the end, and
by the failure, if there was one. `RunsTo` follows the steps of such a run. A run of bounded length
that is not cut off is one, and each is a run of bounded length for a bound that is large enough.
-/

namespace LineScript

namespace Machine

variable {program : Program} {m after : Machine}

/-- The statements that a run of bounded length executes without a failure, in order. -/
def executedFor (program : Program) : Nat → Machine → List NodeId
  | 0, _ => []
  | budget + 1, m =>
    match m.tryCurrent program, m.step program 0 with
    | some tried, (after, .ok _) => tried.id :: executedFor program budget after
    | _, _ => []

def Ending.failure? : Ending → Option Failure
  | .failed failure => some failure
  | _ => none

/-- A run to its end: the statements that ran without failing, the machine after them, and the
failure, if the run ended with one. -/
inductive RunsTo (program : Program) : Machine → List NodeId → Machine → Option Failure → Prop where
  | halted {m : Machine} : m.current.bind program.node? = none → RunsTo program m [] m none
  | failed {m after : Machine} {failure : Failure} :
      m.step program 0 = (after, .error failure) → RunsTo program m [] after (some failure)
  | step {m between after : Machine} {id : NodeId} {node : Node} {more : Bool}
      {executed : List NodeId} {failure? : Option Failure} :
      m.current = some id → program.node? id = some node →
      m.step program 0 = (between, .ok more) →
      RunsTo program between executed after failure? →
      RunsTo program m (id :: executed) after failure?

variable {executed : List NodeId} {failure? : Option Failure}

/-- A step that leaves nothing to run leaves no current statement. -/
theorem halted_of_step {elapsed : Nat} (hstep : m.step program elapsed = (after, .ok false)) :
    after.current.bind program.node? = none := by
  rcases advance_of_step hstep with ⟨rfl, -, hmissing⟩ | ⟨_, _, _, _, -, -, -, -, hmore⟩
  · exact hmissing
  · have hnone := Option.isNone_iff_eq_none.1 (Option.isSome_eq_false_iff.1 hmore.symm)
    rw [hnone]
    rfl

theorem tryCurrent_of_missing (hmissing : m.current.bind program.node? = none) :
    m.tryCurrent program = none := by
  unfold tryCurrent
  cases hcurrent : m.current with
  | none => rfl
  | some id =>
    rw [hcurrent, Option.bind_some] at hmissing
    dsimp only
    rw [hmissing]
    rfl

theorem tryCurrent_of_node {id : NodeId} {node : Node} (hcurrent : m.current = some id)
    (hnode : program.node? id = some node) :
    m.tryCurrent program = some ⟨id, node, m.attempt program id node⟩ := by
  rw [tryCurrent, hcurrent]
  dsimp only
  rw [hnode]
  rfl

/-- No jump leads out of a linked program, so where there is more to run there is a statement. -/
theorem exists_node_of_step {statements : List Statement} {linked : Linked}
    (hlink : link statements = .ok linked) {elapsed : Nat}
    (hstep : m.step linked.program elapsed = (after, .ok true)) :
    ∃ node, after.current.bind linked.program.node? = some node := by
  have hwithin : ∀ target < linked.program.size, ∃ node, linked.program.node? target = some node :=
    fun target hlt ↦ ⟨_, Array.getElem?_eq_getElem hlt⟩
  have hnext : ∀ id target, linked.program.next? id = some target →
      ∃ node, linked.program.node? target = some node := by
    intro id target htarget
    unfold Program.next? at htarget
    split at htarget
    · rename_i hlt
      cases htarget
      exact hwithin _ hlt
    · cases htarget
  rcases advance_of_step hstep with
    ⟨-, hmore, -⟩ | ⟨id, node, advanced, flow, -, hnode, hadvance, rfl, hmore⟩
  · cases hmore
  · obtain ⟨target, htarget⟩ := Option.isSome_iff_exists.1 hmore.symm
    rw [htarget, Option.bind_some]
    change follow linked.program id flow = some target at htarget
    have hpast : ∀ past, node.action.past? = some past → past = some target →
        ∃ node, linked.program.node? target = some node := by
      intro past hpast hsome
      obtain ⟨close, -, heq⟩ := exists_close_of_header hlink hnode hpast
      exact hnext close target (heq.symm.trans hsome)
    cases hadvance with
    | declare | output | input | enter | leave | assign => exact hnext id target htarget
    | test haction _ =>
      split at htarget
      · refine hpast _ ?_ htarget
        rcases haction with haction | haction <;> rw [haction] <;> rfl
      · exact hnext id target htarget
    | skip haction _ => exact hpast _ (congrArg Action.past? haction) htarget
    | call haction _ _ =>
      obtain ⟨-, header, -, -, -, hheader, -⟩ := exists_header_of_call hlink hnode haction
      cases htarget
      exact ⟨header, hheader⟩
    | again haction =>
      cases htarget
      exact hwithin _ (frame?_of_loop hlink hnode haction).1
    | «return» _ _ => exact hnext _ target htarget

/-- A run ends if it does so after the next step. -/
theorem exists_runsTo_of_step
    (hrest : ∀ between, m.step program 0 = (between, .ok true) →
      ∃ executed after failure?, RunsTo program between executed after failure?) :
    ∃ executed after failure?, RunsTo program m executed after failure? := by
  cases hfound : m.current.bind program.node? with
  | none => exact ⟨_, _, _, .halted hfound⟩
  | some node =>
    obtain ⟨id, hcurrent, hnode⟩ := Option.bind_eq_some_iff.1 hfound
    rcases hstep : m.step program 0 with ⟨between, failure | more⟩
    · exact ⟨_, _, _, .failed hstep⟩
    · cases more with
      | false => exact ⟨_, _, _, .step hcurrent hnode hstep (.halted (halted_of_step hstep))⟩
      | true =>
        obtain ⟨executed, after, failure?, hrun⟩ := hrest between hstep
        exact ⟨_, _, _, .step hcurrent hnode hstep hrun⟩

theorem executedFor_of_missing (hmissing : m.current.bind program.node? = none) (budget : Nat) :
    executedFor program budget m = [] := by
  cases budget with
  | zero => rfl
  | succ budget =>
    rw [executedFor, tryCurrent_of_missing hmissing]

/-- A run of bounded length that is not cut off is a run to its end. -/
theorem runsTo_of_runFor {budget : Nat} (hends : (runFor program budget m).2 ≠ .budget) :
    RunsTo program m (executedFor program budget m) (runFor program budget m).1
      (runFor program budget m).2.failure? := by
  induction budget generalizing m with
  | zero =>
    cases hcurrent : m.current with
    | none =>
      simp only [runFor, hcurrent, executedFor]
      exact .halted (by rw [hcurrent]; rfl)
    | some id =>
      simp [runFor, hcurrent] at hends
  | succ budget ih =>
    cases hfound : m.current.bind program.node? with
    | none =>
      rw [executedFor_of_missing hfound, runFor, step_of_missing hfound]
      exact .halted hfound
    | some node =>
      obtain ⟨id, hcurrent, hnode⟩ := Option.bind_eq_some_iff.1 hfound
      rw [executedFor, tryCurrent_of_node hcurrent hnode]
      rw [runFor] at hends ⊢
      rcases hstep : m.step program 0 with ⟨between, failure | more⟩
      · exact .failed hstep
      · rw [hstep] at hends
        cases more with
        | false =>
          have hmissing := halted_of_step hstep
          refine .step hcurrent hnode hstep ?_
          rw [executedFor_of_missing hmissing]
          exact .halted hmissing
        | true => exact .step hcurrent hnode hstep (ih hends)

theorem RunsTo.exists_budget (h : RunsTo program m executed after failure?) :
    ∃ budget, (runFor program budget m).2 ≠ .budget := by
  induction h with
  | halted hmissing =>
    refine ⟨1, ?_⟩
    rw [runFor, step_of_missing hmissing]
    simp
  | failed hstep =>
    refine ⟨1, ?_⟩
    rw [runFor, hstep]
    simp
  | @step _ _ _ _ _ more _ _ _ _ hstep _ ih =>
    obtain ⟨budget, hends⟩ := ih
    refine ⟨budget + 1, ?_⟩
    rw [runFor, hstep]
    cases more with
    | false => simp
    | true => exact hends

/-- Each statement that runs without failing is counted, and it is a statement of the program. -/
theorem RunsTo.steps_eq (h : RunsTo program m executed after failure?) :
    after.steps = m.steps + executed.length ∧
      ∀ id ∈ executed, (program.location? id).isSome := by
  induction h with
  | halted _ => simp
  | failed hstep =>
    obtain ⟨_, _, _, _, _, hrefusal, _⟩ := refusal_of_step hstep
    simpa using hrefusal.counts_eq.1
  | @step m between after id node more executed failure? hcurrent hnode hstep _ ih =>
    obtain ⟨hsteps, hlocations⟩ := ih
    constructor
    · rcases advance_of_step hstep with
        ⟨-, -, hmissing⟩ | ⟨_, _, advanced, _, -, -, hadvance, rfl, -⟩
      · rw [hcurrent, Option.bind_some, hnode] at hmissing
        cases hmissing
      · calc
          after.steps = advanced.steps + 1 + executed.length := hsteps
          _ = m.steps + (id :: executed).length := by
            rw [hadvance.counts_eq.2, List.length_cons, Nat.add_assoc, Nat.add_comm 1]
    · intro other hmem
      rcases List.mem_cons.1 hmem with rfl | hmem
      · simp [Program.location?, hnode]
      · exact hlocations other hmem

/-- A run from a statement that is there executes it or fails. -/
theorem RunsTo.ne_nil_or_failed (h : RunsTo program m executed after failure?) {node : Node}
    (hfound : m.current.bind program.node? = some node) :
    executed ≠ [] ∨ failure?.isSome := by
  cases h with
  | halted hmissing =>
    rw [hfound] at hmissing
    cases hmissing
  | failed _ => exact .inr rfl
  | step => exact .inl (List.cons_ne_nil _ _)

/-- Where there is nothing to run, the run is at its end. -/
theorem RunsTo.of_missing (h : RunsTo program m executed after failure?)
    (hmissing : m.current.bind program.node? = none) :
    executed = [] ∧ after = m ∧ failure? = none := by
  cases h with
  | halted _ => exact ⟨rfl, rfl, rfl⟩
  | failed hstep =>
    rw [step_of_missing hmissing] at hstep
    cases hstep
  | step hcurrent hnode _ _ =>
    rw [hcurrent, Option.bind_some, hnode] at hmissing
    cases hmissing

end Machine

end LineScript
