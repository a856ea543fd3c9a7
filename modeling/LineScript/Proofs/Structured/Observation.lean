import LineScript.Proofs.Machine.Advance
import LineScript.Proofs.Program.Resolution
import LineScript.Proofs.Structured.Interpreter

/-!
# Observing a machine

A run of a machine is observed as the structured interpreter answers: with the variables, the input
that is left, the output, and the statements that ran and bound no block. A walk is a number of
steps that succeed, and an observation may be put off until after a walk.
-/

namespace LineScript.Structured

open Machine (arrive follow runFor)

/-- The current statement of a machine, if it bounds no block. -/
def currentLeaf (program : Program) (m : Machine) : List NodeId :=
  m.current.toList.filter fun id ↦
    (program.node? id).any fun node ↦ node.action.bracket == .plain

/-- The statements that run without a fault in a run of bounded length and bound no block. -/
def leaves (program : Program) : Nat → Machine → List NodeId
  | 0, _ => []
  | budget + 1, m =>
    match m.step program 0 with
    | (_, .error _) => []
    | (after, .ok _) => currentLeaf program m ++ leaves program budget after

/-- What statements act on in a machine. -/
def worldOf (m : Machine) (leaves : List NodeId) : World :=
  ⟨m.scopes, m.input, m.output, leaves⟩

/-- How a run of bounded length ends, if it does, after some statements that have run already. -/
def observe (program : Program) (budget : Nat) (seen : List NodeId) (m : Machine) :
    Option Finish :=
  let seen := seen ++ leaves program budget m
  match runFor program budget m with
  | (after, .done) => some (.normal (worldOf after seen))
  | (after, .failed failure) =>
    after.current.map fun id ↦ .failed (worldOf after seen) id failure
  | (_, .budget) => none

/-- Steps that succeed lead from a machine to another; the statements that bound no block are
noted after those that ran already. -/
inductive Walks (program : Program) :
    Nat → Machine → List NodeId → Machine → List NodeId → Prop where
  | refl (m : Machine) (seen : List NodeId) : Walks program 0 m seen m seen
  | step {count : Nat} {m after last : Machine} {seen ran : List NodeId} {id : NodeId}
      {node : Node} {more : Bool} : m.current = some id → program.node? id = some node →
      m.step program 0 = (after, .ok more) →
      Walks program count after (seen ++ currentLeaf program m) last ran →
      Walks program (count + 1) m seen last ran

variable {program : Program} {m middle after : Machine} {seen ran : List NodeId} {id : NodeId}
  {node : Node}

theorem Walks.trans {count more : Nat} {last : Machine} {all : List NodeId}
    (hfirst : Walks program count m seen middle ran)
    (hsecond : Walks program more middle ran last all) :
    Walks program (count + more) m seen last all := by
  induction hfirst with
  | refl => rwa [Nat.zero_add]
  | step hcurrent hnode hstep _ ih =>
    rw [Nat.add_right_comm]
    exact .step hcurrent hnode hstep (ih hsecond)

theorem currentLeaf_of_plain (hcurrent : m.current = some id) (hnode : program.node? id = some node)
    (hplain : node.action.bracket = .plain) : currentLeaf program m = [id] := by
  simp [currentLeaf, hcurrent, hnode, hplain]

theorem currentLeaf_of_bound (hcurrent : m.current = some id)
    (hnode : program.node? id = some node) (hbound : node.action.bracket ≠ .plain) :
    currentLeaf program m = [] := by
  simp [currentLeaf, hcurrent, hnode, hbound]

theorem runFor_of_halted (hcurrent : m.current = none) (budget : Nat) :
    runFor program budget m = (m, .done) := by
  cases budget with
  | zero =>
    rw [runFor, hcurrent]
    rfl
  | succ budget =>
    have hmissing : m.current.bind program.node? = none := by
      rw [hcurrent]
      rfl
    rw [runFor, Machine.step_of_missing hmissing]

theorem leaves_of_halted (hcurrent : m.current = none) (budget : Nat) :
    leaves program budget m = [] := by
  induction budget with
  | zero => rfl
  | succ budget ih =>
    have hmissing : m.current.bind program.node? = none := by
      rw [hcurrent]
      rfl
    rw [leaves, Machine.step_of_missing hmissing]
    dsimp only
    rw [ih, currentLeaf, hcurrent]
    rfl

/-- A machine that has halted is observed as it is. -/
theorem observe_of_halted (hcurrent : m.current = none) (budget : Nat) :
    observe program budget seen m = some (.normal (worldOf m seen)) := by
  rw [observe, runFor_of_halted hcurrent, leaves_of_halted hcurrent, List.append_nil]

/-- A machine whose current statement fails is observed to fail. -/
theorem observe_of_failing {failed : Machine} {failure : Failure}
    (hstep : m.step program 0 = (failed, .error failure)) (hcurrent : failed.current = some id)
    (budget : Nat) :
    observe program (budget + 1) seen m = some (.failed (worldOf failed seen) id failure) := by
  rw [observe, runFor, leaves, hstep]
  dsimp only
  rw [hcurrent, List.append_nil]
  rfl

/-- A machine that has not halted is not observed without a budget. -/
theorem observe_zero (hcurrent : m.current = some id) : observe program 0 seen m = none := by
  rw [observe, runFor, hcurrent]
  rfl

theorem observe_step {budget : Nat} {more : Bool} (hcurrent : m.current = some id)
    (hnode : program.node? id = some node) (hstep : m.step program 0 = (after, .ok more)) :
    observe program (budget + 1) seen m =
      observe program budget (seen ++ currentLeaf program m) after := by
  have hrun : runFor program (budget + 1) m = runFor program budget after := by
    rw [runFor, hstep]
    cases more with
    | true => rfl
    | false =>
      rcases Machine.advance_of_step hstep with ⟨-, -, hnone⟩ | ⟨_, _, _, _, -, -, -, -, hmore⟩
      · rw [hcurrent, Option.bind_some, hnode] at hnone
        cases hnone
      · rw [runFor_of_halted (Option.not_isSome_iff_eq_none.1 (Bool.eq_false_iff.1 hmore.symm))]
  have hleaves : leaves program (budget + 1) m =
      currentLeaf program m ++ leaves program budget after := by
    rw [leaves, hstep]
  unfold observe
  rw [hrun, hleaves, List.append_assoc]

theorem observe_walks {count : Nat} (hwalks : Walks program count m seen middle ran)
    (budget : Nat) :
    observe program (count + budget) seen m = observe program budget ran middle := by
  induction hwalks with
  | refl => rw [Nat.zero_add]
  | @step count m after last seen ran id node more hcurrent hnode hstep _ ih =>
    calc
      observe program (count + 1 + budget) seen m =
          observe program (count + budget + 1) seen m := by rw [Nat.add_right_comm]
      _ = observe program (count + budget) (seen ++ currentLeaf program m) after :=
        observe_step hcurrent hnode hstep
      _ = observe program budget ran last := ih

/-- In the middle of a walk nothing is observed. -/
theorem observe_of_lt {count budget : Nat} (hwalks : Walks program count m seen middle ran)
    (hlt : budget < count) : observe program budget seen m = none := by
  induction hwalks generalizing budget with
  | refl => exact absurd hlt (Nat.not_lt_zero _)
  | step hcurrent hnode hstep _ ih =>
    cases budget with
    | zero => exact observe_zero hcurrent
    | succ budget => rw [observe_step hcurrent hnode hstep, ih (Nat.lt_of_succ_lt_succ hlt)]

end LineScript.Structured
