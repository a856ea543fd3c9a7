import LineScript.Proofs.Machine.Lockstep
import LineScript.Proofs.Program.Provenance
import LineScript.Proofs.Source.Spacing

/-!
# What a program does, wherever it comes from

A machine looks at what its statements do and not at where they come from: a step of a program is a
step of the program without these places, up to the locations in a failure. So programs that come
from statements with the same words, which linking makes equal up to locations, run alike, and the
spacing and the comments of a text never change what its program does.
-/

namespace LineScript

def Failure.forget (failure : Failure) : Failure :=
  ⟨failure.location.forget, failure.fault, failure.backtrace.map Location.forget⟩

namespace Program

variable {program : Program}

theorem node?_forget (id : NodeId) : program.forget.node? id = (program.node? id).map Node.forget :=
  Array.getElem?_map

@[simp]
theorem size_forget : program.forget.size = program.size :=
  Array.size_map

@[simp]
theorem next?_forget (id : NodeId) : program.forget.next? id = program.next? id := by
  rw [next?, size_forget, next?]

@[simp]
theorem entry?_forget : program.forget.entry? = program.entry? := by
  unfold entry?
  rw [size_forget]

theorem location?_forget (id : NodeId) :
    program.forget.location? id = (program.location? id).map Location.forget := by
  rw [location?, node?_forget, location?, Option.map_map, Option.map_map]
  rfl

end Program

namespace Machine

variable {program : Program} {m : Machine}

theorem backtrace_forget :
    m.backtrace program.forget = (m.backtrace program).map Location.forget := by
  unfold backtrace
  rw [List.map_filterMap]
  exact congrArg (List.filterMap · _) (funext fun id ↦ program.location?_forget id)

@[simp]
theorem follow_forget (id : NodeId) (flow : Flow) :
    follow program.forget id flow = follow program id flow := by
  cases flow with
  | next => exact program.next?_forget id
  | jump target => rfl

@[simp]
theorem runEnd_forget (block : BlockKind) :
    m.runEnd program.forget block = m.runEnd program block := by
  simp only [runEnd, Program.next?_forget]

/-- What comes of a statement does not depend on where it comes from. -/
theorem attempt_forget (id : NodeId) (node : Node) :
    m.attempt program.forget id node.forget = m.attempt program id node := by
  obtain ⟨location, operands, scope, action⟩ := node
  cases action with
  | close block => exact runEnd_forget block
  | declare | output | input | loop | branch | function | call | assign => rfl

/-- A step of a program is a step of the program without the places it comes from. -/
theorem step_forget (elapsed : Nat) :
    m.step program.forget elapsed =
      ((m.step program elapsed).1, (m.step program elapsed).2.mapError Failure.forget) := by
  cases hfound : m.current.bind program.node? with
  | none =>
    have hforget : m.current.bind program.forget.node? = none := by
      cases hcurrent : m.current with
      | none => rfl
      | some id =>
        rw [hcurrent, Option.bind_some] at hfound
        rw [Option.bind_some, Program.node?_forget, hfound, Option.map_none]
    rw [step_of_missing hfound, step_of_missing hforget]
    rfl
  | some node =>
    obtain ⟨id, hcurrent, hnode⟩ := Option.bind_eq_some_iff.1 hfound
    have hforget : program.forget.node? id = some node.forget := by
      rw [Program.node?_forget, hnode, Option.map_some]
    cases hattempt : m.attempt program id node with
    | failed failed fault =>
      have hsame := (attempt_forget id node).trans hattempt
      rw [step_of_failed hcurrent hnode hattempt, step_of_failed hcurrent hforget hsame,
        backtrace_forget]
      rfl
    | done advanced flow =>
      have hsame := (attempt_forget id node).trans hattempt
      rw [step_of_done hcurrent hnode hattempt, step_of_done hcurrent hforget hsame, arrive,
        follow_forget]
      rfl

theorem stepped_forget (clock : Nat → Nat) (count : Nat) :
    m.stepped program.forget clock count = m.stepped program clock count := by
  induction count with
  | zero => rfl
  | succ count ih => rw [stepped, ih, step_forget, stepped]

theorem start_forget (linked : Linked) (options : MachineOptions) (input : Input)
    (output : Output) :
    start linked.forget options input output = start linked options input output := by
  unfold start
  change Machine.mk linked.program.forget.entry? _ _ _ _ _ _ _ = _
  rw [Program.entry?_forget]
  rfl

/-- Programs that are the same without the places they come from run alike: wherever the one comes,
the other does too, and each step ends alike in both. -/
def RunsAlike (linked linked' : Linked) : Prop :=
  ∀ (options : MachineOptions) (input : Input) (output : Output) (clock clock' : Nat → Nat)
    (count : Nat),
    let m := (start linked options input output).stepped linked.program clock count
    let m' := (start linked' options input output).stepped linked'.program clock' count
    Agree (· = ·) m m' ∧ m'.calls = m.calls ∧ ∀ elapsed elapsed',
      (m'.step linked'.program elapsed').2.mapError Failure.forget =
        (m.step linked.program elapsed).2.mapError Failure.forget

theorem runsAlike_of_forget_eq {linked linked' : Linked} (h : linked'.forget = linked.forget) :
    RunsAlike linked linked' := by
  intro options input output clock clock' count m m'
  have hprogram : linked'.program.forget = linked.program.forget :=
    congrArg Linked.program h
  have hm' : m' = (start linked options input output).stepped linked.program clock' count := by
    calc
      m' = (start linked'.forget options input output).stepped linked'.program.forget clock'
          count := by rw [start_forget, stepped_forget]
      _ = (start linked options input output).stepped linked.program clock' count := by
        rw [h, hprogram, start_forget, stepped_forget]
  obtain ⟨hagree, hcalls⟩ := (agree_refl (start linked options input output)).stepped
    linked.program survivesWriting_eq rfl clock clock' count
  rw [← hm'] at hagree hcalls
  refine ⟨hagree, hcalls, fun elapsed elapsed' ↦ ?_⟩
  calc
    (m'.step linked'.program elapsed').2.mapError Failure.forget =
        (m'.step linked'.program.forget elapsed').2 := by rw [step_forget]
    _ = (m'.step linked.program elapsed').2.mapError Failure.forget := by
      rw [hprogram, step_forget]
    _ = (m.step linked.program elapsed).2.mapError Failure.forget := by
      rw [(hagree.step_of_calls_eq linked.program survivesWriting_eq hcalls elapsed elapsed').2.2]

end Machine

/-- Two sequences of statements are refused at the same position for the same fault, or linked into
programs and scopes that are the same up to locations and run alike. -/
inductive SameProgram (statements statements' : List Statement) : Prop where
  | refused {position : Nat} {error error' : LinkError} :
      link statements = .error error → link statements' = .error error' →
      StopsAt statements position error → StopsAt statements' position error' →
      error'.fault = error.fault → SameProgram statements statements'
  | linked {linked linked' : Linked} :
      link statements = .ok linked → link statements' = .ok linked' →
      linked'.forget = linked.forget → Machine.RunsAlike linked linked' →
      SameProgram statements statements'

theorem sameProgram_of_words_eq {statements statements' : List Statement}
    (h : statements'.map Statement.words = statements.map Statement.words) :
    SameProgram statements statements' := by
  have hforget := map_forget_eq_of_words_eq h
  cases hlink : link statements with
  | error error =>
    obtain ⟨position, hstops⟩ := exists_stopsAt_of_link hlink
    have hboth := stopsAt_forget_iff.2 ⟨error, hstops, rfl⟩
    rw [← hforget] at hboth
    obtain ⟨error', hstops', hsame⟩ := stopsAt_forget_iff.1 hboth
    have hfault : error'.forget.fault = error.forget.fault := congrArg LinkError.fault hsame
    exact .refused hlink hstops'.link_eq hstops hstops' hfault
  | ok linked =>
    have hboth := link_forget statements'
    rw [hforget, link_forget, hlink] at hboth
    obtain ⟨linked', hlink', hsame⟩ := Chain.carry_eq_ok_iff.1 hboth.symm
    exact .linked hlink hlink' hsame (Machine.runsAlike_of_forget_eq hsame)

theorem words_statementsOfLines (lines : List (List Word)) :
    (statementsOfLines lines).map Statement.words =
      (lines.map (List.map Word.text)).filter (!·.isEmpty) := by
  induction lines with
  | nil => rfl
  | cons line rest ih =>
    cases line with
    | nil => exact ih
    | cons keyword operands =>
      exact congrArg ((keyword :: operands).map Word.text :: ·) ih

/--
Where words come from is for messages only: lines with the same words, whatever their files and line
numbers, and texts that differ in spacing, blank lines and comments, are the same program.
-/
theorem sameProgram_of_lines :
    (∀ lines lines' : List (List Word),
      lines'.map (List.map Word.text) = lines.map (List.map Word.text) →
      SameProgram (statementsOfLines lines) (statementsOfLines lines')) ∧
    ∀ file file' text text' : String,
      Respaced (linesOf text.toList) (linesOf text'.toList) →
      SameProgram (statementsOf file text) (statementsOf file' text') := by
  constructor
  · intro lines lines' hwords
    apply sameProgram_of_words_eq
    rw [words_statementsOfLines, words_statementsOfLines, hwords]
  · intro file file' text text' hrespaced
    exact sameProgram_of_words_eq (words_statementsOf_of_respaced hrespaced)

end LineScript
