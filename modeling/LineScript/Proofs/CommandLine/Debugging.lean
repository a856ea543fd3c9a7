import LineScript.CommandLine.Session
import LineScript.Proofs.Machine.Runs
import LineScript.Proofs.Text.Lines

/-!
# Debug mode only watches

In debug mode a session takes turns between statements and pauses, until the lines that end the
pauses are used up. The program notices nothing of it: a session ends if and only if the plain run
does, and as the plain run does. What is shown besides is a prompt for each statement that is
followed by a pause, so one more than there are lines, unless the program ends before.
-/

namespace LineScript

namespace Session

/-- How a run stands after a number of turns, where a clock tells how long each of them takes. -/
def turned : Nat → (Nat → Nat) → Session × List Pause → Session × List Pause
  | 0, _, state => state
  | count + 1, clock, state =>
    turned count (fun turn ↦ clock (turn + 1)) (turnTaking (clock 0) state)

/-- The prompts end with a line feed if the pauses ran out while there was more to run, or if the
program halted while its last statement was still shown. -/
def PromptsClosed (pauses executed : Nat) (failed : Bool) : Prop :=
  (pauses + 1 < executed ∨ pauses + 1 = executed ∧ failed) ∨
    (¬ failed ∧ 0 < executed ∧ executed ≤ pauses + 1)

instance {pauses executed : Nat} {failed : Bool} :
    Decidable (PromptsClosed pauses executed failed) :=
  inferInstanceAs (Decidable ((_ ∨ _ ∧ _) ∨ (_ ∧ _ ∧ _)))

/-- What is shown of a run in debug mode: a prompt for each statement that is followed by a pause,
and one for the statement at which the pauses have run out. -/
def promptsOf (program : Program) (pauses : Nat) (executed : List NodeId) (failed : Bool) :
    String :=
  String.join ((executed.take (pauses + 1)).map (prompt program)) ++
    if PromptsClosed pauses executed.length failed then "\n" else ""

variable {program : Program} {options : RunOptions} {m after machine : Machine}
  {shown prompts : String} {pauses : List Pause} {executed : List NodeId}
  {failure? : Option Failure} {clock : Nat → Nat}

/-- Without pauses, a turn is a step. -/
theorem turnTaking_running (elapsed : Nat) :
    turnTaking elapsed (⟨program, options, machine, .running, shown⟩, pauses) =
      (⟨program, options, (machine.step program elapsed).1,
        runningStage (machine.step program elapsed).2, shown⟩, pauses) := by
  unfold Machine.step turnTaking
  dsimp only
  cases machine.tryCurrent program with
  | none => rfl
  | some tried => rfl

theorem turnTaking_halted (hmissing : machine.current.bind program.node? = none)
    (elapsed : Nat) :
    turnTaking elapsed (⟨program, options, machine, .paced, shown⟩, pauses) =
      (⟨program, options, machine, .finished none, shown⟩, pauses) := by
  unfold turnTaking
  dsimp only
  rw [Machine.tryCurrent_of_missing hmissing]
  rfl

/-- In debug mode, a turn is a step that is shown. -/
theorem turnTaking_paced {id : NodeId} {node : Node} (hcurrent : machine.current = some id)
    (hnode : program.node? id = some node) (elapsed : Nat) :
    turnTaking elapsed (⟨program, options, machine, .paced, shown⟩, pauses) =
      (afterPaced ⟨program, options, machine, .paced, shown⟩ id (machine.step program elapsed).1
        (machine.step program elapsed).2, pauses) := by
  unfold turnTaking Machine.step
  dsimp only
  rw [Machine.tryCurrent_of_node hcurrent hnode]
  rfl

theorem turned_of_finished {state : Session × List Pause} {error : Option CommandError}
    (hstage : state.1.stage = .finished error) (count : Nat) (clock : Nat → Nat) :
    turned count clock state = state := by
  obtain ⟨⟨program, options, machine, stage, shown⟩, pauses⟩ := state
  cases hstage
  induction count generalizing clock with
  | zero => rfl
  | succ count ih => exact ih _

theorem turned_add (first second : Nat) (clock : Nat → Nat) (state : Session × List Pause) :
    turned (first + second) clock state =
      turned second (fun turn ↦ clock (turn + first)) (turned first clock state) := by
  induction first generalizing clock state with
  | zero => rw [Nat.zero_add]; rfl
  | succ first ih =>
    rw [Nat.succ_add, turned, turned, ih]
    simp only [Nat.add_assoc]

/-- A session ends in one way only. -/
theorem turned_unique {state : Session × List Pause} {count count' : Nat}
    {error error' : Option CommandError}
    (h : (turned count clock state).1.stage = .finished error)
    (h' : (turned count' clock state).1.stage = .finished error') :
    turned count clock state = turned count' clock state := by
  rcases Nat.le_total count count' with hle | hle
  · obtain ⟨more, rfl⟩ := Nat.exists_eq_add_of_le hle
    rw [turned_add, turned_of_finished h]
  · obtain ⟨more, rfl⟩ := Nat.exists_eq_add_of_le hle
    rw [turned_add, turned_of_finished h']

theorem promptsOf_nil (pauses : Nat) (failed : Bool) : promptsOf program pauses [] failed = "" := by
  have hclosed : ¬ PromptsClosed pauses 0 failed := by
    unfold PromptsClosed
    omega
  rw [promptsOf, List.take_nil, List.length_nil, if_neg hclosed]
  rfl

/-- A program that halts at a statement that is shown ends the line. -/
theorem promptsOf_singleton (pauses : Nat) (id : NodeId) :
    promptsOf program pauses [id] false = prompt program id ++ "\n" := by
  have hclosed : PromptsClosed pauses 1 false := .inr ⟨Bool.false_ne_true, by omega, by omega⟩
  rw [promptsOf, List.length_singleton, if_pos hclosed]
  simp

/-- With no line left, one more statement is shown, and whatever comes after it ends the line. -/
theorem promptsOf_zero (id : NodeId) {rest : List NodeId} {failed : Bool}
    (hmore : rest ≠ [] ∨ failed) :
    promptsOf program 0 (id :: rest) failed = prompt program id ++ "\n" := by
  have hclosed : PromptsClosed 0 (id :: rest).length failed := by
    left
    rw [List.length_cons]
    rcases hmore with hne | hfailed
    · have hpos := List.length_pos_iff.2 hne
      omega
    · by_cases hempty : rest.length = 0
      · exact .inr ⟨by omega, hfailed⟩
      · omega
  rw [promptsOf, if_pos hclosed]
  simp

/-- A line is used up for each statement that is shown, if more comes after it. -/
theorem promptsOf_succ (pauses : Nat) (id : NodeId) {rest : List NodeId} {failed : Bool}
    (hmore : rest ≠ [] ∨ failed) :
    promptsOf program (pauses + 1) (id :: rest) failed =
      prompt program id ++ promptsOf program pauses rest failed := by
  have hclosed : PromptsClosed (pauses + 1) (id :: rest).length failed ↔
      PromptsClosed pauses rest.length failed := by
    unfold PromptsClosed
    rw [List.length_cons]
    cases failed with
    | false =>
      have hpos := List.length_pos_iff.2 (hmore.resolve_right Bool.false_ne_true)
      simp
      omega
    | true => simp
  unfold promptsOf
  simp only [hclosed]
  rw [List.take_succ_cons, List.map_cons, String.join_cons, String.append_assoc]

/-- A machine is where another one is: nothing that they differ in is seen by the program. -/
structure Follows (m machine : Machine) : Prop where
  agree : Machine.Agree (· = ·) m machine
  calls_eq : machine.calls = m.calls

/-- A session ends where a run ends that has a given result, and was shown some prompts by then. -/
def EndsAs (program : Program) (options : RunOptions) (clock : Nat → Nat)
    (state : Session × List Pause) (after : Machine) (failure? : Option Failure)
    (prompts : String) : Prop :=
  ∃ count machine rest, turned count clock state =
    (⟨program, options, machine, .finished (failure?.map .runtime), prompts⟩, rest) ∧
      Follows after machine

theorem EndsAs.of_turn {state : Session × List Pause}
    (h : EndsAs program options (fun turn ↦ clock (turn + 1)) (turnTaking (clock 0) state) after
      failure? prompts) : EndsAs program options clock state after failure? prompts := by
  obtain ⟨count, hcount⟩ := h
  exact ⟨count + 1, hcount⟩

/-- A machine that follows another one takes the steps that the other takes. -/
theorem Follows.exists_step (h : Follows m machine) {result : Except Failure Bool}
    (hstep : m.step program 0 = (after, result)) (elapsed : Nat) :
    ∃ stepped, machine.step program elapsed = (stepped, result) ∧ Follows after stepped := by
  obtain ⟨hagree, hcalls, hresult⟩ :=
    h.agree.step_of_calls_eq program Machine.survivesWriting_eq h.calls_eq 0 elapsed
  rw [hstep] at hagree hcalls hresult
  exact ⟨_, Prod.ext rfl hresult, hagree, hcalls⟩

theorem Follows.missing (h : Follows m machine) (hmissing : m.current.bind program.node? = none) :
    machine.current.bind program.node? = none := by
  rwa [h.agree.current]

/-- A session that does not pause any more ends where the plain run does. -/
theorem Follows.endsAs_running (h : Follows m machine)
    (hrun : Machine.RunsTo program m executed after failure?) :
    EndsAs program options clock (⟨program, options, machine, .running, shown⟩, pauses) after
      failure? shown := by
  induction hrun generalizing machine clock with
  | halted hmissing =>
    refine .of_turn ?_
    rw [turnTaking_running, Machine.step_of_missing (h.missing hmissing)]
    exact ⟨0, _, _, rfl, h⟩
  | failed hstep =>
    refine .of_turn ?_
    obtain ⟨stepped, hsame, hfollows⟩ := h.exists_step hstep (clock 0)
    rw [turnTaking_running, hsame]
    exact ⟨0, _, _, rfl, hfollows⟩
  | @step _ _ _ _ _ more _ _ _ _ hstep hrest ih =>
    refine .of_turn ?_
    obtain ⟨stepped, hsame, hfollows⟩ := h.exists_step hstep (clock 0)
    rw [turnTaking_running, hsame]
    cases more with
    | false =>
      obtain ⟨-, rfl, rfl⟩ := hrest.of_missing (Machine.halted_of_step hstep)
      exact ⟨0, _, _, rfl, hfollows⟩
    | true => exact ih hfollows

/-- A session in debug mode ends where the plain run does, and has shown what it should by then. -/
theorem Follows.endsAs_paced (h : Follows m machine)
    (hrun : Machine.RunsTo program m executed after failure?)
    (hwithin : ∀ (m m' : Machine), m.step program 0 = (m', .ok true) →
      ∃ node, m'.current.bind program.node? = some node) (lines : Nat) :
    EndsAs program options clock
      (⟨program, options, machine, .paced, shown⟩, List.replicate lines .line) after failure?
      (shown ++ promptsOf program lines executed failure?.isSome) := by
  induction hrun generalizing machine clock lines shown with
  | halted hmissing =>
    refine .of_turn ?_
    rw [turnTaking_halted (h.missing hmissing), promptsOf_nil, String.append_empty]
    exact ⟨0, _, _, rfl, h⟩
  | failed hstep =>
    refine .of_turn ?_
    obtain ⟨stepped, hsame, hfollows⟩ := h.exists_step hstep (clock 0)
    obtain ⟨id, node, -, hcurrent, hnode, -, -⟩ := Machine.refusal_of_step hsame
    rw [turnTaking_paced hcurrent hnode, hsame, promptsOf_nil, String.append_empty]
    exact ⟨0, _, _, rfl, hfollows⟩
  | @step m between after id node more executed failure? hcurrent hnode hstep hrest ih =>
    refine .of_turn ?_
    obtain ⟨stepped, hsame, hfollows⟩ := h.exists_step hstep (clock 0)
    rw [turnTaking_paced (h.agree.current.trans hcurrent) hnode, hsame]
    cases more with
    | false =>
      obtain ⟨rfl, rfl, rfl⟩ := hrest.of_missing (Machine.halted_of_step hstep)
      rw [Option.isSome_none, promptsOf_singleton, ← String.append_assoc]
      exact ⟨0, _, _, rfl, hfollows⟩
    | true =>
      obtain ⟨next, hnext⟩ := hwithin _ _ hstep
      have hmore := hrest.ne_nil_or_failed hnext
      -- The statement was shown; the next turn is the pause after it.
      refine .of_turn ?_
      cases lines with
      | zero =>
        rw [promptsOf_zero id hmore, ← String.append_assoc]
        exact hfollows.endsAs_running hrest
      | succ lines =>
        rw [promptsOf_succ lines id hmore, ← String.append_assoc]
        exact ih hfollows lines

/-- A session that ends follows a run that ends. -/
theorem Follows.exists_runsTo (h : Follows m machine) {stage : Stage} {error : Option CommandError}
    (hstage : ∀ error, stage ≠ .finished error) (hpauses : ∀ pause ∈ pauses, pause = .line)
    {count : Nat}
    (hends : (turned count clock (⟨program, options, machine, stage, shown⟩, pauses)).1.stage =
      .finished error) :
    ∃ executed after failure?, Machine.RunsTo program m executed after failure? := by
  induction count generalizing m machine stage shown pauses clock with
  | zero => exact absurd hends (hstage error)
  | succ count ih =>
    rw [turned] at hends
    cases stage with
    | running =>
      apply Machine.exists_runsTo_of_step
      intro between hstep
      obtain ⟨stepped, hsame, hfollows⟩ := h.exists_step hstep (clock 0)
      rw [turnTaking_running, hsame] at hends
      exact ih hfollows (by simp [runningStage]) hpauses hends
    | paced =>
      apply Machine.exists_runsTo_of_step
      intro between hstep
      obtain ⟨stepped, hsame, hfollows⟩ := h.exists_step hstep (clock 0)
      rcases Machine.advance_of_step hsame with
        ⟨-, hmore, -⟩ | ⟨id, node, -, -, hcurrent, hnode, -, -, -⟩
      · cases hmore
      · rw [turnTaking_paced hcurrent hnode, hsame] at hends
        exact ih hfollows (by simp) hpauses hends
    | waiting =>
      -- A pause leaves the machine as it is.
      cases pauses with
      | nil => exact ih h (by simp) (by simp) hends
      | cons pause pauses =>
        obtain rfl := hpauses pause List.mem_cons_self
        exact ih h (by simp) (fun other hmem ↦ hpauses other (List.mem_cons_of_mem _ hmem)) hends
    | finished error => exact absurd rfl (hstage error)

/-- Each line of a text ends one pause. -/
theorem pausesOfBytes_toUTF8 (text : String) :
    pausesOfBytes text.toUTF8.toList = List.replicate (linesOf text.toList).length .line := by
  unfold pausesOfBytes linesOf
  rw [linesOfBytes_toUTF8, List.map_map, List.length_map, ← List.map_const']
  apply List.map_congr_left
  intro line _
  rw [Function.comp_apply, pauseOfLine, fromUTF8?_flatMap]
  rfl

/--
A session in debug mode, fed with the lines of a text, ends if and only if the plain run does. Then
it has come to the same position, calls, staged values, variables, output and unread input as the
plain run, after as many steps, and ends with the same result. Of the statements that ran without
failing, the first ones are shown, in order: one for each line and one more. A statement that fails
is not shown. The prompts end with a line feed if the lines ran out while there was more to run, or
if the program halted while its last statement was still shown, and not otherwise.
-/
theorem debugging_of_linkLines {lines : List (List Word)} {linked : Linked}
    (hlink : linkLines lines = .ok linked) (m : Machine) (options : RunOptions)
    (shown text : String) (clock : Nat → Nat) :
    let debugged := fun count ↦ turned count clock
      (⟨linked.program, options, m, .paced, shown⟩, pausesOfBytes text.toUTF8.toList)
    let plain := fun budget ↦ m.runFor linked.program budget
    ((∃ count error, (debugged count).1.stage = .finished error) ↔
      ∃ budget, (plain budget).2 ≠ .budget) ∧
    ∀ count error budget, (debugged count).1.stage = .finished error →
      (plain budget).2 ≠ .budget →
      let final := (debugged count).1
      let after := (plain budget).1
      let ending := (plain budget).2
      let executed := m.executedFor linked.program budget
      Machine.Agree (· = ·) after final.machine ∧ final.machine.calls = after.calls ∧
        error = ending.failure?.map .runtime ∧
        after.steps = m.steps + executed.length ∧
        (∀ id ∈ executed, (linked.program.location? id).isSome) ∧
        final.prompts = shown ++
          promptsOf linked.program (linesOf text.toList).length executed ending.failure?.isSome := by
  intro debugged plain
  have hfollows : Follows m m := ⟨Machine.agree_refl m, rfl⟩
  have hpauses := pausesOfBytes_toUTF8 text
  have hwithin : ∀ (m m' : Machine), m.step linked.program 0 = (m', .ok true) →
      ∃ node, m'.current.bind linked.program.node? = some node :=
    fun m m' hstep ↦ Machine.exists_node_of_step hlink hstep
  have hforward : ∀ {executed after failure?},
      Machine.RunsTo linked.program m executed after failure? →
      EndsAs linked.program options clock
        (⟨linked.program, options, m, .paced, shown⟩, pausesOfBytes text.toUTF8.toList) after
        failure? (shown ++
          promptsOf linked.program (linesOf text.toList).length executed failure?.isSome) := by
    intro executed after failure? hrun
    rw [hpauses]
    exact hfollows.endsAs_paced hrun hwithin (linesOf text.toList).length
  constructor
  · constructor
    · rintro ⟨count, error, hends⟩
      obtain ⟨executed, after, failure?, hrun⟩ := hfollows.exists_runsTo (by simp)
        (by rw [hpauses]; exact fun pause hmem ↦ List.eq_of_mem_replicate hmem) hends
      exact hrun.exists_budget
    · rintro ⟨budget, hends⟩
      obtain ⟨count, machine, rest, hfinal, -⟩ := hforward (Machine.runsTo_of_runFor hends)
      exact ⟨count, _, congrArg (fun state ↦ state.1.stage) hfinal⟩
  · intro count error budget hfinished hends
    have hrun := Machine.runsTo_of_runFor hends
    obtain ⟨count', machine, rest, hfinal, hmachine⟩ := hforward hrun
    change debugged count' = _ at hfinal
    have hstage : (debugged count').1.stage =
        .finished ((plain budget).2.failure?.map .runtime) :=
      congrArg (fun state ↦ state.1.stage) hfinal
    have hsame : debugged count = debugged count' := turned_unique hfinished hstage
    obtain ⟨hsteps, hlocations⟩ := hrun.steps_eq
    rw [hsame] at hfinished ⊢
    rw [hstage] at hfinished
    cases hfinished
    rw [hfinal]
    exact ⟨hmachine.agree, hmachine.calls_eq, rfl, hsteps, hlocations, rfl⟩

def paused : List (List Word) :=
  [["number", "x"], ["x", "=", "4"], ["out", "x"]].zipIdx.map
    fun (words, line) ↦ words.map fun text ↦ ⟨text, "paused", line + 1⟩

theorem debugging_paused : ∃ linked count, linkLines paused = .ok linked ∧
    let session : Session :=
      ⟨linked.program, .none, .start linked ⟨none, true⟩ ⟨[]⟩ .fresh, .paced, ""⟩
    let final := (turned count (fun _ ↦ 1) (session, pausesOfBytes "\n\n".toUTF8.toList)).1
    final.stage = .finished none ∧ final.machine.output.contents = "4\n" ∧
      final.prompts = "[debug] File: paused / Line: 1 / number > " ++
        "[debug] File: paused / Line: 2 / x > [debug] File: paused / Line: 3 / out > \n" := by
  have hrun : ((linkLines paused).toOption.map fun linked ↦
      let m := Machine.start linked ⟨none, true⟩ ⟨[]⟩ .fresh
      let run := m.runFor linked.program 3
      (run.2, run.1.output.contents,
        promptsOf linked.program 2 (m.executedFor linked.program 3) false)) =
      some (.done, "4\n", "[debug] File: paused / Line: 1 / number > " ++
        "[debug] File: paused / Line: 2 / x > [debug] File: paused / Line: 3 / out > \n") := by
    decide +kernel
  obtain ⟨linked, hlinked, hvalues⟩ := Chain.exists_of_map_toOption hrun
  obtain ⟨hending, hrest⟩ := Prod.mk.inj hvalues
  obtain ⟨houtput, hprompts⟩ := Prod.mk.inj hrest
  obtain ⟨hterminates, hsame⟩ := debugging_of_linkLines hlinked
    (.start linked ⟨none, true⟩ ⟨[]⟩ .fresh) .none "" "\n\n" fun _ ↦ 1
  have hends : (Machine.runFor linked.program 3
      (.start linked ⟨none, true⟩ ⟨[]⟩ .fresh)).2 ≠ .budget := by
    rw [hending]
    simp
  obtain ⟨count, error, hfinished⟩ := hterminates.2 ⟨3, hends⟩
  obtain ⟨hagree, -, herror, -, -, hshown⟩ := hsame count error 3 hfinished hends
  rw [hending] at herror hshown
  refine ⟨linked, count, hlinked, ?_, ?_, ?_⟩
  · rw [hfinished, herror]
    rfl
  · rw [← hagree.output]
    exact houtput
  · rw [← hprompts]
    exact hshown

end Session

end LineScript
