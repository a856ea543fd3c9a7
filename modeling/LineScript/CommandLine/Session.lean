import LineScript.CommandLine.Options
import LineScript.CommandLine.Report
import LineScript.Machine.Step

/-!
# Sessions

A session runs a program for the command line, one statement at a time, so that whoever holds the
terminal can show what was written and supply what is read. In debug mode it shows each statement
that ran and then waits for a line; once the lines are used up it runs on without waiting. A
statement that fails is not shown.
-/

namespace LineScript

inductive Stage where
  | running
  /-- The next statement is followed by a pause. -/
  | paced
  /-- A statement was shown; a line is awaited. -/
  | waiting
  | finished (error : Option CommandError)
deriving DecidableEq

/-- A line that ends a pause, which may not be valid UTF-8. -/
inductive Pause where
  | line
  | garbled
deriving DecidableEq, Repr

/-- A program that is being run, and what the terminal was shown besides its output. -/
structure Session where
  program : Program
  options : RunOptions
  machine : Machine
  stage : Stage
  prompts : String

namespace Session

def announcement : String :=
  "Debugging mode enabled, press Enter after each statement to continue.\n"

def start (linked : Linked) (options : RunOptions) (input : Input) : Session where
  program := linked.program
  options := options
  machine := .start linked options.machineOptions input .fresh
  stage := if options.debug then .paced else .running
  prompts := if options.debug then announcement else ""

def prompt (program : Program) (id : NodeId) : String :=
  "[debug] " ++ ((program.location? id).map Location.describe).getD "" ++ " > "

def runningStage : Except Failure Bool → Stage
  | .error failure => .finished (some (.runtime failure))
  | .ok false => .finished none
  | .ok true => .running

/-- The session after a statement that is not followed by a pause. -/
def afterRunning (session : Session) (machine : Machine) (result : Except Failure Bool) :
    Session :=
  { session with machine, stage := runningStage result }

/-- The session after a statement in debug mode, which is shown if it did not fail. -/
def afterPaced (session : Session) (id : NodeId) (machine : Machine)
    (result : Except Failure Bool) : Session :=
  let shown := session.prompts ++ prompt session.program id
  match result with
  | .error failure => { session with machine, stage := .finished (some (.runtime failure)) }
  | .ok false => { session with machine, stage := .finished none, prompts := shown ++ "\n" }
  | .ok true => { session with machine, stage := .waiting, prompts := shown }

/--
The session after the current statement was tried, which took `elapsed` nanoseconds. Where there
was none the session is finished, and one that waits or is finished stays as it is.
-/
def settle (session : Session) (elapsed : Nat) (tried : Option Machine.Tried) : Session :=
  match session.stage, tried with
  | .waiting, _ | .finished _, _ => session
  | _, none => { session with stage := .finished none }
  | .running, some tried =>
    let (machine, result) := Machine.commit session.program elapsed tried
    session.afterRunning machine result
  | .paced, some tried =>
    let (machine, result) := Machine.commit session.program elapsed tried
    session.afterPaced tried.id machine result

/-- Ends a pause, with a line or, where there is none, for good. -/
def resume (session : Session) (pause : Option Pause) : Session :=
  match session.stage, pause with
  | .waiting, some .line => { session with stage := .paced }
  | .waiting, some .garbled => { session with stage := .finished (some .garbledTerminal) }
  | .waiting, none => { session with stage := .running, prompts := session.prompts ++ "\n" }
  | _, _ => session

def pauseOfLine (line : List UInt8) : Pause :=
  if (String.fromUTF8? ⟨line.toArray⟩).isSome then .line else .garbled

/-- The pauses that bytes supply, a line each. -/
def pausesOfBytes (bytes : List UInt8) : List Pause :=
  (Input.linesOfBytes bytes).map pauseOfLine

/--
How a run under a given supply of pauses stands after one more turn, in which a statement takes
`elapsed` nanoseconds: the session, and the pauses left.
-/
def turnTaking (elapsed : Nat) (state : Session × List Pause) : Session × List Pause :=
  match state.1.stage with
  | .waiting => (state.1.resume state.2.head?, state.2.tail)
  | _ => (state.1.settle elapsed (state.1.machine.tryCurrent state.1.program), state.2)

/-- A turn that is not timed. -/
def turn : Session × List Pause → Session × List Pause :=
  turnTaking 0

/-- What is shown once the session is finished. -/
def closingLines (session : Session) (error : Option CommandError) : List String :=
  let machine := session.machine
  let visible := machine.scopes.bindings (machine.currentScope session.program)
  (if session.options.dump then Report.variableLines visible else []) ++
    ((machine.timings.map fun timings ↦
      Report.timingLines timings.summary machine.steps).getD []) ++
    ((error.map CommandError.lines).getD [])

def report? (session : Session) : Option Report :=
  match session.stage with
  | .finished error =>
    some {
      stdout := session.machine.output.contents
      stderr := session.prompts ++ unlines (session.closingLines error)
      status := if error.isSome then 1 else 0 }
  | _ => none

end Session

end LineScript
