import LineScript.Machine.Machine
import LineScript.Program.Link
import LineScript.Source.Include

/-!
# Reports

What a command leaves behind: text for the two output streams and an exit status. Also the texts
that are shown after a run: the variables, the table of timings, and the error that ended it.
-/

namespace LineScript

/-- What a command shows, and its exit status. -/
structure Report where
  stdout : String
  stderr : String
  status : UInt32
deriving DecidableEq, Repr, Inhabited

inductive CommandError where
  | load (error : LoadError)
  | link (error : LinkError)
  | runtime (failure : Failure)
  | garbledTerminal
deriving DecidableEq

namespace CommandError

def message : CommandError → String
  | load error => error.message
  | link error => error.message
  | runtime failure => failure.message
  | garbledTerminal => "terminal I/O failed: " ++ garbledLineMessage

/-- The lines that report an error; a failure is followed by the calls it happened in. -/
def lines : CommandError → List String
  | runtime failure =>
    ("Error: " ++ failure.message) ::
      failure.backtrace.map fun site ↦ "  called from " ++ site.describe
  | error => ["Error: " ++ error.message]

end CommandError

def unlines (lines : List String) : String :=
  String.join (lines.map (· ++ "\n"))

namespace Report

def ofError (error : CommandError) : Report :=
  ⟨"", unlines error.lines, 1⟩

def variableLines (bindings : List (String × Value)) : List String :=
  "Variables:" :: bindings.map fun (name, value) ↦
    "  " ++ name ++ " (" ++ value.kind.keyword ++ ") = " ++ value.display

def padRight (width : Nat) (text : String) : String :=
  text ++ .ofList (List.replicate (width - text.length) ' ')

def padLeft (width : Nat) (text : String) : String :=
  .ofList (List.replicate (width - text.length) ' ') ++ text

def timingLine (label count total mean : String) : String :=
  "  " ++ padRight 10 label ++ " " ++ padLeft 8 count ++ " " ++ padLeft 14 total ++ " " ++
    padLeft 14 mean

/-- A count of nanoseconds in a unit of `10 ^ places` of them, without superfluous zeros. -/
def inUnit (nanoseconds places : Nat) (unit : String) : String :=
  let padded := (Nat.toDigits 10 (Nat.pow 10 places + nanoseconds % Nat.pow 10 places)).drop 1
  let fraction := (padded.reverse.dropWhile (· == '0')).reverse
  let whole := toString (nanoseconds / Nat.pow 10 places)
  (if fraction.isEmpty then whole else whole ++ "." ++ .ofList fraction) ++ unit

/-- A duration in the largest unit of which it is at least one. -/
def duration (nanoseconds : Nat) : String :=
  if Nat.pow 10 9 ≤ nanoseconds then inUnit nanoseconds 9 "s"
  else if Nat.pow 10 6 ≤ nanoseconds then inUnit nanoseconds 6 "ms"
  else if Nat.pow 10 3 ≤ nanoseconds then inUnit nanoseconds 3 "µs"
  else inUnit nanoseconds 0 "ns"

def timingLines (rows : List TimingRow) (steps : Nat) : List String :=
  ("Timings (" ++ toString steps ++ " steps):") ::
    timingLine "statement" "count" "total" "mean" ::
    rows.map fun row ↦
      timingLine row.label (toString row.count) (duration row.total) (duration row.mean)

end Report

end LineScript
