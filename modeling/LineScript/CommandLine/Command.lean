import LineScript.CommandLine.Session

/-!
# Commands

The commands of the interpreter. `Command.ofArguments` says what the arguments ask for, and
`Command.perform` does it: most commands are done at once and leave a report, and `run` opens a
session.
-/

namespace LineScript

inductive Command where
  | help
  | version
  | run (path : String) (options : RunOptions)
  | refusedRun (error : ArgumentError)
  | check (path : String)
  | list (path : String)
  | missingPath (command : String)
  | unknown (word : String)
deriving DecidableEq, Repr

inductive Performance where
  | done (report : Report)
  | opened (session : Session)

namespace Command

def programExtension : String := "lino"

/-- What the arguments ask for; a path with the extension of programs asks to run it. -/
def ofArguments : List String → Command
  | [] => .help
  | word :: arguments =>
    match word, arguments with
    | "run", _ =>
      match RunOptions.ofArguments arguments with
      | .ok (path, options) => .run path options
      | .error error => .refusedRun error
    | "check", path :: _ => .check path
    | "lex", path :: _ => .list path
    | "check", [] | "lex", [] => .missingPath word
    | "help", _ | "--help", _ | "-h", _ => .help
    | "version", _ | "--version", _ => .version
    | _, _ =>
      if Path.hasExtension word programExtension then .run word .none else .unknown word

def path? : Command → Option String
  | run path _ | check path | list path => some path
  | _ => none

def helpText : String :=
  unlines [
    "Lino interpreter",
    "",
    "Usage: lino <command> [options]",
    "",
    "Commands:",
    "  run <file.lino>      Run a Lino program",
    "  check <file.lino>    Tokenize and link a file (no execution)",
    "  lex <file.lino>      Show tokenized statement lines",
    "  help                 Show this help message",
    "  version              Show version information",
    "",
    "Run options:",
    "  -v, --verbose        Log phase progress",
    "  -d, --debug          Pause before each statement",
    "  -t, --trace          Trace every executed statement",
    "  --time               Print per-statement timings",
    "  -p, --dump           Print visible variables after the run",
    "  --max-depth=<n>      Limit nested calls",
    "",
    "A bare path ending in .lino is run directly.",
    "RUST_LOG overrides the log filter."]

def runUsage : String :=
  "Usage: lino run <file.lino> [-v] [-d] [-t] [--time] [-p]"

def loadAndLink (files : Files) (path : String) : Except CommandError Linked := do
  let statements ← (load files path).mapError .load
  (link statements).mapError .link

/-- The number of statements of a program, if it can be linked. -/
def countStatements (files : Files) (path : String) : Except CommandError Nat :=
  (loadAndLink files path).map fun linked ↦ linked.program.size

/-- The listing of a program's statements, with a headline. -/
def listing (files : Files) (path : String) : Except CommandError String := do
  let statements ← (load files path).mapError .load
  return "Statements for '" ++ path ++ "' (" ++ toString statements.length ++ " lines):\n" ++
    listStatements statements

def reportOf : Except CommandError String → Report
  | .ok text => ⟨text, "", 0⟩
  | .error error => .ofError error

/-- Does what a command asks for, with the files there are and the input of a run. -/
def perform (files : Files) (input : Input) : Command → Performance
  | help => .done ⟨helpText, "", 0⟩
  | version => .done ⟨"Lino 0.1.0\n", "", 0⟩
  | run path options =>
    match loadAndLink files path with
    | .ok linked => .opened (.start linked options input)
    | .error error => .done (.ofError error)
  | refusedRun error => .done ⟨"", unlines ["error: " ++ error.message, runUsage], 1⟩
  | check path =>
    .done (reportOf ((countStatements files path).map fun count ↦
      "ok: " ++ toString count ++ " statements\n"))
  | list path => .done (reportOf (listing files path))
  | missingPath command => .done ⟨"", "Usage: lino " ++ command ++ " <file.lino>\n", 1⟩
  | unknown word => .done ⟨helpText, unlines ["Unknown command: " ++ word, ""], 1⟩

end Command

end LineScript
