import LineScript.Machine.Machine

/-!
# Options of a run

The arguments after `run`: one path, and options in any order. An argument that starts with `-` is
an option. Reading stops at the first argument that is at fault; only when none is may the path
turn out to be missing.
-/

namespace LineScript

structure RunOptions where
  /-- Wait for a line after each statement. -/
  debug : Bool
  /-- Log each statement. -/
  trace : Bool
  /-- Show the variables after the run. -/
  dump : Bool
  /-- Show timings after the run. -/
  time : Bool
  /-- Log the phases of the run. -/
  verbose : Bool
  maxCallDepth : Option Nat
deriving DecidableEq, Repr

/-- Why the arguments of a run are refused. -/
inductive ArgumentError where
  | invalidDepth (text : String)
  | unknownOption (argument : String)
  | unexpected (argument : String)
  | missingPath
deriving DecidableEq, Repr

def ArgumentError.message : ArgumentError → String
  | invalidDepth text => "invalid call depth '" ++ text ++ "'"
  | unknownOption argument => "unknown option '" ++ argument ++ "'"
  | unexpected argument => "unexpected argument '" ++ argument ++ "'"
  | missingPath => "missing file path"

namespace RunOptions

def none : RunOptions :=
  ⟨false, false, false, false, false, .none⟩

def machineOptions (options : RunOptions) : MachineOptions :=
  ⟨options.maxCallDepth, options.time⟩

def logFilter (options : RunOptions) : String :=
  match options.verbose, options.trace with
  | true, true => "debug,lino_eval=trace"
  | false, true => "warn,lino_eval=trace"
  | true, false => "debug"
  | false, false => "warn"

def largestDepth : Nat := 0xFFFFFFFFFFFFFFFF

def depthOption : String := "--max-depth="

/-- Reads a call depth: digits, perhaps after a plus. -/
def readDepth? (text : String) : Option Nat :=
  let digits := match text.toList with
    | '+' :: rest => rest
    | all => all
  if digits.isEmpty || !digits.all Char.isDigit then .none
  else
    let depth := Decimal.ofDigits digits
    if depth ≤ largestDepth then some depth else .none

def depthText? (argument : String) : Option String :=
  if depthOption.toList.isPrefixOf argument.toList then
    some (.ofList (argument.toList.drop depthOption.length))
  else .none

/-- Takes one argument into account; the path is the first argument that is no option. -/
def addArgument (state : Option String × RunOptions) (argument : String) :
    Except ArgumentError (Option String × RunOptions) :=
  let (path, options) := state
  match argument with
  | "-v" | "--verbose" => .ok (path, { options with verbose := true })
  | "-d" | "--debug" => .ok (path, { options with debug := true })
  | "-t" | "--trace" => .ok (path, { options with trace := true })
  | "--time" => .ok (path, { options with time := true })
  | "-p" | "--dump" => .ok (path, { options with dump := true })
  | _ =>
    match depthText? argument with
    | some text =>
      match readDepth? text with
      | some depth => .ok (path, { options with maxCallDepth := some depth })
      | .none => .error (.invalidDepth text)
    | .none =>
      if argument.toList.head? = some '-' then .error (.unknownOption argument)
      else if path.isSome then .error (.unexpected argument)
      else .ok (some argument, options)

def ofArguments (arguments : List String) : Except ArgumentError (String × RunOptions) := do
  match ← arguments.foldlM addArgument (.none, RunOptions.none) with
  | (some path, options) => return (path, options)
  | (.none, _) => .error .missingPath

end RunOptions

end LineScript
