import LineScript.CommandLine.Command

/-!
# The command line

The outermost layer: it reads files and lines, shows what a session wrote as soon as it was
written, and measures how long statements take. What is read and shown is decided elsewhere.
-/

namespace LineScript.Terminal

/-- The number of a system error, which some calls report with its sign changed. -/
def errorNumber (code : UInt32) : Nat :=
  if 0x80000000 ≤ code.toNat then 0x100000000 - code.toNat else code.toNat

def faultOfNumber (error : IO.Error) : Nat → ReadFault
  | 2 => .notFound
  | 13 => .other "Permission denied (os error 13)"
  | 20 => .notDirectory
  | 21 => .isDirectory
  | 22 => .zeroInPath
  | 36 => .nameTooLong
  | _ => .other (toString error)

/-- What the system said about a file that could not be read. -/
def readFault (error : IO.Error) : ReadFault :=
  match error with
  | .noFileOrDirectory _ code _ | .inappropriateType _ code _ | .resourceExhausted _ code _
  | .invalidArgument _ code _ | .permissionDenied _ code _ | .otherError code _ =>
    faultOfNumber error (errorNumber code)
  | _ => .other (toString error)

def readDocument (path : String) : IO (Except ReadFault Document) := do
  try
    let content ← IO.FS.readBinFile path
    match String.fromUTF8? content with
    | none => return .error .notText
    | some text => return .ok ⟨toString (← IO.FS.realPath path), text⟩
  catch error => return .error (readFault error)

/-- Reads a file and the files it includes, unless it is one of those being read. -/
partial def gather (active : List String) (table : List (String × Except ReadFault Document))
    (path : String) : IO (List (String × Except ReadFault Document)) := do
  let read ← readDocument path
  let table := (path, read) :: table
  match read with
  | .error _ => return table
  | .ok document =>
    if active.contains document.identity then return table
    (sourceItems path document.text).foldlM
      (fun table item ↦
        match item with
        | .inclusion included => gather (document.identity :: active) table included
        | .statement _ => return table)
      table

/--
Reads the rest of a line, of which the bytes read so far are given, with its line feed; nothing at
the end of the input. One byte is asked for at a time, since more might not come before an answer.
-/
partial def readLine? (stream : IO.FS.Stream) (line : ByteArray) :
    IO (Option (List UInt8)) := do
  let bytes ← stream.read 1
  if bytes.isEmpty then return if line.isEmpty then none else some line.toList
  let line := line ++ bytes
  if bytes.toList = [10] then return some line.toList
  readLine? stream line

/-- Shows what a session wrote since it was last shown. -/
def shown (session : Session) : IO Session := do
  let written := session.machine.output.contents
  unless written.isEmpty do
    let stdout ← IO.getStdout
    stdout.putStr written
    stdout.flush
  unless session.prompts.isEmpty do
    let stderr ← IO.getStderr
    stderr.putStr session.prompts
    stderr.flush
  let machine := { session.machine with output := session.machine.output.clear }
  return { session with machine, prompts := "" }

def finish (report : Report) : IO UInt32 := do
  IO.print report.stdout
  IO.eprint report.stderr
  return report.status

/-- Runs a session to its end. -/
partial def drive (stdin : IO.FS.Stream) (inputOpen : Bool) (unseen : Session) : IO UInt32 := do
  let session ← shown unseen
  match session.report? with
  | some report => finish report
  | none =>
    match session.stage, session.machine.starved? session.program with
    | .waiting, _ =>
      let pause := (← readLine? stdin .empty).map Session.pauseOfLine
      drive stdin inputOpen (session.resume pause)
    | _, some machine =>
      if inputOpen then
        let session ← shown { session with machine }
        match ← readLine? stdin .empty with
        | some line =>
          let machine := { session.machine with input := session.machine.input.feedLine line }
          drive stdin true { session with machine }
        | none => drive stdin false session
      else advance session
    | _, none => advance session
where
  /-- Runs a statement and measures it. -/
  advance (session : Session) : IO UInt32 := do
    let begun ← IO.monoNanosNow
    let tried ← IO.lazyPure fun _ ↦ session.machine.tryCurrent session.program
    let ended ← IO.monoNanosNow
    drive stdin inputOpen (session.settle (ended - begun) tried)

end LineScript.Terminal

open LineScript in
def main (arguments : List String) : IO UInt32 := do
  let command := Command.ofArguments arguments
  let table ← match command.path? with
    | some path => Terminal.gather [] [] path
    | none => pure []
  match command.perform (.ofTable table) ⟨[]⟩ with
  | .done report => Terminal.finish report
  | .opened session => Terminal.drive (← IO.getStdin) true session
