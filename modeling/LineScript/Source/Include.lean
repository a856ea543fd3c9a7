import LineScript.File.Path
import LineScript.Source.Statement

/-!
# Including files

A line `include path` stands for the statements of another file, whose path is seen from the
directory of the including file. A file that cannot be read is left out without complaint; a file
that includes itself, directly or through others, is an error.

Files are told apart by an identity, since one file may be spelled in many ways. The expansion
keeps the identities of the files that it is inside of, and a file that is among them includes
itself. There are finitely many identities, and each file that is entered is a new one, which is
why the expansion ends.
-/

namespace LineScript

inductive ReadFault where
  | notFound
  | notDirectory
  | isDirectory
  | nameTooLong
  | zeroInPath
  | notText
  | other (message : String)
deriving DecidableEq, Repr

def ReadFault.message : ReadFault → String
  | notFound => "No such file or directory (os error 2)"
  | notDirectory => "Not a directory (os error 20)"
  | isDirectory => "Is a directory (os error 21)"
  | nameTooLong => "File name too long (os error 36)"
  | zeroInPath => "file name contained an unexpected NUL byte"
  | notText => "stream did not contain valid UTF-8"
  | other message => message

/-- A file that was read: which file it is, and its text. -/
structure Document where
  identity : String
  text : String
deriving DecidableEq, Repr

/-- The files that a path may lead to: finitely many, though a file may have many paths. -/
structure Files where
  read : String → Except ReadFault Document
  identities : List String
  identity_mem : ∀ path document, read path = .ok document → document.identity ∈ identities

def identity? (read : Except ReadFault Document) : Option String :=
  match read with
  | .ok document => some document.identity
  | .error _ => none

/-- The files that a table lists by path; of two entries for one path the first counts. -/
def Files.ofTable (table : List (String × Except ReadFault Document)) : Files where
  read path := (table.lookup path).getD (.error .notFound)
  identities := table.filterMap fun (_, read) ↦ identity? read
  identity_mem := by
    intro path document h
    cases found : table.lookup path with
    | none => simp [found] at h
    | some read =>
      obtain ⟨before, after, same, -⟩ := List.lookup_eq_some_iff.1 found
      simp only [found, Option.getD_some] at h
      simp [same, h, identity?]

/-- Why the statements of a file could not be had. -/
inductive LoadError where
  | unreadable (path : String) (fault : ReadFault)
  | empty (path : String)
  | cycle (path : String)
deriving DecidableEq, Repr

def LoadError.message : LoadError → String
  | unreadable path fault => "cannot read '" ++ path ++ "': " ++ fault.message
  | empty path => "no statements found in '" ++ path ++ "', is the file empty?"
  | cycle path => "'" ++ path ++ "' includes itself"

def includeKeyword : String := "include"

/-- What a line of a file stands for. -/
inductive SourceItem where
  | statement (s : Statement)
  | inclusion (path : String)
deriving DecidableEq, Repr

/-- The path that an `include` line names: all that follows the keyword, blanks around it aside. -/
def includedPath? (text : List Char) : Option (List Char) :=
  match wordsOf text with
  | keyword :: _ :: _ =>
    if keyword = includeKeyword.toList then
      some (trimBlanks ((trimBlanksLeft text).drop keyword.length))
    else none
  | _ => none

def SourceItem.ofLine? (file : String) (line : Nat) (text : List Char) : Option SourceItem :=
  match includedPath? text with
  | some path => some (.inclusion (Path.beside file (.ofList path)))
  | none => (Statement.ofLine? file line text).map .statement

def sourceItems (file text : String) : List SourceItem :=
  (numberedLines text).filterMap fun (content, line) ↦ SourceItem.ofLine? file line content

/-- The identities of the files that the expansion is not inside of. -/
def Files.outside (files : Files) (active : List String) : List String :=
  files.identities.filter fun identity ↦ !active.contains identity

theorem Files.length_outside_lt {files : Files} {active : List String} {identity : String}
    (known : identity ∈ files.identities) (new : identity ∉ active) :
    (files.outside (identity :: active)).length < (files.outside active).length := by
  have smaller : files.outside (identity :: active) =
      (files.outside active).filter fun other ↦ decide (other ≠ identity) := by
    rw [outside, outside, List.filter_filter]
    apply List.filter_congr
    simp
  rw [smaller]
  exact List.length_filter_lt_length_iff_exists.2 ⟨identity, by simp [outside, known, new]⟩

/--
Replaces each inclusion by the statements of its file; the files whose identities are `active` are
being expanded.
-/
def expand (files : Files) (active : List String) :
    List SourceItem → Except LoadError (List Statement)
  | [] => .ok []
  | .statement s :: items => do
    let rest ← expand files active items
    return s :: rest
  | .inclusion path :: items =>
    match _read : files.read path with
    | .error _ => expand files active items
    | .ok document =>
      if document.identity ∈ active then .error (.cycle path)
      else do
        let included ← expand files (document.identity :: active) (sourceItems path document.text)
        let rest ← expand files active items
        return included ++ rest
termination_by items => ((files.outside active).length, items.length)
decreasing_by
  all_goals simp_wf
  · exact .right _ (by simp)
  · exact .right _ (by simp)
  · exact .left _ _ (Files.length_outside_lt (files.identity_mem path document _read) ‹_›)
  · exact .right _ (by simp)

/-- An inclusion of a file that cannot be read is left out. -/
theorem expand_of_error {files : Files} {active : List String} {path : String}
    {items : List SourceItem} {fault : ReadFault} (read : files.read path = .error fault) :
    expand files active (.inclusion path :: items) = expand files active items := by
  rw [expand]
  split
  · rfl
  · rename_i document readable
    simp [read] at readable

/-- An inclusion of a file that can be read is replaced by its statements, or is an error. -/
theorem expand_of_ok {files : Files} {active : List String} {path : String}
    {items : List SourceItem} {document : Document} (read : files.read path = .ok document) :
    expand files active (.inclusion path :: items) =
      if document.identity ∈ active then .error (.cycle path)
      else do
        let included ← expand files (document.identity :: active) (sourceItems path document.text)
        let rest ← expand files active items
        return included ++ rest := by
  rw [expand]
  split
  · rename_i fault unreadable
    simp [read] at unreadable
  · rename_i found readable
    rw [read] at readable
    cases readable
    rfl

/-- The statements of a file and of the files it includes; there must be at least one. -/
def load (files : Files) (path : String) : Except LoadError (List Statement) :=
  match files.read path with
  | .error fault => .error (.unreadable path fault)
  | .ok document => do
    let statements ← expand files [document.identity] (sourceItems path document.text)
    if statements.isEmpty then .error (.empty path) else .ok statements

end LineScript
