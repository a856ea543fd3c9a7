import LineScript.Text.Lines
import LineScript.Text.Words

/-!
# Statements

A program is a sequence of statements, one to a line: a keyword and its operand words, with the
file and the line that they come from. Blank lines and lines whose first character that is not
blank is `#` hold no statement.
-/

namespace LineScript

/-- One statement as it is written. -/
structure Statement where
  file : String
  line : Nat
  keyword : String
  operands : List String
deriving DecidableEq, Repr

namespace Statement

def words (s : Statement) : List String :=
  s.keyword :: s.operands

def ofLine? (file : String) (line : Nat) (text : List Char) : Option Statement :=
  match wordsOf text with
  | [] => none
  | keyword :: operands =>
    if keyword.head? = some '#' then none
    else some ⟨file, line, .ofList keyword, operands.map .ofList⟩

/-- A statement as it is listed: where it comes from, then its words. -/
def listing (s : Statement) : String :=
  s.file ++ ":" ++ toString s.line ++ ": " ++ joinWords s.words

end Statement

/-- Lines of a text with their numbers, counted from one. -/
def numberedLines (text : String) : List (List Char × Nat) :=
  (linesOf text.toList).zipIdx 1

/-- The statements of a text, recorded as coming from a file of a given name. -/
def statementsOf (file text : String) : List Statement :=
  (numberedLines text).filterMap fun (content, line) ↦ Statement.ofLine? file line content

/-- The listing of a program, a statement to a line. -/
def listStatements (statements : List Statement) : String :=
  String.join (statements.map fun s ↦ s.listing ++ "\n")

end LineScript
