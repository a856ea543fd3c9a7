import LineScript.Program.Link

/-!
# Lines of words

A program may also be given as lines that are split into words already. Each word comes with the
place it was found at; a statement stands where its keyword does. A line without words holds no
statement.
-/

namespace LineScript

/-- A word, and where it was found. -/
structure Word where
  text : String
  file : String
  line : Nat
deriving DecidableEq, Repr

/-- The statement that a line of words holds, unless it has no words. -/
def Statement.ofWords? : List Word → Option Statement
  | [] => none
  | keyword :: operands =>
    some ⟨keyword.file, keyword.line, keyword.text, operands.map fun word ↦ word.text⟩

def statementsOfLines (lines : List (List Word)) : List Statement :=
  lines.filterMap Statement.ofWords?

def linkLines (lines : List (List Word)) : Except LinkError Linked :=
  link (statementsOfLines lines)

end LineScript
