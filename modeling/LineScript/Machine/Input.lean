import LineScript.Text.Lines
import LineScript.Text.Words

/-!
# Input

An `in` statement reads one word. The input is the sequence of the words that are still to be
read, in which a line that is not valid UTF-8 stands as one garbled piece. It does not matter to a
reader how the words are spread over lines.
-/

namespace LineScript

inductive InputPiece where
  | word (word : String)
  | garbled
deriving DecidableEq, Repr

/-- What is still to be read. -/
structure Input where
  pieces : List InputPiece
deriving DecidableEq, Repr

namespace Input

def ofText (text : String) : Input :=
  ⟨(words text).map .word⟩

def piecesOfLine (line : List UInt8) : List InputPiece :=
  match String.fromUTF8? ⟨line.toArray⟩ with
  | some text => (words text).map .word
  | none => [.garbled]

def linesOfBytes (bytes : List UInt8) : List (List UInt8) :=
  splitAfter (· == 10) bytes

/-- The pieces of bytes that are read line by line. -/
def ofBytes (bytes : List UInt8) : Input :=
  ⟨(linesOfBytes bytes).flatMap piecesOfLine⟩

/-- The input with one more line at its end. -/
def feedLine (input : Input) (line : List UInt8) : Input :=
  ⟨input.pieces ++ piecesOfLine line⟩

def next (input : Input) : Option InputPiece × Input :=
  match input.pieces with
  | [] => (none, input)
  | piece :: rest => (some piece, ⟨rest⟩)

end Input

end LineScript
