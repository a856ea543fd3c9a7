import LineScript.Machine.Input

/-!
# Reading line by line

What is typed arrives in lines. A reader keeps the pieces of the lines that it has read until they
are asked for. Only when none is left does it read on, line after line, until a line holds a piece
or there are no more lines.
-/

namespace LineScript

/-- Cuts a list after the first element that satisfies a test; without one, nothing is left. -/
def cutAfter {α : Type} (isLast : α → Bool) (list : List α) : List α × List α :=
  let rest := list.dropWhile (!isLast ·)
  (list.takeWhile (!isLast ·) ++ rest.take 1, rest.drop 1)

theorem length_cutAfter_lt {α : Type} (isLast : α → Bool) {list : List α} (h : list ≠ []) :
    (cutAfter isLast list).2.length < list.length := by
  have hsplit := congrArg List.length
    (List.takeWhile_append_dropWhile (p := (!isLast ·)) (l := list))
  have hpos := List.length_pos_iff.2 h
  rw [List.length_append] at hsplit
  simp only [cutAfter, List.length_drop]
  omega

/-- Reads a line: the bytes up to a line feed, which belongs to it, or to the end. -/
def readLine (bytes : List UInt8) : List UInt8 × List UInt8 :=
  cutAfter (· == 10) bytes

/-- Input of which some lines were read: their pieces that are left, and the bytes behind them. -/
structure LineReader where
  pending : Input
  unread : List UInt8
deriving DecidableEq, Repr

namespace LineReader

def ofBytes (bytes : List UInt8) : LineReader :=
  ⟨⟨[]⟩, bytes⟩

/-- Takes the next piece, if there is one, and reads as many lines as it takes. -/
def next (reader : LineReader) : Option InputPiece × LineReader :=
  match reader.pending.next with
  | (some piece, pending) => (some piece, { reader with pending })
  | (none, pending) =>
    if _more : reader.unread = [] then (none, reader)
    else
      let line := readLine reader.unread
      next ⟨pending.feedLine line.1, line.2⟩
termination_by reader.unread.length
decreasing_by exact length_cutAfter_lt _ _more

end LineReader

end LineScript
