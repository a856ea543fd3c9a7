/-!
# Lines

A line ends with a line feed, which belongs to it, or with the text. `splitAfter` cuts a list
after each element that ends a line, so the pieces are never empty and joined they are the list
again. `linesOf` drops the line feed of each line, and a carriage return directly before it.
-/

namespace LineScript

/-- Cuts a list after each element that satisfies a test. -/
def splitAfter {α : Type} (isLast : α → Bool) (list : List α) : List (List α) :=
  list.foldr
    (fun a pieces ↦
      match isLast a, pieces with
      | true, _ => [a] :: pieces
      | false, [] => [[a]]
      | false, piece :: others => (a :: piece) :: others)
    []

/-- Nothing is lost: the pieces, joined, are the list. -/
theorem flatten_splitAfter {α : Type} (isLast : α → Bool) (list : List α) :
    (splitAfter isLast list).flatten = list := by
  induction list with
  | nil => rfl
  | cons a rest ih =>
    simp only [splitAfter, List.foldr_cons] at ih ⊢
    split <;> simp_all

def isLineFeed (c : Char) : Bool :=
  c == '\n'

/-- A line without the line feed at its end, and without a carriage return before that. -/
def dropLineEnd (line : List Char) : List Char :=
  match line.reverse with
  | '\n' :: '\r' :: content => content.reverse
  | '\n' :: content => content.reverse
  | _ => line

/-- The contents of the lines of a text. -/
def linesOf (text : List Char) : List (List Char) :=
  (splitAfter isLineFeed text).map dropLineEnd

end LineScript
