/-!
# Positions of statements

A linked program is a sequence of nodes, and a node is named by its position. Linking counts
positions without bound. What is handed over from outside is a 32-bit quantity, and a larger number
stands for the last position; a program with no more nodes than that has no use for larger ones.
-/

namespace LineScript

abbrev NodeId := Nat

namespace NodeId

/-- The last position. -/
def last : NodeId := 0xFFFFFFFF

/-- The position that a number stands for. -/
def ofNat (number : Nat) : NodeId :=
  min number last

/-- How a position is written. -/
def label (id : NodeId) : String :=
  "#" ++ toString id

end NodeId

end LineScript
