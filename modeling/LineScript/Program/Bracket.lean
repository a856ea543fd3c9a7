/-!
# Brackets

Blocks are opened and closed by statements, as brackets are. A scan that counts how many brackets
are open finds the bracket that closes a block; the same scan backwards, with the two kinds of
brackets exchanged, finds the one that opens it.
-/

namespace LineScript

/-- What a statement does to the nesting of blocks. -/
inductive Bracket where
  | opens
  | closes
  | plain
deriving DecidableEq, Repr

namespace Bracket

/-- The bracket as it is seen from the other side. -/
def flip : Bracket → Bracket
  | opens => closes
  | closes => opens
  | plain => plain

/-- The distance to the bracket that closes a block with `depth` open blocks inside it. -/
def distance? (depth : Nat) : List Bracket → Option Nat
  | [] => none
  | opens :: rest => (distance? (depth + 1) rest).map (· + 1)
  | plain :: rest => (distance? depth rest).map (· + 1)
  | closes :: rest =>
    match depth with
    | 0 => some 0
    | inner + 1 => (distance? inner rest).map (· + 1)

/-- The position of the bracket that closes the block opened at a position. -/
def closing? (brackets : List Bracket) (header : Nat) : Option Nat :=
  (distance? 0 (brackets.drop (header + 1))).map (header + 1 + ·)

/-- The position of the bracket that opens the block closed at a position. -/
def opening? (brackets : List Bracket) (close : Nat) : Option Nat :=
  (distance? 0 ((brackets.take close).reverse.map flip)).map (close - 1 - ·)

end Bracket

end LineScript
