import LineScript.Number.Decimal

/-!
# The fewest digits that read back

Inside expressions a number is written with the fewest digits that still denote it: of all
decimals that round to the number, those with the fewest digits, and of those the one nearest to
it. It is written in plain positional notation, however large or small it is.

The reals that round to `m * 2 ^ q` reach halfway to its neighbours, ends included when `m` is
even. On the grid of `n` digits only the two neighbours of the number itself can be nearest, so
the search asks them, for one digit, two digits, and so on; seventeen always suffice.
-/

namespace LineScript.Shortest

/-- Compares `a * 10 ^ i` with `b * 2 ^ j`. -/
def compareScaled (a : Nat) (i : Int) (b : Nat) (j : Int) : Ordering :=
  compare (a * Nat.pow 10 i.toNat * Nat.pow 2 (-j).toNat)
    (b * Nat.pow 2 j.toNat * Nat.pow 10 (-i).toNat)

/-- Whether a decimal is among the reals that round to `mantissa * 2 ^ exponent`. -/
def readsBack (mantissa : Nat) (exponent : Int) (d : Decimal) : Bool :=
  let belowIsNarrow :=
    mantissa == Nat.pow 2 Binary64.fractionBits && exponent != Binary64.leastExponent
  let low := 4 * mantissa - (if belowIsNarrow then 1 else 2)
  let fromLow := compareScaled d.coefficient d.exponent low (exponent - 2)
  let fromHigh := compareScaled d.coefficient d.exponent (4 * mantissa + 2) (exponent - 2)
  if mantissa % 2 == 0 then fromLow.isGE && fromHigh.isLE else fromLow.isGT && fromHigh.isLT

/--
The least power of ten above a positive number. The binary logarithm gives it up to two, and
comparisons decide.
-/
def scale (mantissa : Nat) (exponent : Int) : Int :=
  let estimate := ((mantissa.log2 : Int) + exponent) * 30103 / 100000
  let candidates := (List.range 4).map fun (step : Nat) ↦ estimate + step
  (candidates.find? fun k ↦ (compareScaled 1 k mantissa exponent).isGT).getD (estimate + 4)

/-- The two neighbours of a number on the grid of multiples of `10 ^ unit`, the lower one first. -/
def neighbours (mantissa : Nat) (exponent unit : Int) : Decimal × Decimal :=
  let below := mantissa * Nat.pow 2 exponent.toNat * Nat.pow 10 (-unit).toNat /
    (Nat.pow 2 (-exponent).toNat * Nat.pow 10 unit.toNat)
  (⟨below, unit⟩, ⟨below + 1, unit⟩)

/-- Of two neighbours on a grid the nearer one; a half goes to the upper one. -/
def nearer (mantissa : Nat) (exponent : Int) (lower upper : Decimal) : Decimal :=
  if (compareScaled (lower.coefficient + upper.coefficient) lower.exponent mantissa
    (exponent + 1)).isGT then lower else upper

/-- The decimal with at most a given number of digits that reads back, if there is one. -/
def withDigits? (mantissa : Nat) (exponent : Int) (digits : Nat) : Option Decimal :=
  let (lower, upper) := neighbours mantissa exponent (scale mantissa exponent - digits)
  match readsBack mantissa exponent lower, readsBack mantissa exponent upper with
  | true, true => some (nearer mantissa exponent lower upper)
  | true, false => some lower
  | false, true => some upper
  | false, false => none

/-- The decimal that is written for a positive number. -/
def select (mantissa : Nat) (exponent : Int) : Decimal :=
  let lengths := (List.range 17).map (· + 1)
  (lengths.findSome? (withDigits? mantissa exponent)).getD
    ⟨mantissa * Nat.pow 2 exponent.toNat * Nat.pow 5 (-exponent).toNat, min exponent 0⟩

/-- Writes a positive decimal without an exponent. -/
def positional (d : Decimal) : List Char :=
  let digits := Nat.toDigits 10 d.coefficient
  let places := (-d.exponent).toNat
  let padded := List.replicate (places + 1 - digits.length) '0' ++ digits ++
    List.replicate d.exponent.toNat '0'
  let fraction := ((padded.drop (padded.length - places)).reverse.dropWhile (· == '0')).reverse
  let whole := padded.take (padded.length - places)
  if fraction.isEmpty then whole else whole ++ '.' :: fraction

/-- The text of a number with the fewest digits that read back. -/
def render (x : Float) : String :=
  match Binary64.decode x with
  | .nan => "NaN"
  | .infinite negative => if negative then "-inf" else "inf"
  | .finite negative mantissa exponent =>
    let text := if mantissa = 0 then ['0'] else positional (select mantissa exponent)
    .ofList (if negative then '-' :: text else text)

end LineScript.Shortest
