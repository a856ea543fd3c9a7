import LineScript.Number.Binary64

/-!
# Numbers with six places

The printable form of a number is the nearest multiple of a millionth, a half going to the even
multiple, written without superfluous zeros: `5`, `2.5`, `0.333333`. A number that rounds to zero
is written `0`, whatever its sign.
-/

namespace LineScript.SixPlaces

def places : Nat := 6

/-- How many millionths are nearest to `mantissa * 2 ^ exponent`. -/
def millionths (mantissa : Nat) (exponent : Int) : Nat :=
  roundHalfEven (mantissa * Nat.pow 2 exponent.toNat * Nat.pow 10 places)
    (Nat.pow 2 (-exponent).toNat)

/-- The digits of a remainder of a million, zeros in front included and zeros behind left out. -/
def fractionDigits (rest : Nat) : List Char :=
  let padded := (Nat.toDigits 10 (Nat.pow 10 places + rest)).drop 1
  (padded.reverse.dropWhile (· == '0')).reverse

/-- Writes a count of millionths as a decimal. -/
def ofMillionths (count : Nat) : List Char :=
  let whole := Nat.toDigits 10 (count / Nat.pow 10 places)
  match fractionDigits (count % Nat.pow 10 places) with
  | [] => whole
  | fraction => whole ++ '.' :: fraction

/-- The printable form of a number. -/
def render (x : Float) : String :=
  match Binary64.decode x with
  | .nan => "NaN"
  | .infinite negative => if negative then "-inf" else "inf"
  | .finite negative mantissa exponent =>
    let count := millionths mantissa exponent
    let text := ofMillionths count
    .ofList (if negative && count != 0 then '-' :: text else text)

end LineScript.SixPlaces
