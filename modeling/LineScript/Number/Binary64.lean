/-!
# Binary64 numbers as exact quantities

A number of the language is a 64-bit binary floating point value. Everything that is said about
its digits is said about the exact quantity behind the bits: `decode` reads the bits as a sign, a
mantissa and a power of two, and `nearest` goes the other way, from a quotient of naturals to the
closest value, a half going to the even mantissa. Both work on naturals and integers alone.
-/

namespace LineScript

/-- The whole number nearest to a quotient; a half goes to the even neighbour. -/
def roundHalfEven (numerator denominator : Nat) : Nat :=
  let quotient := numerator / denominator
  let rest := numerator % denominator
  if 2 * rest < denominator then quotient
  else if denominator < 2 * rest then quotient + 1
  else quotient + quotient % 2

namespace Binary64

/-- What the bits of a number stand for; a finite one is `mantissa * 2 ^ exponent`, sign aside. -/
inductive Decoded where
  | nan
  | infinite (negative : Bool)
  | finite (negative : Bool) (mantissa : Nat) (exponent : Int)
deriving DecidableEq, Repr

def fractionBits : Nat := 52

/-- The exponent of the smallest positive number. -/
def leastExponent : Int := -1074

def infinityBits : Nat := 2047 * Nat.pow 2 fractionBits

/-- Reads sign, mantissa and exponent off the bits. -/
def decode (x : Float) : Decoded :=
  let bits : Nat := x.toBits.toNat
  let negative := bits / Nat.pow 2 63 == 1
  let field : Nat := bits / Nat.pow 2 fractionBits % Nat.pow 2 11
  let fraction : Nat := bits % Nat.pow 2 fractionBits
  if field = 2047 then
    if fraction = 0 then .infinite negative else .nan
  else if field = 0 then .finite negative fraction leastExponent
  else .finite negative (Nat.pow 2 fractionBits + fraction) (leastExponent + (field - 1))

/-- The number with a given sign whose other 63 bits are given. -/
def ofMagnitudeBits (negative : Bool) (bits : Nat) : Float :=
  .ofBits (.ofNat ((if negative then Nat.pow 2 63 else 0) + bits))

def zero (negative : Bool) : Float :=
  ofMagnitudeBits negative 0

def infinity (negative : Bool) : Float :=
  ofMagnitudeBits negative infinityBits

/-- The one number that is unordered with every other. -/
def notANumber : Float :=
  ofMagnitudeBits false (infinityBits + Nat.pow 2 51)

/--
The whole part of the binary logarithm of a positive quotient. The logarithms of its two terms
give it up to one; a comparison of the terms, brought to one scale, decides.
-/
def floorLog2 (numerator denominator : Nat) : Int :=
  let estimate : Int := (numerator.log2 : Int) - denominator.log2
  if denominator * Nat.pow 2 estimate.toNat ≤ numerator * Nat.pow 2 (-estimate).toNat
  then estimate
  else estimate - 1

/--
The distance between neighbouring numbers around a positive quotient is `2 ^ spacing`: 53 binary
digits from the leading one on, but never finer than the smallest positive number.
-/
def spacing (numerator denominator : Nat) : Int :=
  max (floorLog2 numerator denominator - fractionBits) leastExponent

/--
The number nearest to a quotient, with a given sign; a half goes to the even mantissa. The fields
are added, not joined: a mantissa that rounds up to the next power of two carries into the
exponent, and a sum past the largest exponent is infinity.
-/
def nearest (negative : Bool) (numerator denominator : Nat) : Float :=
  if numerator = 0 then zero negative
  else
    let exponent := spacing numerator denominator
    let mantissa := roundHalfEven (numerator * Nat.pow 2 (-exponent).toNat)
      (denominator * Nat.pow 2 exponent.toNat)
    ofMagnitudeBits negative
      (min ((exponent - leastExponent).toNat * Nat.pow 2 fractionBits + mantissa) infinityBits)

/--
The remainder of a division truncated toward zero. It is exact: over a common power of two it is
the remainder of two naturals, and it takes the sign of the dividend.
-/
def remainder (x y : Float) : Float :=
  match decode x, decode y with
  | .finite negative m p, .finite _ n q =>
    if n = 0 then notANumber
    else
      let unit := min p q
      let rest := (m * Nat.pow 2 (p - unit).toNat) % (n * Nat.pow 2 (q - unit).toNat)
      nearest negative (rest * Nat.pow 2 unit.toNat) (Nat.pow 2 (-unit).toNat)
  | .finite .., .infinite _ => x
  | _, _ => notANumber

end Binary64

end LineScript
