import LineScript.Number.Binary64

/-!
# Decimal numerals

A decimal is a natural coefficient and a power of ten; a numeral is a decimal as it is written.
`Numeral.split?` takes the longest numeral off the front of a text: digits, optionally a point and
further digits, optionally an exponent. At least one digit stands before or after the point, and
an exponent mark without digits is not part of the numeral. The expression reader and the reader
of whole words share this grammar; the latter also takes a sign, and the names of the values that
have no digits.
-/

namespace LineScript

/-- The quantity `coefficient * 10 ^ exponent`. -/
structure Decimal where
  coefficient : Nat
  exponent : Int
deriving DecidableEq, Repr

namespace Decimal

/-- The natural number that a run of decimal digits denotes. -/
def ofDigits (digits : List Char) : Nat :=
  digits.foldl (fun value digit ↦ 10 * value + (digit.toNat - '0'.toNat)) 0

/--
The number nearest to a decimal. A power of ten past every number is not computed: from `10 ^ 401`
on the answer is infinity, and where the coefficient leaves less than `2 ^ (-1076)`, which is less
than half of the smallest positive number, it is zero.
-/
def toFloat (negative : Bool) (d : Decimal) : Float :=
  if d.coefficient = 0 then Binary64.zero negative
  else if 400 < d.exponent then Binary64.infinity negative
  else if (d.coefficient.log2 : Int) + 1077 < 3 * -d.exponent then Binary64.zero negative
  else
    Binary64.nearest negative (d.coefficient * Nat.pow 10 d.exponent.toNat)
      (Nat.pow 10 (-d.exponent).toNat)

end Decimal

/-- The exponent of a numeral as it is written: a mark, perhaps a sign, and digits. -/
structure ExponentPart where
  mark : Char
  sign : List Char
  digits : List Char
deriving DecidableEq, Repr

namespace ExponentPart

def text (part : ExponentPart) : List Char :=
  part.mark :: part.sign ++ part.digits

def value (part : ExponentPart) : Int :=
  let size : Int := Decimal.ofDigits part.digits
  if part.sign = ['-'] then -size else size

def splitSign : List Char → List Char × List Char
  | '-' :: rest => (['-'], rest)
  | '+' :: rest => (['+'], rest)
  | text => ([], text)

/-- Splits an exponent off the front of a text; without a digit it is none. -/
def split? : List Char → Option (ExponentPart × List Char)
  | [] => none
  | mark :: afterMark =>
    let (sign, afterSign) := splitSign afterMark
    let digits := afterSign.takeWhile Char.isDigit
    if (mark == 'e' || mark == 'E') && !digits.isEmpty then
      some (⟨mark, sign, digits⟩, afterSign.dropWhile Char.isDigit)
    else none

end ExponentPart

/-- An unsigned decimal as it is written; the point may stand without digits on one side. -/
structure Numeral where
  whole : List Char
  fraction : Option (List Char)
  exponent : Option ExponentPart
deriving DecidableEq, Repr

namespace Numeral

def fractionDigits (numeral : Numeral) : List Char :=
  numeral.fraction.getD []

def text (numeral : Numeral) : List Char :=
  numeral.whole ++ (numeral.fraction.map ('.' :: ·)).getD [] ++
    (numeral.exponent.map ExponentPart.text).getD []

def value (numeral : Numeral) : Decimal where
  coefficient := Decimal.ofDigits (numeral.whole ++ numeral.fractionDigits)
  exponent := (numeral.exponent.map ExponentPart.value).getD 0 - numeral.fractionDigits.length

/-- Splits a point, and the digits after it, off the front of a text. -/
def splitFraction : List Char → Option (List Char) × List Char
  | '.' :: rest => (some (rest.takeWhile Char.isDigit), rest.dropWhile Char.isDigit)
  | text => (none, text)

/-- Splits an exponent off the front of a text, if it starts with one. -/
def splitExponent (text : List Char) : Option ExponentPart × List Char :=
  match ExponentPart.split? text with
  | some (part, rest) => (some part, rest)
  | none => (none, text)

/-- Splits the longest numeral off the front of a text that starts with one. -/
def split? (text : List Char) : Option (Numeral × List Char) :=
  let whole := text.takeWhile Char.isDigit
  let (fraction, afterFraction) := splitFraction (text.dropWhile Char.isDigit)
  let (exponent, rest) := splitExponent afterFraction
  if whole.isEmpty && (fraction.getD []).isEmpty then none
  else some (⟨whole, fraction, exponent⟩, rest)

/-- The numbers that are written by name; upper and lower case do not matter. -/
def named? (negative : Bool) (text : List Char) : Option Float :=
  let name := text.map Char.toLower
  if name == "inf".toList || name == "infinity".toList then some (Binary64.infinity negative)
  else if name == "nan".toList then some Binary64.notANumber
  else none

/-- Reads a whole text as a number: an optional sign, then a numeral or a name. -/
def readFloat? (text : List Char) : Option Float :=
  let (sign, unsigned) := ExponentPart.splitSign text
  let negative := sign == ['-']
  match split? unsigned with
  | some (numeral, []) => some (numeral.value.toFloat negative)
  | some (_, _ :: _) => none
  | none => named? negative unsigned

end Numeral

def readNumber? (word : String) : Option Float :=
  Numeral.readFloat? word.toList

/-- Why a word was refused where a number was asked for. -/
def numberRefusal : String :=
  "invalid float literal"

end LineScript
