import LineScript.Number.Decimal
import LineScript.Number.SixPlaces
import LineScript.Text.Words

/-!
# Values

A variable holds a number or a text. Its declaration says which of the two, and assignments and
input keep to it.
-/

namespace LineScript

inductive Kind where
  | number
  | text
deriving DecidableEq, Repr

inductive Value where
  | number (value : Float)
  | text (value : String)
deriving DecidableEq

namespace Value

def kind : Value → Kind
  | number _ => .number
  | text _ => .text

def number? : Value → Option Float
  | number value => some value
  | text _ => none

def text? : Value → Option String
  | number _ => none
  | text value => some value

/-- The printable form: a number with at most six places, a text without quotation marks. -/
def display : Value → String
  | number value => SixPlaces.render value
  | text value => unquote value

end Value

namespace Kind

def keyword : Kind → String
  | number => "number"
  | text => "string"

def ofKeyword? (word : String) : Option Kind :=
  if word = number.keyword then some number
  else if word = text.keyword then some text
  else none

/-- The value that a variable of a kind has when it is declared. -/
def zero : Kind → Value
  | number => .number (Binary64.zero false)
  | text => .text ""

@[simp]
theorem kind_zero (kind : Kind) : kind.zero.kind = kind := by
  cases kind <;> rfl

theorem ofKeyword?_keyword (kind : Kind) : ofKeyword? kind.keyword = some kind := by
  cases kind <;> decide

/--
A value brought to a kind, as an argument of a call is: a text becomes a number if, blanks around
it aside, it reads as one, and a number becomes its printable form.
-/
def coerce? (kind : Kind) (value : Value) : Option Value :=
  match kind, value with
  | number, .number _ => some value
  | text, .text _ => some value
  | number, .text content => (Numeral.readFloat? (trimBlanks content.toList)).map .number
  | text, .number content => some (.text (SixPlaces.render content))

end Kind

end LineScript
