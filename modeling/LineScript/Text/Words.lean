import LineScript.Text.Blank

/-!
# Words

A word is a longest run of characters that are not blank. `wordsOf` lists the words of a text in
order, `trimBlanks` cuts the blanks off both ends, and `joinWords` writes words side by side.
-/

namespace LineScript

/-- Puts a word in front of others, unless it is empty. -/
def consWord (word : List Char) (words : List (List Char)) : List (List Char) :=
  if word.isEmpty then words else word :: words

/--
The words of a text, read from its end: the word that the characters read last belong to, and the
words after it.
-/
def splitFirstWord (text : List Char) : List Char × List (List Char) :=
  text.foldr
    (fun c (word, words) ↦ if isBlank c then ([], consWord word words) else (c :: word, words))
    ([], [])

def wordsOf (text : List Char) : List (List Char) :=
  let (word, words) := splitFirstWord text
  consWord word words

def words (text : String) : List String :=
  (wordsOf text.toList).map .ofList

def trimBlanksLeft (text : List Char) : List Char :=
  text.dropWhile isBlank

def trimBlanks (text : List Char) : List Char :=
  ((trimBlanksLeft text).reverse.dropWhile isBlank).reverse

/-- Words with one space between neighbours. -/
def joinWords (words : List String) : String :=
  " ".intercalate words

/-- A text without its quotation marks. -/
def unquote (text : String) : String :=
  .ofList (text.toList.filter (· != '"'))

def startsQuoted (text : String) : Bool :=
  text.toList.head? == some '"'

/-- Whether the number of quotation marks in a text is odd. -/
def hasOddQuotes (text : String) : Bool :=
  text.toList.count '"' % 2 == 1

end LineScript
