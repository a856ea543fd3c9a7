/-!
# Paths

A path is a text whose segments are separated by slashes. Empty segments and segments `.` lead
nowhere; only a leading slash and a leading `.` are kept when a path is cut. Paths are not
normalized otherwise: they are shown as they were written.
-/

namespace LineScript.Path

def separator : Char := '/'

def segments (path : List Char) : List (List Char) :=
  path.foldr
    (fun c segs ↦
      match segs with
      | [] => [[c]]
      | seg :: others => if c = separator then [] :: segs else (c :: seg) :: others)
    [[]]

/--
Cuts separators and `.` segments off the end of a path, which is given backwards. A path that is
only a separator, or only a `.`, is left alone.
-/
def trimEnd : List Char → List Char
  | ['/'] => ['/']
  | '/' :: rest => trimEnd rest
  | '.' :: '/' :: rest => trimEnd ('/' :: rest)
  | path => path

def parent (path : List Char) : List Char :=
  (trimEnd (path.reverse.dropWhile (· != separator))).reverse

/-- A path seen from a directory; an absolute one replaces it. -/
def join (directory path : List Char) : List Char :=
  if path.head? = some separator || directory.isEmpty then path
  else if directory.getLast? = some separator then directory ++ path
  else directory ++ separator :: path

/-- The last segment of a path, unless it is `.` or `..` or the path is the root. -/
def fileName? (path : List Char) : Option (List Char) :=
  let name := ((trimEnd path.reverse).takeWhile (· != separator)).reverse
  if name.isEmpty || name == ['.'] || name == ['.', '.'] then none else some name

/-- What follows the last point of a file name; a point that starts the name does not count. -/
def extension? (path : List Char) : Option (List Char) :=
  match fileName? path with
  | none => none
  | some name =>
    let backwards := name.reverse
    match backwards.dropWhile (· != '.') with
    | _ :: _ :: _ => some (backwards.takeWhile (· != '.')).reverse
    | _ => none

/-- A path seen from the directory of a file. -/
def beside (file path : String) : String :=
  .ofList (join (parent file.toList) path.toList)

/-- Whether a path has an extension, letter case aside. -/
def hasExtension (path extension : String) : Bool :=
  (extension? path.toList).any fun found ↦
    found.map Char.toLower == extension.toList.map Char.toLower

end LineScript.Path
