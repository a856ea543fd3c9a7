import LineScript.Source.Include

/-!
# Directory trees

A directory tree in memory: files with their bytes, and directories, each named by the segments
that lead to it. `FileTree.find` follows a path from the root of the tree, which is the working
directory, and faults as a file system does. Nothing is known of what lies above the root but that
it consists of directories.
-/

namespace LineScript

/-- Files and directories, by the segments that lead to them. -/
structure FileTree where
  files : List (List String × ByteArray)
  directories : List (List String)

/-- Where a path leads: to a place in the tree, or above its root. -/
inductive Place where
  | inside (segments : List String)
  | above
deriving DecidableEq, Repr

namespace FileTree

/-- The segments of a path that lead somewhere. -/
def steps (path : String) : List String :=
  ((Path.segments path.toList).map String.ofList).filter fun segment ↦
    segment != "" && segment != "."

/-- The tree with given files and directories, and the directories on the way to them. -/
def ofPaths (files : List (String × ByteArray)) (directories : List String) : FileTree where
  files := files.map fun (path, content) ↦ (steps path, content)
  directories := directories.map steps

def longestName : Nat := 255

def longestPath : Nat := 4095

def bytes? (tree : FileTree) (segments : List String) : Option ByteArray :=
  tree.files.lookup segments

/-- Whether a place is a directory: one that was named, or one on the way to something. -/
def isDirectory (tree : FileTree) : Place → Bool
  | .above => true
  | .inside segments =>
    segments.isEmpty || tree.directories.any (segments.isPrefixOf ·) ||
      tree.files.any fun (file, _) ↦ segments.isPrefixOf file && segments != file

/-- The place one segment further on. -/
def enter (tree : FileTree) (place : Place) (segment : String) : Except ReadFault Place :=
  if !tree.isDirectory place then .error .notDirectory
  else if segment = "" || segment = "." then .ok place
  else if segment = ".." then
    match place with
    | .inside (first :: others) => .ok (.inside (first :: others).dropLast)
    | _ => .ok .above
  else if longestName < segment.utf8ByteSize then .error .nameTooLong
  else
    match place with
    | .above => .error .notFound
    | .inside segments =>
      let next := Place.inside (segments ++ [segment])
      if tree.isDirectory next || (tree.bytes? (segments ++ [segment])).isSome then .ok next
      else .error .notFound

def find (tree : FileTree) (path : String) : Except ReadFault Place :=
  if path.toList.contains '\x00' then .error .zeroInPath
  else if path = "" then .error .notFound
  else if longestPath < path.utf8ByteSize then .error .nameTooLong
  else
    let start := if path.toList.head? = some Path.separator then .above else .inside []
    ((Path.segments path.toList).map .ofList).foldlM tree.enter start

def read (tree : FileTree) (path : String) : Except ReadFault Document :=
  match tree.find path with
  | .error fault => .error fault
  | .ok .above => .error .isDirectory
  | .ok (.inside segments) =>
    match tree.bytes? segments with
    | none => .error .isDirectory
    | some content =>
      match String.fromUTF8? content with
      | none => .error .notText
      | some text => .ok ⟨"/".intercalate segments, text⟩

/-- The files of a tree, as far as including them goes. -/
def toFiles (tree : FileTree) : Files where
  read := tree.read
  identities := tree.files.map fun (segments, _) ↦ "/".intercalate segments
  identity_mem := by
    intro path document h
    unfold read at h
    split at h
    · cases h
    · cases h
    · split at h
      · cases h
      · rename_i segments content found
        split at h
        · cases h
        · cases h
          unfold bytes? at found
          rw [List.lookup_eq_some_iff] at found
          obtain ⟨before, after, same, -⟩ := found
          simp [same]

end FileTree

end LineScript
