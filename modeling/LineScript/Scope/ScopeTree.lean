import LineScript.Program.NodeId
import LineScript.Scope.Bindings
import LineScript.Value

/-!
# Scopes

Every block of a program has a scope: the program itself the root, and each body of a `while`, an
`if` or a `function` one inside the scope of its block. Scopes are numbered in the order in which
they are made, and never removed. A scope binds variables and functions, and knows the scopes
around it, nearest first. A name means what the nearest scope that binds it says; the nearest such
scope is its owner.
-/

namespace LineScript

abbrev ScopeId := Nat

/-- One scope: what it binds, and the scopes around it, nearest first. -/
structure Scope where
  values : Bindings Value
  functions : Bindings NodeId
  enclosing : List ScopeId
deriving DecidableEq

structure ScopeTree where
  scopes : Array Scope
deriving DecidableEq

structure AlreadyDeclared where
  name : String
deriving DecidableEq, Repr

def AlreadyDeclared.message (fault : AlreadyDeclared) : String :=
  "`" ++ fault.name ++ "` is already declared in this scope"

def rootScope : ScopeId := 0

namespace Scope

def fresh (enclosing : List ScopeId) : Scope :=
  ⟨.empty, .empty, enclosing⟩

def bind (scope : Scope) (name : String) (value : Value) : Scope :=
  { scope with values := scope.values.insert name value }

def bindFunction (scope : Scope) (name : String) (header : NodeId) : Scope :=
  { scope with functions := scope.functions.insert name header }

end Scope

namespace ScopeTree

/-- Only the root. -/
def initial : ScopeTree :=
  ⟨#[.fresh []]⟩

def count (tree : ScopeTree) : Nat :=
  tree.scopes.size

/-- A scope and the scopes around it, nearest first. -/
def ancestors (tree : ScopeTree) (id : ScopeId) : List ScopeId :=
  match tree.scopes[id]? with
  | some scope => id :: scope.enclosing
  | none => []

def parent? (tree : ScopeTree) (id : ScopeId) : Option ScopeId :=
  tree.scopes[id]?.bind (·.enclosing.head?)

def nextId (tree : ScopeTree) : ScopeId :=
  tree.count

def addChild (tree : ScopeTree) (parent : ScopeId) : ScopeTree :=
  ⟨tree.scopes.push (.fresh (tree.ancestors parent))⟩

/-- The variables that a scope itself binds, names ascending. -/
def localEntries (tree : ScopeTree) (id : ScopeId) : List (String × Value) :=
  (tree.scopes[id]?.map (·.values.entries)).getD []

/-- The value that a scope itself gives to a name. -/
def local? (tree : ScopeTree) (id : ScopeId) (name : String) : Option Value :=
  tree.scopes[id]?.bind (·.values.get? name)

def localFunction? (tree : ScopeTree) (id : ScopeId) (name : String) : Option NodeId :=
  tree.scopes[id]?.bind (·.functions.get? name)

/-- The nearest scope that binds a variable. -/
def owner? (tree : ScopeTree) (id : ScopeId) (name : String) : Option ScopeId :=
  (tree.ancestors id).find? fun around ↦ (tree.local? around name).isSome

def get? (tree : ScopeTree) (id : ScopeId) (name : String) : Option Value :=
  (tree.ancestors id).findSome? fun around ↦ tree.local? around name

def function? (tree : ScopeTree) (id : ScopeId) (name : String) : Option NodeId :=
  (tree.ancestors id).findSome? fun around ↦ tree.localFunction? around name

/-- Binds a variable in exactly one scope, or binds it anew there. -/
def bindIn (tree : ScopeTree) (id : ScopeId) (name : String) (value : Value) : ScopeTree :=
  ⟨tree.scopes.modify id (·.bind name value)⟩

/-- Declares a variable in exactly one scope, where it must be new. -/
def declare (tree : ScopeTree) (id : ScopeId) (name : String) (kind : Kind) :
    Except AlreadyDeclared ScopeTree :=
  if (tree.local? id name).isSome then .error ⟨name⟩ else .ok (tree.bindIn id name kind.zero)

/-- Declares a function in exactly one scope, where it must be new. -/
def declareFunction (tree : ScopeTree) (id : ScopeId) (name : String) (header : NodeId) :
    Except AlreadyDeclared ScopeTree :=
  if (tree.localFunction? id name).isSome then .error ⟨name⟩
  else .ok ⟨tree.scopes.modify id (·.bindFunction name header)⟩

/-- Gives a variable a value in its owner, if it has one. -/
def assign? (tree : ScopeTree) (id : ScopeId) (name : String) (value : Value) :
    Option ScopeTree :=
  (tree.owner? id name).map fun owner ↦ tree.bindIn owner name value

/-- Gives a variable a value in its owner, or in the scope itself where it has none. -/
def set (tree : ScopeTree) (id : ScopeId) (name : String) (value : Value) : ScopeTree :=
  (tree.assign? id name value).getD (tree.bindIn id name value)

def setAll (tree : ScopeTree) (id : ScopeId) (values : List (String × Value)) : ScopeTree :=
  values.foldl (fun tree (name, value) ↦ tree.set id name value) tree

/-- Adds the entries whose names are not among those listed. -/
def addUnseen (seen entries : List (String × Value)) : List (String × Value) :=
  seen ++ entries.filter fun (name, _) ↦ !seen.any fun (other, _) ↦ other == name

/-- All variables that are seen from a scope: nearest scopes first, names ascending in each. -/
def bindings (tree : ScopeTree) (id : ScopeId) : List (String × Value) :=
  (tree.ancestors id).foldl (fun seen around ↦ addUnseen seen (tree.localEntries around)) []

/-- All variables of all scopes, by scope and then by name. -/
def allEntries (tree : ScopeTree) : List (ScopeId × String × Value) :=
  (List.range tree.count).flatMap fun id ↦
    (tree.localEntries id).map fun (name, value) ↦ (id, name, value)

end ScopeTree

end LineScript
