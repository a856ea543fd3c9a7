import LineScript.Program.NodeId

/-!
# Call stacks

The calls that are being executed, each the position of its `call` statement. The stack may be
limited; a call past the limit is refused and leaves the stack as it is.
-/

namespace LineScript

/-- The calls being executed, the innermost first, and how many there may be. -/
structure CallStack where
  sites : List NodeId
  limit : Option Nat
deriving DecidableEq, Repr

/-- A call would pass the limit. -/
structure RecursionLimit where
  limit : Nat
deriving DecidableEq, Repr

def RecursionLimit.message (fault : RecursionLimit) : String :=
  "maximum call depth exceeded (limit: " ++ toString fault.limit ++ ")"

namespace CallStack

def empty (limit : Option Nat) : CallStack :=
  ⟨[], limit⟩

def depth (stack : CallStack) : Nat :=
  stack.sites.length

def isEmpty (stack : CallStack) : Bool :=
  stack.sites.isEmpty

def push (stack : CallStack) (site : NodeId) : Except RecursionLimit CallStack :=
  match stack.limit.filter (· ≤ stack.depth) with
  | some limit => .error ⟨limit⟩
  | none => .ok { stack with sites := site :: stack.sites }

def pop? (stack : CallStack) : Option (NodeId × CallStack) :=
  match stack.sites with
  | [] => none
  | site :: outer => some (site, { stack with sites := outer })

end CallStack

end LineScript
