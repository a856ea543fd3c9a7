import LineScript.Machine.Step
import LineScript.Proofs.Bracket.Outline

/-!
# Structured interpretation

A program can be run along its outline, without any jumps: the statements of a block one after the
other, the body of an `if` once or not at all, the body of a `while` as long as its condition holds,
and the body of a function wherever it is called. The interpreter needs no targets and no call
stack to return through. It is told the calls around it, but only to count them and to report them.

The interpreter gets a budget that it uses up as it goes deeper into the outline or on to the next
statement, and answers only if the budget is enough.
-/

namespace LineScript.Structured

open Machine (outputLine readWord WordRead assignedValue argumentValue)

/-- What statements act on, and which statements that are no part of a block's bounds ran. -/
structure World where
  scopes : ScopeTree
  input : Input
  output : Output
  leaves : List NodeId
deriving DecidableEq

/-- What comes of a statement that calls nothing. -/
inductive Effect where
  | done (world : World)
  | failed (world : World) (fault : RuntimeFault)

/-- How a program ends: all of it ran, or the statement at a position failed. -/
inductive Finish where
  | normal (world : World)
  | failed (world : World) (id : NodeId) (failure : Failure)
deriving DecidableEq

namespace World

def assign (world : World) (scope : ScopeId) (name : String) (value : Value) : World :=
  { world with scopes := world.scopes.set scope name value }

def visit (world : World) (id : NodeId) : World :=
  { world with leaves := world.leaves ++ [id] }

def readInto (world : World) (scope : ScopeId) (name : String) (old : Value) : Effect :=
  match readWord old.kind world.output world.input.pieces with
  | (.accepted value, pieces, output) =>
    .done ({ world with input := ⟨pieces⟩, output }.assign scope name value)
  | (.closed, pieces, output) =>
    .failed { world with input := ⟨pieces⟩, output } (.inputClosed name)
  | (.garbled, pieces, output) => .failed { world with input := ⟨pieces⟩, output } .garbledInput

/-- What a statement does that neither bounds a block nor calls a function. -/
def perform (world : World) (node : Node) : Effect :=
  match node.action with
  | .output =>
    let line := outputLine (·.display world.scopes node.scope) node.operands
    .done { world with output := world.output.writeLine line }
  | .input =>
    match node.operands with
    | [operand] =>
      match world.scopes.get? node.scope operand.raw with
      | some old => world.readInto node.scope operand.raw old
      | none => .failed world (.undeclared operand.raw)
    | operands => .failed world (.inputForm operands.length)
  | .assign target formula =>
    match world.scopes.get? node.scope target with
    | none => .failed world (.undeclared target)
    | some old =>
      match assignedValue node formula old.kind world.scopes with
      | .error error => .failed world (.formula error)
      | .ok value => .done (world.assign node.scope target value)
  | _ => .done world

end World

/-- Goes on where a part of a program ran to its end. -/
def andThen (first : Option Finish) (next : World → Option Finish) : Option Finish :=
  match first with
  | some (.normal world) => next world
  | other => other

def fail (program : Program) (calls : CallStack) (id : NodeId) (node : Node)
    (fault : RuntimeFault) (world : World) : Option Finish :=
  some (.failed world id ⟨node.location, fault, calls.sites.filterMap program.location?⟩)

/-- The body of the block that begins at a position of an outline. -/
def body? (header : NodeId) : Outline → Option Outline
  | .empty => none
  | .line _ rest => body? header rest
  | .block id inside close rest =>
    if header = id then some inside
    else if header < close then body? header inside
    else body? header rest

/-- Runs a part of a program along its outline; `whole` is the outline of the program. -/
def exec (program : Program) (whole : Outline) :
    Nat → CallStack → Outline → World → Option Finish
  | 0, _, _, _ => none
  | _ + 1, _, .empty, world => some (.normal world)
  | budget + 1, calls, .line id rest, world => do
    let node ← program.node? id
    match node.action with
    | .call callee function arguments =>
      match arguments.mapM (argumentValue function world.scopes node.scope) with
      | .error fault => fail program calls id node fault world
      | .ok values =>
        match calls.push id with
        | .error fault => fail program calls id node (.recursionLimit fault) world
        | .ok inner => do
          let header ← program.node? callee
          let body ← body? callee whole
          let bound := { world with scopes := world.scopes.setAll header.scope values }
          andThen (exec program whole budget inner body (bound.visit id))
            fun world ↦ exec program whole budget calls rest world
    | _ =>
      match world.perform node with
      | .failed world fault => fail program calls id node fault world
      | .done world => exec program whole budget calls rest (world.visit id)
  | budget + 1, calls, .block header inside close rest, world => do
    let node ← program.node? header
    match node.action with
    | .loop _ condition =>
      match condition.eval world.scopes node.scope with
      | .error error => fail program calls header node (.formula error) world
      | .ok value =>
        if value == 0 then exec program whole budget calls rest world
        else
          andThen (exec program whole budget calls inside world)
            fun world ↦ exec program whole budget calls (.block header inside close rest) world
    | .branch _ condition =>
      match condition.eval world.scopes node.scope with
      | .error error => fail program calls header node (.formula error) world
      | .ok value =>
        if value == 0 then exec program whole budget calls rest world
        else
          andThen (exec program whole budget calls inside world)
            fun world ↦ exec program whole budget calls rest world
    | .function .. => exec program whole budget calls rest world
    | _ => none

section Equations

variable {program : Program} {whole rest inside : Outline} {budget : Nat} {calls : CallStack}
  {world : World} {id close : NodeId} {node : Node}

theorem exec_leaf (hnode : program.node? id = some node)
    (hcall : ∀ callee function arguments, node.action ≠ .call callee function arguments) :
    exec program whole (budget + 1) calls (.line id rest) world =
      match world.perform node with
      | .failed world fault => fail program calls id node fault world
      | .done world => exec program whole budget calls rest (world.visit id) := by
  rw [exec, hnode]
  change (match node.action with
    | .call .. => _
    | _ => _) = _
  split
  · rename_i haction
    exact absurd haction (hcall _ _ _)
  · rfl

theorem exec_call (hnode : program.node? id = some node) {callee : NodeId} {function : String}
    {arguments : List Argument} (haction : node.action = .call callee function arguments)
    {header : Node} (hheader : program.node? callee = some header) {body : Outline}
    (hbody : body? callee whole = some body) :
    exec program whole (budget + 1) calls (.line id rest) world =
      match arguments.mapM (argumentValue function world.scopes node.scope) with
      | .error fault => fail program calls id node fault world
      | .ok values =>
        match calls.push id with
        | .error fault => fail program calls id node (.recursionLimit fault) world
        | .ok inner =>
          let bound := { world with scopes := world.scopes.setAll header.scope values }
          andThen (exec program whole budget inner body (bound.visit id))
            fun world ↦ exec program whole budget calls rest world := by
  obtain ⟨location, operands, scope, action⟩ := node
  cases haction
  rw [exec, hnode]
  dsimp only [Option.bind_eq_bind, Option.bind_some]
  rw [hheader, hbody]
  rfl

theorem exec_loop (hnode : program.node? id = some node) {past : Option NodeId}
    {condition : Formula} (haction : node.action = .loop past condition) :
    exec program whole (budget + 1) calls (.block id inside close rest) world =
      match condition.eval world.scopes node.scope with
      | .error error => fail program calls id node (.formula error) world
      | .ok value =>
        if value == 0 then exec program whole budget calls rest world
        else
          andThen (exec program whole budget calls inside world)
            fun world ↦ exec program whole budget calls (.block id inside close rest) world := by
  obtain ⟨location, operands, scope, action⟩ := node
  cases haction
  rw [exec, hnode]
  rfl

theorem exec_branch (hnode : program.node? id = some node) {past : Option NodeId}
    {condition : Formula} (haction : node.action = .branch past condition) :
    exec program whole (budget + 1) calls (.block id inside close rest) world =
      match condition.eval world.scopes node.scope with
      | .error error => fail program calls id node (.formula error) world
      | .ok value =>
        if value == 0 then exec program whole budget calls rest world
        else
          andThen (exec program whole budget calls inside world)
            fun world ↦ exec program whole budget calls rest world := by
  obtain ⟨location, operands, scope, action⟩ := node
  cases haction
  rw [exec, hnode]
  rfl

theorem exec_function (hnode : program.node? id = some node) {past : Option NodeId}
    {signature : Signature} (haction : node.action = .function past signature) :
    exec program whole (budget + 1) calls (.block id inside close rest) world =
      exec program whole budget calls rest world := by
  obtain ⟨location, operands, scope, action⟩ := node
  cases haction
  rw [exec, hnode]
  rfl

end Equations

def run (program : Program) (whole : Outline) (limit : Option Nat) (budget : Nat)
    (scopes : ScopeTree) (input : Input) (output : Output) : Option Finish :=
  exec program whole budget (.empty limit) whole ⟨scopes, input, output, []⟩

end LineScript.Structured
