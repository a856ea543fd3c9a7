import LineScript.Program.Bracket
import LineScript.Program.Program
import LineScript.Source.Statement

/-!
# Linking

Linking turns statements into a program in two passes. The first places the statements in order:
it keeps the blocks that are open, makes their scopes and declares variables and functions, so a
statement sees what was declared before it and nothing that comes later. Parameters are not
declared, since a call binds them. The second pass finds the ends of blocks and compiles formulas.
A fault of the first pass is reported before any of the second.
-/

namespace LineScript

/-- Why a `function` or `call` line has not the right form. -/
inductive FunctionFault where
  | noFunctionName
  | oddParameters
  | unknownType (raw : String)
  | notAName (raw : String)
  | repeatedParameter (name : String)
  | noCallee
deriving DecidableEq, Repr

def FunctionFault.message : FunctionFault → String
  | noFunctionName => "expected a function name"
  | oddParameters => "parameters must be `type name` pairs"
  | unknownType raw =>
    "unknown parameter type `" ++ raw ++ "`, expected `number` or `string`"
  | notAName raw => "`" ++ raw ++ "` is not a parameter name"
  | repeatedParameter name => "parameter `" ++ name ++ "` is declared twice"
  | noCallee => "a call needs a function name"

/-- Why a statement cannot be linked. -/
inductive LinkFault where
  | invalidDeclaration (keyword : String)
  | duplicate (name : String)
  | invalidFunction (fault : FunctionFault)
  | unknownFunction (name : String)
  | parameterCount (function : String) (expected got : Nat)
  | unknownStatement (keyword : String)
  | unmatchedBlock (keyword : String)
  | invalidAssignment
  | formula (error : FormulaError)
deriving DecidableEq

def LinkFault.message : LinkFault → String
  | invalidDeclaration keyword => "`" ++ keyword ++ "` needs exactly one variable name"
  | duplicate name => (AlreadyDeclared.mk name).message
  | invalidFunction fault => "invalid function syntax: " ++ fault.message
  | unknownFunction name => "call to unknown function `" ++ name ++ "`"
  | parameterCount function expected got =>
    "`" ++ function ++ "` takes " ++ toString expected ++ " parameter(s), got " ++ toString got
  | unknownStatement keyword =>
    "unknown statement `" ++ keyword ++
      "`, check the keyword and that the variable is declared in scope"
  | unmatchedBlock keyword => "`" ++ keyword ++ "` has no matching block"
  | invalidAssignment => "assignment must look like `name = value`"
  | formula error => error.message

structure LinkError where
  location : Location
  fault : LinkFault
deriving DecidableEq

def LinkError.message (error : LinkError) : String :=
  error.fault.message ++ " (" ++ error.location.describe ++ ")"

/-- What the first pass finds out about a statement. -/
inductive Form where
  | declare (kind : Kind)
  | output
  | input
  | loop
  | branch
  | function (signature : Signature)
  | call (callee : NodeId) (function : String) (arguments : List Argument)
  | close
  | assign (kind : Kind)
deriving DecidableEq, Repr

def Form.bracket : Form → Bracket
  | loop | branch | function _ => .opens
  | close => .closes
  | _ => .plain

/-- A statement after the first pass. -/
structure Draft where
  location : Location
  operands : List Operand
  scope : ScopeId
  form : Form
deriving DecidableEq, Repr

/-- A block that is open: its scope, and the parameters of the function whose body it is. -/
structure Block where
  scope : ScopeId
  parameters : List Parameter
deriving DecidableEq, Repr

/-- How far the first pass has come; of the open blocks the innermost comes first. -/
structure Layout where
  scopes : ScopeTree
  blocks : List Block
  drafts : Array Draft
deriving DecidableEq

namespace Layout

def start : Layout :=
  ⟨.initial, [], #[]⟩

/-- The blocks around the next statement, the program itself included, innermost first. -/
def surroundings (layout : Layout) : List Block :=
  layout.blocks ++ [⟨rootScope, []⟩]

def scope (layout : Layout) : ScopeId :=
  (layout.blocks.head?.map (·.scope)).getD rootScope

/-- Opens a block, with the parameters of the function whose body it is. -/
def openBlock (layout : Layout) (parameters : List Parameter) : Layout :=
  { layout with
    scopes := layout.scopes.addChild layout.scope
    blocks := ⟨layout.scopes.nextId, parameters⟩ :: layout.blocks }

/-- The kind that a block itself gives to a name: its variable's, or else its parameter's. -/
def kindIn? (layout : Layout) (name : String) (block : Block) : Option Kind :=
  match layout.scopes.local? block.scope name with
  | some value => some value.kind
  | none => (block.parameters.find? (·.name == name)).map (·.kind)

/-- The kind of the nearest variable or parameter with a name. -/
def targetKind? (layout : Layout) (name : String) : Option Kind :=
  layout.surroundings.findSome? (layout.kindIn? name)

def placeVariable (layout : Layout) (kind : Kind) (operands : List Operand) :
    Except LinkFault (Layout × Form) :=
  match operands with
  | [.name name] =>
    match layout.scopes.declare layout.scope name kind with
    | .ok scopes => .ok ({ layout with scopes }, .declare kind)
    | .error fault => .error (.duplicate fault.name)
  | _ => .error (.invalidDeclaration kind.keyword)

/-- Reads pairs of a type and a name as parameters, after those that were read before. -/
def readParameters (parameters : List Parameter) :
    List Operand → Except FunctionFault (List Parameter)
  | type :: operand :: rest =>
    match Kind.ofKeyword? type.raw, operand with
    | none, _ => .error (.unknownType type.raw)
    | some kind, .name name =>
      if parameters.any (·.name == name) then .error (.repeatedParameter name)
      else readParameters (parameters ++ [⟨name, kind⟩]) rest
    | some _, _ => .error (.notAName operand.raw)
  | _ => .ok parameters

/-- The name and the parameters that a `function` line declares. -/
def readHeader : List Operand → Except FunctionFault (String × List Parameter)
  | .name name :: rest =>
    if rest.length % 2 = 0 then (readParameters [] rest).map (name, ·)
    else .error .oddParameters
  | _ => .error .noFunctionName

/-- Places the header of a function, which opens the block of its body. -/
def placeFunction (layout : Layout) (operands : List Operand) :
    Except LinkFault (Layout × Form) :=
  match readHeader operands with
  | .error fault => .error (.invalidFunction fault)
  | .ok (name, parameters) =>
    match layout.scopes.declareFunction layout.scope name layout.drafts.size with
    | .error fault => .error (.duplicate fault.name)
    | .ok scopes =>
      let inside := { layout with scopes }.openBlock parameters
      .ok (inside, .function ⟨name, parameters, layout.scopes.nextId⟩)

/-- What the first pass found out about the statement at a position. -/
def formAt? (layout : Layout) (id : NodeId) : Option Form :=
  layout.drafts[id]?.map fun draft ↦ draft.form

/-- The header of a function, as seen from the next statement. -/
def callee? (layout : Layout) (name : String) : Option (NodeId × Signature) :=
  match layout.scopes.function? layout.scope name with
  | none => none
  | some callee =>
    match layout.formAt? callee with
    | some (.function signature) => some (callee, signature)
    | _ => none

def placeCall (layout : Layout) (operands : List Operand) : Except LinkFault (Layout × Form) :=
  match operands with
  | [] => .error (.invalidFunction .noCallee)
  | name :: arguments =>
    match layout.callee? name.raw with
    | none => .error (.unknownFunction name.raw)
    | some (callee, signature) =>
      if signature.parameters.length = arguments.length then
        .ok (layout, .call callee signature.name
          (List.zipWith Argument.mk signature.parameters arguments))
      else
        .error (.parameterCount signature.name signature.parameters.length arguments.length)

/-- Places an `end`, which closes the innermost block. -/
def placeEnd (layout : Layout) : Except LinkFault (Layout × Form) :=
  match layout.blocks with
  | [] => .error (.unmatchedBlock "end")
  | _ :: outer => .ok ({ layout with blocks := outer }, .close)

/-- Finds out what a statement is, and what it means for the statements after it. -/
def interpret (layout : Layout) (keyword : String) (operands : List Operand) :
    Except LinkFault (Layout × Form) :=
  match keyword with
  | "end" => layout.placeEnd
  | "while" => .ok (layout.openBlock [], .loop)
  | "if" => .ok (layout.openBlock [], .branch)
  | "number" => layout.placeVariable .number operands
  | "string" => layout.placeVariable .text operands
  | "function" => layout.placeFunction operands
  | "call" => layout.placeCall operands
  | "out" => .ok (layout, .output)
  | "in" => .ok (layout, .input)
  | _ =>
    match layout.targetKind? keyword with
    | some kind => .ok (layout, .assign kind)
    | none => .error (.unknownStatement keyword)

def place (layout : Layout) (statement : Statement) : Except LinkError Layout :=
  let location := ⟨statement.file, statement.line, statement.keyword⟩
  let operands := Operand.classify statement.operands
  match layout.interpret statement.keyword operands with
  | .error fault => .error ⟨location, fault⟩
  | .ok (after, form) =>
    .ok { after with drafts := after.drafts.push ⟨location, operands, layout.scope, form⟩ }

def ofStatements (statements : List Statement) : Except LinkError Layout :=
  statements.foldlM place start

def brackets (layout : Layout) : List Bracket :=
  layout.drafts.toList.map (·.form.bracket)

/-- The position after one, unless it is the last. -/
def next? (layout : Layout) (id : NodeId) : Option NodeId :=
  if id + 1 < layout.drafts.size then some (id + 1) else none

/-- The node after the `end` of the block opened at a position. -/
def past (layout : Layout) (header : NodeId) (keyword : String) :
    Except LinkFault (Option NodeId) :=
  match Bracket.closing? layout.brackets header with
  | some close => .ok (layout.next? close)
  | none => .error (.unmatchedBlock keyword)

/-- The kind of the block closed at a position. -/
def closedBlock (layout : Layout) (close : NodeId) (keyword : String) :
    Except LinkFault BlockKind :=
  match Bracket.opening? layout.brackets close with
  | none => .error (.unmatchedBlock keyword)
  | some header =>
    match layout.formAt? header with
    | some .loop => .ok (.loop header)
    | some (.function _) => .ok .function
    | _ => .ok .branch

def compile (operands : List Operand) : Except LinkFault Formula :=
  (Formula.compile operands).mapError .formula

/-- Resolves an assignment, whose formula is compiled only if its target is a number. -/
def resolveAssignment (target : String) (kind : Kind) (operands : List Operand) :
    Except LinkFault Action :=
  match operands with
  | .symbol "=" :: value =>
    if value.isEmpty then .error .invalidAssignment
    else
      match kind with
      | .number => return .assign target (some (← compile value))
      | .text => .ok (.assign target none)
  | _ => .error .invalidAssignment

/-- What the statement at a position does. -/
def resolve (layout : Layout) (id : NodeId) (draft : Draft) : Except LinkFault Action :=
  let keyword := draft.location.keyword
  match draft.form with
  | .declare kind => .ok (.declare kind)
  | .output => .ok .output
  | .input => .ok .input
  | .loop => return .loop (← layout.past id keyword) (← compile draft.operands)
  | .branch => return .branch (← layout.past id keyword) (← compile draft.operands)
  | .function signature => return .function (← layout.past id keyword) signature
  | .call callee function arguments => .ok (.call callee function arguments)
  | .close => return .close (← layout.closedBlock id keyword)
  | .assign kind => resolveAssignment keyword kind draft.operands

def resolveNode (layout : Layout) (draft : Draft) (id : NodeId) : Except LinkError Node :=
  match layout.resolve id draft with
  | .ok action => .ok ⟨draft.location, draft.operands, draft.scope, action⟩
  | .error fault => .error ⟨draft.location, fault⟩

def finish (layout : Layout) : Except LinkError Linked := do
  let nodes ← layout.drafts.toList.zipIdx.mapM fun (draft, id) ↦ layout.resolveNode draft id
  return ⟨⟨nodes.toArray⟩, layout.scopes⟩

end Layout

def link (statements : List Statement) : Except LinkError Linked := do
  (← Layout.ofStatements statements).finish

end LineScript
