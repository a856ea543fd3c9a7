import LineScript.Proofs.Machine.Advance
import LineScript.Proofs.Program.Frame

/-!
# Chains of calls

The calls of a running program are a chain through its text: the outermost call stands outside all
functions, every further one in the function that the call around it goes to, and the current
statement in the function that the innermost call goes to. Values are staged only between a call
and the header that it goes to. Every step keeps this, whatever jump it takes, and so the `end` of
a function is never reached without a call.
-/

namespace LineScript

theorem Kind.kind_of_coerce? {kind : Kind} {value coerced : Value}
    (h : kind.coerce? value = some coerced) : coerced.kind = kind := by
  unfold Kind.coerce? at h
  split at h
  · cases h
    rfl
  · cases h
    rfl
  · obtain ⟨number, -, rfl⟩ := Option.map_eq_some_iff.1 h
    rfl
  · cases h
    rfl

namespace Program

def callee? (program : Program) (site : NodeId) : Option NodeId :=
  match program.node? site with
  | some ⟨_, _, _, .call callee _ _⟩ => some callee
  | _ => none

theorem callee?_eq_some_iff {program : Program} {site callee : NodeId} :
    program.callee? site = some callee ↔ ∃ node function arguments,
      program.node? site = some node ∧ node.action = .call callee function arguments := by
  unfold callee?
  constructor
  · intro h
    split at h
    · rename_i hnode
      cases h
      exact ⟨_, _, _, hnode, rfl⟩
    · cases h
  · rintro ⟨node, function, arguments, hnode, haction⟩
    rw [hnode]
    obtain ⟨location, operands, scope, action⟩ := node
    cases haction
    rfl

/--
Calls, the innermost first, that lead from code outside all functions into a frame: each goes to
the function in which the next one stands, and the innermost to the frame.
-/
def CallChain (program : Program) : List NodeId → Option NodeId → Prop
  | [], frame => frame = none
  | site :: outer, frame => ∃ callee, program.callee? site = some callee ∧ frame = some callee ∧
      program.CallChain outer (program.frame? site)

def stagedParameter : String × Value → Parameter
  | (name, value) => ⟨name, value.kind⟩

end Program

namespace Machine

open Program (stagedParameter)

/-- A call has staged values for the header of its function, which is the current statement. -/
def Entering (program : Program) (m : Machine) (values : List (String × Value)) : Prop :=
  ∃ site outer header node past signature, m.calls.sites = site :: outer ∧
    program.callee? site = some header ∧ m.current = some header ∧
    program.node? header = some node ∧ node.action = .function past signature ∧
    values.map stagedParameter = signature.parameters ∧
    program.CallChain outer (program.frame? site)

/-- What every step keeps: the calls are a chain, or are about to become one. -/
structure InChain (program : Program) (m : Machine) : Prop where
  inside : ∀ position, m.current = some position → position < program.size
  chain : m.staged = none →
    program.CallChain m.calls.sites (m.current.bind program.frame?)
  entering : ∀ values, m.staged = some values → Entering program m values

variable {program : Program} {m : Machine} {id : NodeId} {node : Node}

/-- Where values are staged, the header of a function runs. -/
theorem InChain.staged_eq_none (hinv : InChain program m) (hcurrent : m.current = some id)
    (hnode : program.node? id = some node)
    (hfunction : ∀ past signature, node.action ≠ .function past signature) : m.staged = none := by
  cases hstaged : m.staged with
  | none => rfl
  | some values =>
    obtain ⟨-, -, header, found, past, signature, -, -, hheader, hfound, haction, -⟩ :=
      hinv.entering values hstaged
    rw [hcurrent] at hheader
    cases hheader
    rw [hnode] at hfound
    cases hfound
    exact absurd haction (hfunction past signature)

theorem parameters_of_arguments {function : String} {scopes : ScopeTree} {scope : ScopeId}
    {arguments : List Argument} {values : List (String × Value)}
    (h : arguments.mapM (argumentValue function scopes scope) = .ok values) :
    values.map stagedParameter = arguments.map fun argument ↦ argument.parameter := by
  have hall := Chain.forall₂_of_mapM h
  clear h
  induction hall with
  | nil => rfl
  | cons hvalue _ ih =>
    rename_i argument value others rest
    rw [List.map_cons, List.map_cons, ih]
    congr 1
    unfold argumentValue at hvalue
    split at hvalue
    · cases hvalue
    · split at hvalue
      · rename_i coerced hcoerced
        cases hvalue
        rw [stagedParameter, Kind.kind_of_coerce? hcoerced]
      · cases hvalue

theorem argumentValue_ne_noActiveCall {function : String} {scopes : ScopeTree} {scope : ScopeId}
    {argument : Argument} :
    argumentValue function scopes scope argument ≠ .error .noActiveCall := by
  unfold argumentValue
  intro h
  split at h
  · cases h
  · split at h <;> cases h

variable {statements : List Statement} {linked : Linked}

/-- A statement that neither opens nor closes a function goes on in the same frame. -/
theorem frame?_of_next? (hlink : link statements = .ok linked)
    (hnode : linked.program.node? id = some node)
    (hopen : ∀ past signature, node.action ≠ .function past signature)
    (hclose : node.action ≠ .close .function) :
    (linked.program.next? id).bind linked.program.frame? = linked.program.frame? id := by
  have hbalanced := balanced_of_link hlink
  rw [Program.frame?_next? hbalanced]
  apply Program.frame?_succ hbalanced
  · rw [Bool.eq_false_iff]
    intro hfunction
    obtain ⟨found, past, signature, hfound, haction⟩ := Program.isFunction_iff.1 hfunction
    rw [hnode] at hfound
    cases hfound
    exact hopen past signature haction
  · intro header hfunction hpair
    obtain ⟨opener, past, signature, hopener, haction⟩ := Program.isFunction_iff.1 hfunction
    cases block_of_pair hlink hpair with
    | loop hheader _ | branch hheader _ =>
      rw [hheader.action_eq hopener] at haction
      cases haction
    | function _ hend => exact hclose (hend.action_eq hnode)

/-- A header that goes past its block stays in its frame. -/
theorem frame?_of_past (hlink : link statements = .ok linked)
    (hnode : linked.program.node? id = some node) {past : Option NodeId}
    (hpast : node.action.past? = some past) :
    past.bind linked.program.frame? = linked.program.frame? id := by
  obtain ⟨close, hpair, rfl⟩ := exists_close_of_header hlink hnode hpast
  have hbalanced := balanced_of_link hlink
  calc
    (linked.program.next? close).bind linked.program.frame? = linked.program.frame? (close + 1) :=
      Program.frame?_next? hbalanced close
    _ = linked.program.frame? id := Program.frame?_after hbalanced hpair

/-- The header of a function goes on in the frame of its body. -/
theorem frame?_of_header (hlink : link statements = .ok linked)
    (hnode : linked.program.node? id = some node) {past : Option NodeId} {signature : Signature}
    (haction : node.action = .function past signature) :
    (linked.program.next? id).bind linked.program.frame? = some id := by
  obtain ⟨close, hpair, -⟩ := exists_close_of_header hlink hnode (congrArg Action.past? haction)
  have hfunction : linked.program.isFunction id = true :=
    Program.isFunction_iff.2 ⟨node, past, signature, hnode, haction⟩
  have hbalanced := balanced_of_link hlink
  calc
    (linked.program.next? id).bind linked.program.frame? = linked.program.frame? (id + 1) :=
      Program.frame?_next? hbalanced id
    _ = some id := (Program.frame?_body hbalanced hpair hfunction).1

/-- The `end` of a loop goes back in the same frame. -/
theorem frame?_of_loop (hlink : link statements = .ok linked)
    (hnode : linked.program.node? id = some node) {header : NodeId}
    (haction : node.action = .close (.loop header)) :
    header < linked.program.size ∧ linked.program.frame? header = linked.program.frame? id := by
  obtain ⟨found, hpair, hblock⟩ := exists_header_of_close hlink hnode haction
  cases hblock with
  | loop hheader hend =>
    have hsame := hend.action_eq hnode
    rw [haction] at hsame
    cases hsame
    obtain ⟨opener, hopener, -, hopenerAction⟩ := hheader
    refine ⟨Program.lt_size_of_node? hopener, ?_⟩
    refine (Program.frame?_close (balanced_of_link hlink) hpair ?_).symm
    rw [Bool.eq_false_iff]
    intro hfunction
    obtain ⟨other, past, signature, hother, hotherAction⟩ := Program.isFunction_iff.1 hfunction
    rw [hopener] at hother
    cases hother
    rw [hopenerAction] at hotherAction
    cases hotherAction
  | branch _ hend | function _ hend =>
    have hsame := hend.action_eq hnode
    rw [haction] at hsame
    cases hsame

/-! ## Steps and runs -/

theorem InChain.of_chain (hstaged : m.staged = none)
    (hchain : program.CallChain m.calls.sites (m.current.bind program.frame?))
    (hinside : ∀ position, m.current = some position → position < program.size) :
    InChain program m := by
  refine ⟨hinside, fun _ ↦ hchain, ?_⟩
  intro values hvalues
  rw [hstaged] at hvalues
  cases hvalues

/-- The chain at the current statement, unless it is the header of a function. -/
theorem InChain.chain_at (hinv : InChain program m) (hcurrent : m.current = some id)
    (hstaged : m.staged = none) : program.CallChain m.calls.sites (program.frame? id) := by
  have hchain := hinv.chain hstaged
  rw [hcurrent] at hchain
  exact hchain

variable {after : Machine} {elapsed : Nat} {flow : Flow}

/-- A statement that is part of no function's bounds and keeps the calls may go on with the next. -/
theorem InChain.next (hlink : link statements = .ok linked) (hinv : InChain linked.program m)
    (hcurrent : m.current = some id) (hnode : linked.program.node? id = some node)
    (hopen : ∀ past signature, node.action ≠ .function past signature)
    (hclose : node.action ≠ .close .function) (hcalls : after.calls = m.calls)
    (hstaged : after.staged = m.staged) :
    InChain linked.program (arrive linked.program elapsed id node after .next) := by
  have hnone := hinv.staged_eq_none hcurrent hnode hopen
  apply InChain.of_chain
  · exact hstaged.trans hnone
  · change linked.program.CallChain after.calls.sites _
    rw [hcalls]
    change linked.program.CallChain _ ((linked.program.next? id).bind linked.program.frame?)
    rw [frame?_of_next? hlink hnode hopen hclose]
    exact hinv.chain_at hcurrent hnone
  · exact fun position hposition ↦ Program.lt_size_of_next? hposition

/-- A header may go past its block. -/
theorem InChain.past (hlink : link statements = .ok linked) (hinv : InChain linked.program m)
    (hcurrent : m.current = some id) (hnode : linked.program.node? id = some node)
    {past : Option NodeId} (hpast : node.action.past? = some past) (hstaged : m.staged = none) :
    InChain linked.program (arrive linked.program elapsed id node m (.jump past)) := by
  refine .of_chain ?_ ?_ ?_
  · exact hstaged
  · change linked.program.CallChain m.calls.sites (past.bind linked.program.frame?)
    rw [frame?_of_past hlink hnode hpast]
    exact hinv.chain_at hcurrent hstaged
  · intro position hposition
    obtain ⟨close, -, rfl⟩ := exists_close_of_header hlink hnode hpast
    exact Program.lt_size_of_next? hposition

/-- The header of a function binds what was staged for it, and its body begins. -/
theorem InChain.enter (hlink : link statements = .ok linked) (hinv : InChain linked.program m)
    (hcurrent : m.current = some id) (hnode : linked.program.node? id = some node)
    {past : Option NodeId} {signature : Signature} {values : List (String × Value)}
    (haction : node.action = .function past signature) (hstaged : m.staged = some values)
    (hcalls : after.calls = m.calls) (hnone : after.staged = none) :
    InChain linked.program (arrive linked.program elapsed id node after .next) := by
  obtain ⟨site, outer, header, -, -, -, hsites, hcallee, hheader, -, -, -, houter⟩ :=
    hinv.entering values hstaged
  rw [hcurrent] at hheader
  cases hheader
  refine .of_chain ?_ ?_ ?_
  · exact hnone
  · change linked.program.CallChain after.calls.sites
      ((linked.program.next? id).bind linked.program.frame?)
    rw [frame?_of_header hlink hnode haction, hcalls, hsites]
    exact ⟨id, hcallee, rfl, houter⟩
  · exact fun position hposition ↦ Program.lt_size_of_next? hposition

/-- A call adds itself to the chain and stages values for the parameters of its function. -/
theorem InChain.call (hlink : link statements = .ok linked) (hinv : InChain linked.program m)
    (hcurrent : m.current = some id) (hnode : linked.program.node? id = some node)
    {callee : NodeId} {function : String} {arguments : List Argument}
    {values : List (String × Value)} {calls : CallStack}
    (haction : node.action = .call callee function arguments)
    (hvalues : arguments.mapM (argumentValue function m.scopes node.scope) = .ok values)
    (hcalls : m.calls.push id = .ok calls) :
    InChain linked.program (arrive linked.program elapsed id node
      { m with calls, staged := some values } (.jump callee)) := by
  have hnone := hinv.staged_eq_none hcurrent hnode (by simp [haction])
  obtain ⟨-, header, past, signature, operands, hheader, hfunction, -, hlength, rfl⟩ :=
    exists_header_of_call hlink hnode haction
  have hparameters : values.map stagedParameter = signature.parameters :=
    (parameters_of_arguments hvalues).trans (map_parameter_zipWith hlength)
  refine ⟨?_, ?_, ?_⟩
  · intro position hposition
    cases hposition
    exact Program.lt_size_of_node? hheader
  · intro hstaged
    cases hstaged
  · intro staged hstaged
    cases hstaged
    exact ⟨id, m.calls.sites, callee, header, past, signature, CallStack.sites_of_push hcalls,
      Program.callee?_eq_some_iff.2 ⟨node, _, _, hnode, haction⟩, rfl, hheader, hfunction,
      hparameters, hinv.chain_at hcurrent hnone⟩

/-- The `end` of a function goes back to the innermost call. -/
theorem InChain.return (hlink : link statements = .ok linked) (hinv : InChain linked.program m)
    (hcurrent : m.current = some id) (hnode : linked.program.node? id = some node)
    (haction : node.action = .close .function) {site : NodeId} {calls : CallStack}
    (hpop : m.calls.pop? = some (site, calls)) :
    InChain linked.program (arrive linked.program elapsed id node { m with calls }
      (.jump (linked.program.next? site))) := by
  have hnone := hinv.staged_eq_none hcurrent hnode (by simp [haction])
  have hchain := hinv.chain_at hcurrent hnone
  rw [CallStack.sites_of_pop? hpop] at hchain
  obtain ⟨callee, hcallee, -, houter⟩ := hchain
  obtain ⟨caller, function, arguments, hcaller, hcall⟩ := Program.callee?_eq_some_iff.1 hcallee
  refine .of_chain ?_ ?_ ?_
  · exact hnone
  · change linked.program.CallChain calls.sites
      ((linked.program.next? site).bind linked.program.frame?)
    rw [frame?_of_next? hlink hcaller (by simp [hcall]) (by simp [hcall])]
    exact houter
  · exact fun position hposition ↦ Program.lt_size_of_next? hposition

/-- Every statement keeps the chain. -/
theorem InChain.advance (hlink : link statements = .ok linked) (hinv : InChain linked.program m)
    (hcurrent : m.current = some id) (hnode : linked.program.node? id = some node)
    (hadvance : Advance linked.program m id node after flow) :
    InChain linked.program (arrive linked.program elapsed id node after flow) := by
  cases hadvance with
  | declare haction | output haction | leave haction | input haction _ _ _ | assign haction _ _ =>
    exact hinv.next hlink hcurrent hnode (by simp [haction]) (by simp [haction]) rfl rfl
  | test haction _ =>
    have hopen : ∀ past signature, node.action ≠ .function past signature := by
      rcases haction with haction | haction <;> simp [haction]
    split
    · refine hinv.past hlink hcurrent hnode ?_ (hinv.staged_eq_none hcurrent hnode hopen)
      rcases haction with haction | haction <;> rw [haction] <;> rfl
    · refine hinv.next hlink hcurrent hnode hopen ?_ rfl rfl
      rcases haction with haction | haction <;> simp [haction]
  | skip haction hstaged =>
    exact hinv.past hlink hcurrent hnode (congrArg Action.past? haction) hstaged
  | enter haction hstaged => exact hinv.enter hlink hcurrent hnode haction hstaged rfl rfl
  | call haction hvalues hcalls => exact hinv.call hlink hcurrent hnode haction hvalues hcalls
  | again haction =>
    obtain ⟨hlt, hframe⟩ := frame?_of_loop hlink hnode haction
    have hnone := hinv.staged_eq_none hcurrent hnode (by simp [haction])
    refine .of_chain ?_ ?_ ?_
    · exact hnone
    · have hchain := hinv.chain_at hcurrent hnone
      rw [← hframe] at hchain
      exact hchain
    · intro position hposition
      cases hposition
      exact hlt
  | «return» haction hpop => exact hinv.return hlink hcurrent hnode haction hpop

theorem InChain.step (hlink : link statements = .ok linked) (hinv : InChain linked.program m)
    {more : Bool} (hstep : m.step linked.program elapsed = (after, .ok more)) :
    InChain linked.program after := by
  rcases advance_of_step hstep with
    ⟨rfl, -, -⟩ | ⟨id, node, advanced, flow, hcurrent, hnode, hadvance, rfl, -⟩
  · exact hinv
  · exact hinv.advance hlink hcurrent hnode hadvance

theorem inChain_start (hlink : link statements = .ok linked) (scopes : ScopeTree)
    (options : MachineOptions) (input : Input) (output : Output) :
    InChain linked.program (start ⟨linked.program, scopes⟩ options input output) := by
  have hentry : ∀ position, linked.program.entry? = some position →
      position = 0 ∧ 0 < linked.program.size := by
    intro position hposition
    unfold Program.entry? at hposition
    split at hposition
    · cases hposition
      exact ⟨rfl, by assumption⟩
    · cases hposition
  refine .of_chain rfl ?_ ?_
  · change linked.program.entry?.bind linked.program.frame? = none
    rw [Option.bind_eq_none_iff]
    intro position hposition
    rw [(hentry position hposition).1]
    cases hframe : linked.program.frame? 0 with
    | none => rfl
    | some header =>
      exact absurd (Program.lt_of_frame? (balanced_of_link hlink) hframe) (Nat.not_lt_zero _)
  · intro position hposition
    obtain ⟨rfl, hlt⟩ := hentry position hposition
    exact hlt

/-- All machines that a program comes to have their calls in a chain. -/
theorem inChain_of_reaches (hlink : link statements = .ok linked) {scopes : ScopeTree}
    {options : MachineOptions} {input : Input} {output : Output}
    (hreaches : Reaches linked.program (start ⟨linked.program, scopes⟩ options input output) m) :
    InChain linked.program m := by
  induction hreaches with
  | refl => exact inChain_start hlink scopes options input output
  | step _ hstep ih => exact ih.step hlink hstep

/-! ## What follows -/

/-- The current statement is the header that the innermost call goes to. -/
def AtCallee (program : Program) (m : Machine) : Prop :=
  ∃ site outer header, m.calls.sites = site :: outer ∧ program.callee? site = some header ∧
    m.current = some header

/-- Values are staged exactly at the header that the innermost call goes to. -/
theorem InChain.isSome_staged_iff (hlink : link statements = .ok linked)
    (hinv : InChain linked.program m) :
    m.staged.isSome ↔ AtCallee linked.program m := by
  constructor
  · intro hsome
    obtain ⟨values, hstaged⟩ := Option.isSome_iff_exists.1 hsome
    obtain ⟨site, outer, header, -, -, -, hsites, hcallee, hheader, -⟩ :=
      hinv.entering values hstaged
    exact ⟨site, outer, header, hsites, hcallee, hheader⟩
  · rintro ⟨site, outer, header, hsites, hcallee, hcurrent⟩
    cases hstaged : m.staged with
    | some values => rfl
    | none =>
      -- The header of a function is never inside the function itself.
      have hchain := hinv.chain_at hcurrent hstaged
      rw [hsites] at hchain
      obtain ⟨callee, hother, hframe, -⟩ := hchain
      rw [hcallee] at hother
      cases hother
      exact absurd (Program.lt_of_frame? (balanced_of_link hlink) hframe) (Nat.lt_irrefl _)

/-- A machine that has halted has left all calls. -/
theorem InChain.halted (hinv : InChain program m) (hcurrent : m.current = none) :
    m.calls.sites = [] ∧ m.staged = none := by
  cases hstaged : m.staged with
  | some values =>
    obtain ⟨-, -, header, -, -, -, -, -, hheader, -⟩ := hinv.entering values hstaged
    rw [hcurrent] at hheader
    cases hheader
  | none =>
    have hchain := hinv.chain hstaged
    rw [hcurrent] at hchain
    cases hsites : m.calls.sites with
    | nil => exact ⟨rfl, rfl⟩
    | cons site outer =>
      rw [hsites] at hchain
      obtain ⟨callee, -, hframe, -⟩ := hchain
      cases hframe

/-- Values that are staged after a step were staged by it, at the innermost call. -/
theorem InChain.site_of_staged (hinv : InChain program m) {more : Bool}
    (hstep : m.step program elapsed = (after, .ok more)) {values : List (String × Value)}
    (hstaged : after.staged = some values) :
    ∃ site, m.current = some site ∧ after.calls.sites = site :: m.calls.sites := by
  rcases advance_of_step hstep with
    ⟨rfl, -, hnone⟩ | ⟨id, node, advanced, flow, hcurrent, hnode, hadvance, rfl, -⟩
  · obtain ⟨-, -, header, node, -, -, -, -, hheader, hnode, -⟩ := hinv.entering values hstaged
    rw [hheader, Option.bind_some, hnode] at hnone
    cases hnone
  · have hplain : (∀ past signature, node.action ≠ .function past signature) →
        m.staged = some values → False := by
      intro hopen hsome
      rw [hinv.staged_eq_none hcurrent hnode hopen] at hsome
      cases hsome
    change advanced.staged = some values at hstaged
    cases hadvance with
    | declare haction | output haction | leave haction | input haction _ _ _
    | assign haction _ _ | again haction | «return» haction _ =>
      exact (hplain (by simp [haction]) hstaged).elim
    | test haction _ =>
      refine (hplain ?_ hstaged).elim
      rcases haction with haction | haction <;> simp [haction]
    | skip _ hnone =>
      rw [hnone] at hstaged
      cases hstaged
    | enter => cases hstaged
    | call _ _ hcalls => exact ⟨id, hcurrent, CallStack.sites_of_push hcalls⟩

/-- In a chain, the `end` of a function has a call to go back to. -/
theorem InChain.pop?_ne_none (hlink : link statements = .ok linked)
    (hinv : InChain linked.program m) (hcurrent : m.current = some id)
    (hnode : linked.program.node? id = some node) (haction : node.action = .close .function) :
    m.calls.pop? ≠ none := by
  intro hpop
  have hchain := hinv.chain_at hcurrent (hinv.staged_eq_none hcurrent hnode (by simp [haction]))
  rw [CallStack.sites_of_pop?_eq_none hpop] at hchain
  obtain ⟨header, hpair, hblock⟩ := exists_header_of_close hlink hnode haction
  cases hblock with
  | loop _ hend | branch _ hend =>
    have hsame := hend.action_eq hnode
    rw [haction] at hsame
    cases hsame
  | function hheader _ =>
    obtain ⟨opener, hopener, -, hfunction⟩ := hheader
    have hbody := (Program.frame?_body (balanced_of_link hlink) hpair
      (Program.isFunction_iff.2 ⟨opener, _, _, hopener, hfunction⟩)).2
    rw [hbody] at hchain
    cases hchain

/-- In a chain, every call goes to a function. -/
theorem exists_callee_of_mem {sites : List NodeId} {frame : Option NodeId}
    (hchain : program.CallChain sites frame) {site : NodeId} (hmem : site ∈ sites) :
    ∃ callee, program.callee? site = some callee := by
  induction sites generalizing frame with
  | nil => cases hmem
  | cons first outer ih =>
    obtain ⟨callee, hcallee, -, houter⟩ := hchain
    rcases List.mem_cons.1 hmem with rfl | hrest
    · exact ⟨callee, hcallee⟩
    · exact ih houter hrest

/-- In a chain, every call stands at a position of the program. -/
theorem exists_location_of_mem {sites : List NodeId} {frame : Option NodeId}
    (hchain : program.CallChain sites frame) {site : NodeId} (hmem : site ∈ sites) :
    (program.location? site).isSome := by
  obtain ⟨callee, hcallee⟩ := exists_callee_of_mem hchain hmem
  obtain ⟨node, -, -, hnode, -⟩ := Program.callee?_eq_some_iff.1 hcallee
  rw [Program.location?, hnode]
  rfl

/-- A statement that fails is no `end` without a call, and reports the chain of calls. -/
theorem InChain.failure (hlink : link statements = .ok linked) (hinv : InChain linked.program m)
    {failed : Machine} {failure : Failure}
    (hstep : m.step linked.program elapsed = (failed, .error failure)) :
    failure.fault ≠ .noActiveCall ∧
      failure.backtrace.map some = m.calls.sites.map linked.program.location? := by
  obtain ⟨id, node, fault, hcurrent, hnode, hrefusal, rfl⟩ := refusal_of_step hstep
  constructor
  · change fault ≠ .noActiveCall
    rintro rfl
    cases hrefusal with
    | noActiveCall haction hpop => exact hinv.pop?_ne_none hlink hcurrent hnode haction hpop
    | argument _ hfault =>
      obtain ⟨argument, -, hargument⟩ := Chain.exists_error_of_mapM hfault
      exact argumentValue_ne_noActiveCall hargument
  · change (failed.calls.sites.filterMap linked.program.location?).map some = _
    rw [hrefusal.unchanged.2.1, List.map_filterMap_some_eq_filter_map_isSome, List.filter_eq_self]
    intro location hmem
    obtain ⟨site, hsite, rfl⟩ := List.mem_map.1 hmem
    have hchain := hinv.chain_at hcurrent (hinv.staged_eq_none hcurrent hnode hrefusal.not_function)
    exact exists_location_of_mem hchain hsite

/--
In every machine that a program comes to, the calls are a chain through the text of the program.
Values are staged exactly at the header that the innermost call goes to, for its parameters and by
the step before, which ran that call. A machine that has halted has left all calls, and whatever
fails is no `end` without a call and reports the chain.
-/
theorem callChain_of_reaches {lines : List (List Word)} (hlink : linkLines lines = .ok linked)
    {scopes : ScopeTree} {options : MachineOptions} {input : Input} {output : Output}
    (hreaches : Reaches linked.program (start ⟨linked.program, scopes⟩ options input output) m) :
    (m.staged = none →
      linked.program.CallChain m.calls.sites (m.current.bind linked.program.frame?)) ∧
    (m.staged.isSome ↔ AtCallee linked.program m) ∧
    (∀ values, m.staged = some values → Entering linked.program m values ∧
      ∃ before elapsed more,
        Reaches linked.program (start ⟨linked.program, scopes⟩ options input output) before ∧
        before.step linked.program elapsed = (m, .ok more) ∧
        before.current = m.calls.sites.head?) ∧
    (m.current = none → m.calls.sites = [] ∧ m.staged = none) ∧
    ∀ elapsed failed failure, m.step linked.program elapsed = (failed, .error failure) →
      failure.fault ≠ .noActiveCall ∧
        failure.backtrace.map some = m.calls.sites.map linked.program.location? := by
  have hinv := inChain_of_reaches hlink hreaches
  refine ⟨hinv.chain, hinv.isSome_staged_iff hlink, ?_, hinv.halted, ?_⟩
  · intro values hstaged
    refine ⟨hinv.entering values hstaged, ?_⟩
    cases hreaches with
    | refl => cases hstaged
    | step hbefore hstep =>
      obtain ⟨site, hcurrent, hsites⟩ :=
        (inChain_of_reaches hlink hbefore).site_of_staged hstep hstaged
      refine ⟨_, _, _, hbefore, hstep, ?_⟩
      rw [hcurrent, hsites]
      rfl
  · exact fun elapsed failed failure hstep ↦ hinv.failure hlink hstep

theorem callChain_countdown : ∃ linked m, linkLines countdown = .ok linked ∧
    Reaches linked.program (start linked ⟨none, false⟩ ⟨[]⟩ .fresh) m ∧
    m.calls.sites = [9] ∧ m.staged = none ∧ linked.program.callee? 9 = some 0 ∧
    m.current.bind linked.program.frame? = some 0 := by
  obtain ⟨linked, hlinked⟩ := exists_linked_countdown
  have hrun : ((linkLines countdown).toOption.map fun linked ↦
      let run := runFor linked.program 8 (start linked ⟨none, false⟩ ⟨[]⟩ .fresh)
      (run.1.calls.sites, run.1.staged.isNone, run.2)) = some ([9], true, .budget) := by
    decide +kernel
  rw [hlinked] at hrun
  obtain ⟨hsites, hrest⟩ := Prod.mk.inj (Option.some.inj hrun)
  obtain ⟨hstaged, hending⟩ := Prod.mk.inj hrest
  have hreaches : Reaches linked.program (start linked ⟨none, false⟩ ⟨[]⟩ .fresh)
      (runFor linked.program 8 (start linked ⟨none, false⟩ ⟨[]⟩ .fresh)).1 := by
    apply reaches_of_runFor rfl
    rw [hending]
    intro failure hfailed
    cases hfailed
  have hnone := Option.isNone_iff_eq_none.1 hstaged
  have hchain := (callChain_of_reaches hlinked hreaches).1 hnone
  rw [hsites] at hchain
  obtain ⟨callee, hcallee, hframe, -⟩ := hchain
  have hheader : ((linkLines countdown).toOption.map fun linked ↦ linked.program.callee? 9) =
      some (some 0) := by
    decide +kernel
  rw [hlinked] at hheader
  have hsite : linked.program.callee? 9 = some 0 := Option.some.inj hheader
  rw [hsite] at hcallee
  cases hcallee
  exact ⟨linked, _, hlinked, hreaches, hsites, hnone, hsite, hframe⟩

end Machine

end LineScript
