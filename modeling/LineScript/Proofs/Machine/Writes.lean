import LineScript.Proofs.Machine.CallChain
import LineScript.Proofs.Program.Scopes

/-!
# What statements write

A statement sets variables from its own scope: an assignment and an `in` set the variable that they
name, to a value of the kind it has, and the header of a function sets its parameters to the values
staged for them. No other statement sets any. A run is followed with the machines that its steps
start from, so that what happened to a variable can be told from the statements that ran.
-/

namespace LineScript

def Node.target? (node : Node) : Option String :=
  match node.action, node.operands with
  | .assign target _, _ => some target
  | .input, [operand] => some operand.raw
  | _, _ => none

namespace Machine

variable {program : Program} {m after : Machine} {id : NodeId} {node : Node} {flow : Flow}

theorem mem_of_lookup_reverse {values : List (String × Value)} {name : String} {value : Value}
    (h : values.reverse.lookup name = some value) : (name, value) ∈ values := by
  obtain ⟨before, after, hsplit, -⟩ := List.lookup_eq_some_iff.1 h
  rw [← List.mem_reverse, hsplit]
  simp

theorem kind_of_wordValue? {kind : Kind} {word : String} {value : Value}
    (h : wordValue? kind word = some value) : value.kind = kind := by
  unfold wordValue? at h
  split at h
  · obtain ⟨number, -, rfl⟩ := Option.map_eq_some_iff.1 h
    rfl
  · cases h
    rfl

theorem kind_of_readWord {kind : Kind} {pieces rest : List InputPiece} {output written : Output}
    {value : Value} (h : readWord kind output pieces = (.accepted value, rest, written)) :
    value.kind = kind := by
  induction pieces generalizing output with
  | nil => cases h
  | cons piece pieces ih =>
    cases piece with
    | garbled => cases h
    | word word =>
      unfold readWord at h
      split at h
      · rename_i found hfound
        cases h
        exact kind_of_wordValue? hfound
      · exact ih h

theorem kind_of_assignedValue {formula : Option Formula} {kind : Kind} {scopes : ScopeTree}
    {value : Value} (h : assignedValue node formula kind scopes = .ok value) :
    value.kind = kind := by
  unfold assignedValue at h
  split at h
  · obtain ⟨number, -, rfl⟩ := Chain.map_eq_ok_iff.1 h
    rfl
  · obtain ⟨formula, -, hrest⟩ := Chain.bind_eq_ok_iff.1 h
    obtain ⟨number, -, hresult⟩ := Chain.bind_eq_ok_iff.1 hrest
    cases hresult
    rfl
  · cases h
    rfl

/-- What the statement of a node sets when it does not fail, in order. -/
inductive Writes (m : Machine) (node : Node) : List (String × Value) → Prop where
  | nothing : node.target? = none →
      (∀ past signature, node.action = .function past signature → m.staged = none) →
      Writes m node []
  | target {name : String} {old value : Value} : node.target? = some name →
      m.scopes.get? node.scope name = some old → value.kind = old.kind →
      Writes m node [(name, value)]
  | parameters {past : Option NodeId} {signature : Signature} {values : List (String × Value)} :
      node.action = .function past signature → m.staged = some values → Writes m node values

/-- A statement that does not fail sets what it writes, from its scope, and nothing else. -/
theorem Advance.exists_writes (h : Advance program m id node after flow) :
    ∃ values, Writes m node values ∧ after.scopes = m.scopes.setAll node.scope values := by
  cases h with
  | declare haction | output haction | call haction _ _ | again haction | leave haction
  | «return» haction _ =>
    exact ⟨[], .nothing (by simp [Node.target?, haction]) (by simp [haction]), rfl⟩
  | test haction _ =>
    refine ⟨[], .nothing ?_ ?_, rfl⟩
    · rcases haction with haction | haction <;> simp [Node.target?, haction]
    · rcases haction with haction | haction <;> simp [haction]
  | skip haction hstaged =>
    exact ⟨[], .nothing (by simp [Node.target?, haction]) fun _ _ _ ↦ hstaged, rfl⟩
  | enter haction hstaged => exact ⟨_, .parameters haction hstaged, rfl⟩
  | input haction hoperands hold hread =>
    refine ⟨_, .target ?_ hold (kind_of_readWord hread), rfl⟩
    simp [Node.target?, haction, hoperands]
  | assign haction hold hvalue =>
    refine ⟨_, .target ?_ hold (kind_of_assignedValue hvalue), rfl⟩
    simp [Node.target?, haction]

/-- A step advances at the current statement, or else moves nothing and sets nothing; at the header
of a function it always advances. -/
theorem step_cases (program : Program) (m : Machine) (elapsed : Nat) :
    (∃ id node advanced flow, m.current = some id ∧ program.node? id = some node ∧
      Advance program m id node advanced flow ∧
      (m.step program elapsed).1 = arrive program elapsed id node advanced flow) ∨
    (∀ node, m.current.bind program.node? = some node →
        ∀ past signature, node.action ≠ .function past signature) ∧
      (m.step program elapsed).1.current = m.current ∧
      (m.step program elapsed).1.calls = m.calls ∧
      (m.step program elapsed).1.staged = m.staged ∧
      (m.step program elapsed).1.scopes = m.scopes := by
  rcases hstep : m.step program elapsed with ⟨after, failure | more⟩
  · obtain ⟨id, node, _, hcurrent, hnode, hrefusal, -⟩ := refusal_of_step hstep
    refine .inr ⟨fun found hfound ↦ ?_, hrefusal.unchanged⟩
    rw [hcurrent, Option.bind_some, hnode] at hfound
    cases hfound
    exact hrefusal.not_function
  · rcases advance_of_step hstep with
      ⟨rfl, -, hnone⟩ | ⟨id, node, advanced, flow, hcurrent, hnode, hadvance, rfl, -⟩
    · refine .inr ⟨fun found hfound ↦ ?_, rfl, rfl, rfl, rfl⟩
      rw [hnone] at hfound
      cases hfound
    · exact .inl ⟨id, node, advanced, flow, hcurrent, hnode, hadvance, rfl⟩

/-- The scopes after a step, by what its statement writes. -/
theorem scopes_of_step (program : Program) (m : Machine) (elapsed : Nat) :
    (m.step program elapsed).1.scopes = m.scopes ∧
        (∀ node, m.current.bind program.node? = some node →
          ∀ past signature, node.action ≠ .function past signature) ∨
      ∃ id node values, m.current = some id ∧ program.node? id = some node ∧
        Writes m node values ∧
        (m.step program elapsed).1.scopes = m.scopes.setAll node.scope values := by
  rcases step_cases program m elapsed with
    ⟨id, node, advanced, flow, hcurrent, hnode, hadvance, hafter⟩ | ⟨hopen, -, -, -, hscopes⟩
  · obtain ⟨values, hwrites, hscopes⟩ := hadvance.exists_writes
    right
    refine ⟨id, node, values, hcurrent, hnode, hwrites, ?_⟩
    rw [hafter]
    exact hscopes
  · exact .inl ⟨hscopes, hopen⟩

/-- No step changes which scopes there are. -/
theorem ancestors_of_step (program : Program) (m : Machine) (elapsed : Nat) :
    (m.step program elapsed).1.scopes.ancestors = m.scopes.ancestors := by
  rcases scopes_of_step program m elapsed with ⟨hscopes, -⟩ | ⟨_, _, _, -, -, -, hscopes⟩
  · rw [hscopes]
  · rw [hscopes, ScopeTree.ancestors_setAll]

/-- No step unbinds a variable. -/
theorem isSome_local?_of_step {elapsed : Nat} {scope : ScopeId} {name : String}
    (h : (m.scopes.local? scope name).isSome) :
    ((m.step program elapsed).1.scopes.local? scope name).isSome := by
  rcases scopes_of_step program m elapsed with ⟨hscopes, -⟩ | ⟨_, _, _, -, -, -, hscopes⟩
  · rwa [hscopes]
  · rw [hscopes]
    exact ScopeTree.isSome_local?_setAll h

/-- The machines that steps start from, in order, and the machine that they lead to. A statement
that fails stays the current one, and may be tried again. -/
inductive Visits (program : Program) (m : Machine) : List Machine → Machine → Prop where
  | refl : Visits program m [] m
  | step {visited : List Machine} {before : Machine} (elapsed : Nat) :
      Visits program m visited before →
      Visits program m (visited ++ [before]) (before.step program elapsed).1

def visitedFor (program : Program) : Nat → Machine → List Machine
  | 0, _ => []
  | budget + 1, m =>
    match m.step program 0 with
    | (after, .ok true) => m :: visitedFor program budget after
    | _ => [m]

variable {visited : List Machine}

theorem Visits.cons (elapsed : Nat)
    (h : Visits program (m.step program elapsed).1 visited after) :
    Visits program m (m :: visited) after := by
  induction h with
  | refl => exact Visits.refl.step elapsed
  | step elapsed _ ih => exact ih.step elapsed

theorem visits_of_runFor (program : Program) (budget : Nat) (m : Machine) :
    Visits program m (visitedFor program budget m) (runFor program budget m).1 := by
  induction budget generalizing m with
  | zero => exact .refl
  | succ budget ih =>
    have hone : Visits program m [m] (m.step program 0).1 := Visits.refl.step 0
    unfold visitedFor runFor
    split
    · rename_i after hstep
      rw [hstep]
      apply Visits.cons 0
      rw [hstep]
      exact ih after
    · rename_i hother
      split
      · rename_i hstep
        rwa [hstep] at hone
      · rename_i hstep
        rwa [hstep] at hone
      · rename_i after hstep
        exact absurd hstep (hother after)

theorem Visits.ancestors_eq (h : Visits program m visited after) :
    after.scopes.ancestors = m.scopes.ancestors := by
  induction h with
  | refl => rfl
  | step elapsed _ ih => exact (ancestors_of_step program _ elapsed).trans ih

theorem Visits.isSome_local? (h : Visits program m visited after) {scope : ScopeId} {name : String}
    (hbound : (m.scopes.local? scope name).isSome) :
    (after.scopes.local? scope name).isSome := by
  induction h with
  | refl => exact hbound
  | step _ _ ih => exact isSome_local?_of_step ih

variable {statements : List Statement} {linked : Linked}

theorem InChain.of_eq (hinv : InChain program m) (hcurrent : after.current = m.current)
    (hcalls : after.calls = m.calls) (hstaged : after.staged = m.staged) :
    InChain program after where
  inside := by
    rw [hcurrent]
    exact hinv.inside
  chain := by
    rw [hstaged, hcalls, hcurrent]
    exact hinv.chain
  entering := by
    intro values hvalues
    rw [hstaged] at hvalues
    obtain ⟨site, outer, header, node, past, signature, hsites, hcallee, hheader, hrest⟩ :=
      hinv.entering values hvalues
    refine ⟨site, outer, header, node, past, signature, ?_, hcallee, ?_, hrest⟩
    · rw [hcalls, hsites]
    · rw [hcurrent, hheader]

theorem InChain.of_step (hlink : link statements = .ok linked) (hinv : InChain linked.program m)
    (elapsed : Nat) : InChain linked.program (m.step linked.program elapsed).1 := by
  rcases step_cases linked.program m elapsed with
    ⟨id, node, advanced, flow, hcurrent, hnode, hadvance, hafter⟩ |
    ⟨-, hcurrent, hcalls, hstaged, -⟩
  · rw [hafter]
    exact hinv.advance hlink hcurrent hnode hadvance
  · exact hinv.of_eq hcurrent hcalls hstaged

/-- Calls stay in a chain, also where statements fail and are tried again. -/
theorem Visits.inChain (hlink : link statements = .ok linked) (hinv : InChain linked.program m)
    (h : Visits linked.program m visited after) : InChain linked.program after := by
  induction h with
  | refl => exact hinv
  | step elapsed _ ih => exact ih.of_step hlink elapsed

end Machine

end LineScript
