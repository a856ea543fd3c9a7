import LineScript.Proofs.Machine.Advance
import LineScript.Program.Line
import LineScript.Proofs.Chain
import Mathlib.Logic.Function.Iterate

/-!
# What a failing statement leaves behind

All that a statement checks, it checks before it changes anything: the arguments of a call are
evaluated before the depth of the calls is looked at, and that before anything is staged. So a
statement that fails can be tried again, and fails again. The one exception is an `in`, which takes
words off the input while it looks for one that will do.
-/

namespace LineScript.Machine

/-- What is read off the input: words that will not do, each answered by a line, and what comes after
them. -/
theorem exists_refused_of_readWord {kind : Kind} {output written : Output}
    {pieces rest : List InputPiece} {word : WordRead}
    (h : readWord kind output pieces = (word, rest, written)) :
    ∃ refused : List String, (∀ text ∈ refused, wordValue? kind text = none) ∧
      written = (Output.writeLine · retryLine)^[refused.length] output ∧
      match word with
      | .accepted value => ∃ text, wordValue? kind text = some value ∧
          pieces = refused.map .word ++ .word text :: rest
      | .closed => pieces = refused.map .word ∧ rest = []
      | .garbled => pieces = refused.map .word ++ .garbled :: rest := by
  induction pieces generalizing output with
  | nil =>
    cases h
    exact ⟨[], by simp, rfl, rfl, rfl⟩
  | cons piece pieces ih =>
    cases piece with
    | garbled =>
      cases h
      exact ⟨[], by simp, rfl, rfl⟩
    | word first =>
      rw [readWord] at h
      split at h
      · rename_i value hvalue
        cases h
        exact ⟨[], by simp, rfl, first, hvalue, rfl⟩
      · rename_i hnone
        obtain ⟨refused, hrefused, hwritten, hrest⟩ := ih h
        refine ⟨first :: refused, ?_, ?_, ?_⟩
        · rintro text (_ | ⟨_, hmem⟩)
          · exact hnone
          · exact hrefused text hmem
        · exact hwritten
        · cases word with
          | accepted value =>
            obtain ⟨text, htext, rfl⟩ := hrest
            exact ⟨text, htext, rfl⟩
          | closed => exact ⟨congrArg _ hrest.1, hrest.2⟩
          | garbled => exact congrArg _ hrest

/-- Words that a number cannot be read from were taken off the input, each answered by a line, and
after them perhaps a garbled piece, which then is the fault. -/
def TakesRefused (m failed : Machine) (fault : RuntimeFault) : Prop :=
  ∃ (refused : List String) (garbled : List InputPiece),
    (∀ text ∈ refused, wordValue? .number text = none) ∧
    (garbled = [] ∨ garbled = [.garbled] ∧ fault = .garbledInput) ∧
    m.input.pieces = refused.map .word ++ garbled ++ failed.input.pieces ∧
    failed.output = (Output.writeLine · retryLine)^[refused.length] m.output

variable {program : Program} {m failed : Machine} {id : NodeId} {node : Node}
  {fault : RuntimeFault}

/-- A text takes any word, so the words that are refused are refused as numbers. -/
theorem wordValue?_number_of_eq_none {kind : Kind} {text : String}
    (h : wordValue? kind text = none) : wordValue? .number text = none := by
  cases kind with
  | number => exact h
  | text => cases h

/-- Of what is read and written, only an `in` that fails leaves traces. -/
theorem Refusal.takesRefused (h : Refusal m id node failed fault) :
    TakesRefused m failed fault := by
  cases h with
  | inputClosed _ _ _ hread =>
    obtain ⟨refused, hrefused, hwritten, hpieces, hrest⟩ := exists_refused_of_readWord hread
    refine ⟨refused, [], ?_, .inl rfl, ?_, hwritten⟩
    · exact fun text hmem ↦ wordValue?_number_of_eq_none (hrefused text hmem)
    · rw [hpieces, hrest, List.append_nil, List.append_nil]
  | inputGarbled _ _ _ hread =>
    obtain ⟨refused, hrefused, hwritten, hpieces⟩ := exists_refused_of_readWord hread
    refine ⟨refused, [.garbled], ?_, .inr ⟨rfl, rfl⟩, ?_, hwritten⟩
    · exact fun text hmem ↦ wordValue?_number_of_eq_none (hrefused text hmem)
    · rw [hpieces, List.append_assoc]
      rfl
  | inputForm | inputTarget | condition | argument | recursion | noActiveCall | target | formula =>
    exact ⟨[], [], by simp, .inl rfl, rfl, rfl⟩

theorem Refusal.eq_of_not_input (h : Refusal m id node failed fault)
    (haction : node.action ≠ .input) : failed = m := by
  cases h with
  | inputClosed hinput | inputGarbled hinput => exact absurd hinput haction
  | inputForm | inputTarget | condition | argument | recursion | noActiveCall | target | formula =>
    rfl

/-- What is counted and measured are statements that did not fail. -/
theorem Refusal.counts_eq (h : Refusal m id node failed fault) :
    failed.steps = m.steps ∧ failed.timings = m.timings := by
  cases h <;> exact ⟨rfl, rfl⟩

/--
A step that fails leaves the position, the calls, what is staged, all variables, and what is counted
and measured as they are. Only an `in` that fails has touched input and output, and it has done no
more than refuse words. After any other statement that fails, the machine is the one from before,
and to try the statement again gives the same failure.
-/
theorem unchanged_of_failure {elapsed : Nat} {failure : Failure}
    (hstep : m.step program elapsed = (failed, .error failure)) :
    ∃ id node, m.current = some id ∧ program.node? id = some node ∧
      failed.current = m.current ∧ failed.steps = m.steps ∧ failed.calls = m.calls ∧
      failed.staged = m.staged ∧ failed.scopes = m.scopes ∧ failed.timings = m.timings ∧
      (node.action = .input → TakesRefused m failed failure.fault) ∧
      (node.action ≠ .input → failed = m ∧
        ∀ later, failed.step program later = (failed, .error failure)) := by
  obtain ⟨id, node, fault, hcurrent, hnode, hattempt, rfl⟩ := attempt_of_step hstep
  have hrefusal := refusal_of_attempt hattempt
  obtain ⟨hposition, hcalls, hstaged, hscopes⟩ := hrefusal.unchanged
  obtain ⟨hsteps, htimings⟩ := hrefusal.counts_eq
  refine ⟨id, node, hcurrent, hnode, hposition, hsteps, hcalls, hstaged, hscopes, htimings,
    fun _ ↦ hrefusal.takesRefused, fun haction ↦ ?_⟩
  have hsame := hrefusal.eq_of_not_input haction
  refine ⟨hsame, fun later ↦ ?_⟩
  subst hsame
  exact step_of_failed hcurrent hnode hattempt

/-- A call whose second argument is not the number that its parameter asks for. -/
def misfit : List (List Word) :=
  [["function", "pair", "number", "a", "number", "b"], ["end"],
    ["call", "pair", "1", "\"z\""]].zipIdx.map
    fun (words, line) ↦ words.map fun text ↦ ⟨text, "misfit", line + 1⟩

theorem unchanged_misfit : ∃ linked m failed failure, linkLines misfit = .ok linked ∧
    Reaches linked.program (start linked ⟨none, true⟩ ⟨[]⟩ .fresh) m ∧ m.current = some 2 ∧
    m.step linked.program 0 = (failed, .error failure) ∧
    failure.fault = .argumentKind "pair" "b" .number ∧ failed = m ∧
    ∀ later, failed.step linked.program later = (failed, .error failure) := by
  have hrun : ((linkLines misfit).toOption.map fun linked ↦
      let run := runFor linked.program 1 (start linked ⟨none, true⟩ ⟨[]⟩ .fresh)
      (run.1.current, run.2, (linked.program.node? 2).map fun node ↦ node.action.label,
        match (run.1.step linked.program 0).2 with
        | .error failure => some failure.fault
        | .ok _ => none)) =
      some (some 2, .budget, some "call", some (.argumentKind "pair" "b" .number)) := by
    decide +kernel
  obtain ⟨linked, hlinked, hfacts⟩ := Chain.exists_of_map_toOption hrun
  obtain ⟨hcurrent, hrest⟩ := Prod.mk.inj hfacts
  obtain ⟨hending, hrest⟩ := Prod.mk.inj hrest
  obtain ⟨hlabel, hfault⟩ := Prod.mk.inj hrest
  have hreaches : Reaches linked.program (start linked ⟨none, true⟩ ⟨[]⟩ .fresh)
      (runFor linked.program 1 (start linked ⟨none, true⟩ ⟨[]⟩ .fresh)).1 := by
    apply reaches_of_runFor rfl
    rw [hending]
    intro failure hfailed
    cases hfailed
  rcases hstep : (runFor linked.program 1 (start linked ⟨none, true⟩ ⟨[]⟩ .fresh)).1.step
    linked.program 0 with ⟨failed, failure | more⟩
  · rw [hstep] at hfault
    obtain ⟨id, node, hposition, hnode, -, -, -, -, -, -, -, hunchanged⟩ :=
      unchanged_of_failure hstep
    rw [hcurrent] at hposition
    cases hposition
    rw [hnode] at hlabel
    have haction : node.action ≠ .input := by
      intro hinput
      rw [Option.map_some, hinput] at hlabel
      exact absurd hlabel (by decide)
    exact ⟨linked, _, failed, failure, hlinked, hreaches, hcurrent, hstep,
      Option.some.inj hfault, hunchanged haction⟩
  · rw [hstep] at hfault
    cases hfault

end LineScript.Machine
