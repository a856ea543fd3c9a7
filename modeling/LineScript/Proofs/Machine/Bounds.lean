import LineScript.Proofs.Machine.Shadowing
import LineScript.Proofs.Program.Bounds

/-!
# Runs within bounds

A machine follows positions that it finds in the nodes and on the stack of calls, and scopes that it
finds in the nodes. In every state that steps lead to, the current statement, the calls and the
targets of jumps are nodes of the program, the calls are `call` statements, and the scopes are those
of the program. So no step fails to find what it follows, nor does the report of a failure.
-/

namespace LineScript

/-- Nothing that a step follows from a machine leads out of its program, and a failure is reported
with a place for each call. -/
structure Machine.WithinBounds (linked : Linked) (m : Machine) : Prop where
  scopes : m.scopes.WithinBounds
  count_eq : m.scopes.count = linked.scopes.count
  current_lt : ∀ id, m.current = some id → id < linked.program.size
  call_of_site : ∀ site ∈ m.calls.sites, site < linked.program.size ∧
    ∃ node callee function arguments, linked.program.node? site = some node ∧
      node.action = .call callee function arguments
  target_lt : ∀ id node after flow target, m.current = some id →
    linked.program.node? id = some node →
    m.attempt linked.program id node = .done after flow →
    follow linked.program id flow = some target → target < linked.program.size
  failure : ∀ elapsed failed failure, m.step linked.program elapsed = (failed, .error failure) →
    m.current.bind linked.program.location? = some failure.location ∧
      failure.backtrace.map some = m.calls.sites.map linked.program.location?

namespace Machine

variable {program : Program} {linked : Linked} {statements : List Statement} {m after : Machine}

/-- The calls of a machine are calls, also before the function is entered. -/
theorem InChain.exists_callee (hinv : InChain program m) {site : NodeId}
    (hmem : site ∈ m.calls.sites) : ∃ callee, program.callee? site = some callee := by
  cases hstaged : m.staged with
  | none => exact exists_callee_of_mem (hinv.chain hstaged) hmem
  | some values =>
    obtain ⟨innermost, outer, header, -, -, -, hsites, hcallee, -, -, -, -, houter⟩ :=
      hinv.entering values hstaged
    rw [hsites] at hmem
    rcases List.mem_cons.1 hmem with rfl | hrest
    · exact ⟨header, hcallee⟩
    · exact exists_callee_of_mem houter hrest

theorem InChain.withinBounds (hlink : link statements = .ok linked)
    (hinv : InChain linked.program m) (hcount : m.scopes.count = linked.scopes.count)
    (hancestors : m.scopes.ancestors = linked.scopes.ancestors) : m.WithinBounds linked where
  scopes := ((rooted_of_link hlink).of_eq hcount hancestors).withinBounds
  count_eq := hcount
  current_lt := hinv.inside
  call_of_site := by
    intro site hmem
    obtain ⟨callee, hcallee⟩ := hinv.exists_callee hmem
    obtain ⟨node, function, arguments, hnode, haction⟩ := Program.callee?_eq_some_iff.1 hcallee
    exact ⟨Program.lt_size_of_node? hnode, node, callee, function, arguments, hnode, haction⟩
  target_lt := by
    intro id node after flow target hcurrent hnode hattempt htarget
    -- The target is where the machine is after the step, which keeps it inside.
    have hafter := hinv.of_step hlink 0
    rw [step_of_done hcurrent hnode hattempt] at hafter
    exact hafter.inside target htarget
  failure := by
    intro elapsed failed failure hstep
    refine ⟨?_, (hinv.failure hlink hstep).2⟩
    obtain ⟨id, node, fault, hcurrent, hnode, -, rfl⟩ := refusal_of_step hstep
    rw [hcurrent, Option.bind_some, Program.location?, hnode]
    rfl

/--
While lines are linked, after each statement, what either pass follows is within bounds. In the
linked program the positions and scopes that nodes refer to are within bounds, every scope but the
root has a parent that was made before it, so walks along parents end at the root, functions are
found at their headers, and calls have the parameters of their functions. In every machine that
steps lead to, the current statement, the calls and the targets of jumps are within bounds, and the
calls are `call` statements.
-/
theorem withinBounds_of_linkLines {lines : List (List Word)}
    (hlink : linkLines lines = .ok linked) :
    (∀ count, ∃ layout,
      Layout.ofStatements ((statementsOfLines lines).take count) = .ok layout ∧
        layout.WithinBounds) ∧
    linked.WithinBounds ∧
    ∀ options input output visited m,
      Visits linked.program (start linked options input output) visited m →
        m.WithinBounds linked := by
  refine ⟨fun count ↦ ?_, withinBounds_of_link hlink, ?_⟩
  · obtain ⟨layout, hplaced, -⟩ := exists_layout_of_link hlink
    obtain ⟨before, hbefore⟩ := hplaced.take count
    exact ⟨before, hbefore.ofStatements_eq, hbefore.withinBounds⟩
  · intro options input output visited m hvisits
    have hinv := hvisits.inChain hlink (inChain_start hlink linked.scopes options input output)
    exact hinv.withinBounds hlink hvisits.count_eq hvisits.ancestors_eq

theorem withinBounds_countdown : ∃ linked visited m, linkLines countdown = .ok linked ∧
    linked.program.size = 11 ∧ linked.scopes.count = 4 ∧
    linked.scopes.localFunction? rootScope "shrink" = some 0 ∧
    Visits linked.program (start linked ⟨none, false⟩ ⟨[]⟩ .fresh) visited m ∧
    m.calls.sites = [9] ∧ linked.WithinBounds ∧ m.WithinBounds linked := by
  have hrun : ((linkLines countdown).toOption.map fun linked ↦
      let run := runFor linked.program 8 (start linked ⟨none, false⟩ ⟨[]⟩ .fresh)
      (linked.program.size, linked.scopes.count,
        linked.scopes.localFunction? rootScope "shrink", run.1.calls.sites)) =
      some (11, 4, some 0, [9]) := by
    decide +kernel
  obtain ⟨linked, hlinked, hvalues⟩ := Chain.exists_of_map_toOption hrun
  obtain ⟨hsize, hrest⟩ := Prod.mk.inj hvalues
  obtain ⟨hcount, hrest⟩ := Prod.mk.inj hrest
  obtain ⟨hfunction, hsites⟩ := Prod.mk.inj hrest
  have hvisits := visits_of_runFor linked.program 8 (start linked ⟨none, false⟩ ⟨[]⟩ .fresh)
  obtain ⟨-, hlinkedBounds, hmachine⟩ := withinBounds_of_linkLines hlinked
  exact ⟨linked, _, _, hlinked, hsize, hcount, hfunction, hvisits, hsites, hlinkedBounds,
    hmachine _ _ _ _ _ hvisits⟩

end Machine

end LineScript
