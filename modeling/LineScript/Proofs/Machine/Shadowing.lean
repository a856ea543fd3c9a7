import LineScript.Proofs.Machine.Writes

/-!
# Which variables a statement can change

A name means the nearest variable that is bound around a statement, for writing as for reading. So
a step changes a variable only where its statement names it, or is the header of a function that was
called, and finds no nearer one. Variables that are hidden by nearer ones keep their values however
long a program runs, and so do those of blocks that are not around any statement that ran.
-/

namespace LineScript.Machine

/-- The current statement gives a new value to what a scope binds under a name: an assignment or an
`in` that names it, where the scope is the nearest that binds it, and then to a value of the same
kind; or the header of a function to one of the names staged for it, where the scope is the nearest
that binds it or, if there is none, the header's own. -/
inductive Rebinds (program : Program) (m after : Machine) (scope : ScopeId) (name : String) :
    Prop where
  | target {id : NodeId} {node : Node} {old value : Value} : m.current = some id →
      program.node? id = some node → node.target? = some name →
      m.scopes.owner? node.scope name = some scope → m.scopes.local? scope name = some old →
      after.scopes.local? scope name = some value → value.kind = old.kind →
      Rebinds program m after scope name
  | parameter {id : NodeId} {node : Node} {past : Option NodeId} {signature : Signature}
      {values : List (String × Value)} {value : Value} : m.current = some id →
      program.node? id = some node → node.action = .function past signature →
      m.staged = some values → (name, value) ∈ values →
      (m.scopes.owner? node.scope name).getD node.scope = scope →
      after.scopes.local? scope name = some value → Rebinds program m after scope name

variable {program : Program} {m after : Machine} {node : Node} {scope : ScopeId} {name : String}
  {visited : List Machine}

/-- A step changes nothing but what its statement rebinds. -/
theorem rebinds_of_step {elapsed : Nat}
    (h : (m.step program elapsed).1.scopes.local? scope name ≠ m.scopes.local? scope name) :
    Rebinds program m (m.step program elapsed).1 scope name := by
  rcases scopes_of_step program m elapsed with
    ⟨hscopes, -⟩ | ⟨id, node, values, hcurrent, hnode, hwrites, hscopes⟩
  · rw [hscopes] at h
    exact absurd rfl h
  · have hlocal := congrArg (ScopeTree.local? · scope name) hscopes
    rw [ScopeTree.local?_setAll] at hlocal
    split at hlocal
    · rename_i hholder
      cases hlookup : values.reverse.lookup name with
      | none =>
        rw [hlookup, Option.none_or] at hlocal
        exact absurd hlocal h
      | some value =>
        rw [hlookup, Option.some_or] at hlocal
        have hmem := mem_of_lookup_reverse hlookup
        cases hwrites with
        | nothing => cases hmem
        | target htarget hget hkind =>
          cases List.mem_singleton.1 hmem
          rw [ScopeTree.get?_eq_bind_owner?] at hget
          obtain ⟨owner, howner, hold⟩ := Option.bind_eq_some_iff.1 hget
          have hsame := hholder.1
          rw [ScopeTree.holder, howner, Option.getD_some] at hsame
          subst hsame
          exact .target hcurrent hnode htarget howner hold hlocal hkind
        | parameters haction hstaged =>
          exact .parameter hcurrent hnode haction hstaged hmem hholder.1 hlocal
    · exact absurd hlocal h

theorem count_of_step (program : Program) (m : Machine) (elapsed : Nat) :
    (m.step program elapsed).1.scopes.count = m.scopes.count := by
  rcases scopes_of_step program m elapsed with ⟨hscopes, -⟩ | ⟨_, _, _, -, -, -, hscopes⟩
  · rw [hscopes]
  · rw [hscopes, ScopeTree.count_setAll]

/-- What is rebound is where a name is set from the current statement. -/
theorem Rebinds.exists_holder (h : Rebinds program m after scope name) :
    ∃ id node, m.current = some id ∧ program.node? id = some node ∧
      m.scopes.holder node.scope name = scope := by
  cases h with
  | target hcurrent hnode _ howner =>
    refine ⟨_, _, hcurrent, hnode, ?_⟩
    rw [ScopeTree.holder, howner, Option.getD_some]
  | parameter hcurrent hnode _ _ _ hholder => exact ⟨_, _, hcurrent, hnode, hholder⟩

theorem Visits.count_eq (h : Visits program m visited after) :
    after.scopes.count = m.scopes.count := by
  induction h with
  | refl => rfl
  | step elapsed _ ih => exact (count_of_step program _ elapsed).trans ih

/-- What a run changes was rebound by one of its steps. -/
theorem Visits.exists_rebinds (h : Visits program m visited after)
    (hchanged : after.scopes.local? scope name ≠ m.scopes.local? scope name) :
    ∃ before ∈ visited, ∃ elapsed,
      Rebinds program before (before.step program elapsed).1 scope name := by
  induction h with
  | refl => exact absurd rfl hchanged
  | @step visited before elapsed _ ih =>
    by_cases hlast : (before.step program elapsed).1.scopes.local? scope name =
        before.scopes.local? scope name
    · rw [hlast] at hchanged
      obtain ⟨earlier, hmem, hrebinds⟩ := ih hchanged
      exact ⟨earlier, List.mem_append_left _ hmem, hrebinds⟩
    · exact ⟨before, by simp, elapsed, rebinds_of_step hlast⟩

variable {linked : Linked}

/-- A variable keeps its value while only statements run from which it is hidden. -/
theorem Visits.local?_eq_of_hidden {lines : List (List Word)}
    (hlink : linkLines lines = .ok linked) (h : Visits linked.program m visited after)
    (hscopes : m.scopes.ancestors = linked.scopes.ancestors)
    (hhidden : ∀ before ∈ visited, ∀ node, before.current.bind linked.program.node? = some node →
      before.scopes.Hidden node.scope scope name) :
    after.scopes.local? scope name = m.scopes.local? scope name := by
  induction h with
  | refl => rfl
  | @step visited before elapsed hbefore ih =>
    have hearlier := ih fun earlier hmem ↦ hhidden earlier (List.mem_append_left _ hmem)
    rw [← hearlier]
    by_contra hchanged
    obtain ⟨id, node, hcurrent, hnode, hholder⟩ := (rebinds_of_step hchanged).exists_holder
    have hancestors := hbefore.ancestors_eq.trans hscopes
    have hnested := (nested_of_link hlink).of_ancestors_eq hancestors
    have hnodup := nodup_ancestors_of_node hlink hnode
    have hmem := mem_ancestors_of_node hlink hnode
    rw [← hancestors] at hnodup hmem
    have hnow : before.scopes.Hidden node.scope scope name := by
      apply hhidden before (by simp)
      rw [hcurrent, Option.bind_some, hnode]
    exact hnested.holder_ne (ScopeTree.lt_count_of_mem_ancestors hmem) hnodup hnow hholder

/--
From any machine, a step changes or makes only a variable that its statement rebinds, so that all
that a run changes was rebound by a step of it; and no run unbinds a variable or changes which
scopes there are. Where the scopes are those of the program, a run leaves a variable as it is if it
is hidden from every statement that ran, because its block is not around the statement, or because a
block between them binds the name as well.
-/
theorem frame_of_linkLines {lines : List (List Word)} (hlink : linkLines lines = .ok linked)
    (m : Machine) :
    (∀ elapsed scope name,
      (m.step linked.program elapsed).1.scopes.local? scope name ≠ m.scopes.local? scope name →
      Rebinds linked.program m (m.step linked.program elapsed).1 scope name) ∧
    ∀ visited after, Visits linked.program m visited after →
      after.scopes.count = m.scopes.count ∧ after.scopes.ancestors = m.scopes.ancestors ∧
      ∀ scope name,
        ((m.scopes.local? scope name).isSome → (after.scopes.local? scope name).isSome) ∧
        (after.scopes.local? scope name ≠ m.scopes.local? scope name →
          ∃ before ∈ visited, ∃ elapsed,
            Rebinds linked.program before (before.step linked.program elapsed).1 scope name) ∧
        (m.scopes.ancestors = linked.scopes.ancestors →
          (∀ before ∈ visited, ∀ node, before.current.bind linked.program.node? = some node →
            before.scopes.Hidden node.scope scope name) →
          after.scopes.local? scope name = m.scopes.local? scope name) := by
  refine ⟨fun elapsed scope name ↦ rebinds_of_step, fun visited after hvisits ↦ ?_⟩
  refine ⟨hvisits.count_eq, hvisits.ancestors_eq, fun scope name ↦ ⟨hvisits.isSome_local?,
    hvisits.exists_rebinds, hvisits.local?_eq_of_hidden hlink⟩⟩

/-- A variable of a block that has the name of one outside. -/
def shadowing : List (List Word) :=
  [["number", "x"], ["x", "=", "1"], ["if", "x"], ["number", "x"], ["x", "=", "2"], ["end"],
    ["out", "x"]].zipIdx.map
    fun (words, line) ↦ words.map fun text ↦ ⟨text, "shadowing", line + 1⟩

/-- The variable outside keeps its value while the one inside changes. -/
theorem frame_shadowing : ∃ linked m visited after, linkLines shadowing = .ok linked ∧
    m.scopes.ancestors = linked.scopes.ancestors ∧ Visits linked.program m visited after ∧
    after.scopes.local? 1 "x" = some (.number 2) ∧
    m.scopes.local? rootScope "x" = some (.number 1) ∧
    after.scopes.local? rootScope "x" = m.scopes.local? rootScope "x" := by
  have hrun : ((linkLines shadowing).toOption.map fun linked ↦
      let m := (runFor linked.program 3 (start linked ⟨none, false⟩ ⟨[]⟩ .fresh)).1
      ((visitedFor linked.program 2 m).all fun before ↦
        (before.current.bind linked.program.node?).all fun node ↦
          decide (before.scopes.Hidden node.scope rootScope "x"),
        (runFor linked.program 2 m).1.scopes.local? 1 "x", m.scopes.local? rootScope "x")) =
      some (true, some (.number 2), some (.number 1)) := by
    decide +kernel
  obtain ⟨linked, hlinked, hfacts⟩ := Chain.exists_of_map_toOption hrun
  obtain ⟨hhidden, hrest⟩ := Prod.mk.inj hfacts
  obtain ⟨hinner, houter⟩ := Prod.mk.inj hrest
  have hscopes := (visits_of_runFor linked.program 3
    (start linked ⟨none, false⟩ ⟨[]⟩ .fresh)).ancestors_eq
  have hvisits := visits_of_runFor linked.program 2
    (runFor linked.program 3 (start linked ⟨none, false⟩ ⟨[]⟩ .fresh)).1
  refine ⟨linked, _, _, _, hlinked, hscopes, hvisits, hinner, houter, ?_⟩
  refine ((frame_of_linkLines hlinked _).2 _ _ hvisits).2.2 rootScope "x" |>.2.2 hscopes ?_
  intro before hmem node hnode
  have hthere := List.all_eq_true.1 hhidden before hmem
  rw [hnode] at hthere
  exact of_decide_eq_true hthere

end LineScript.Machine
