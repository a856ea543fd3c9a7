import LineScript.Proofs.Machine.Parameters

/-!
# Variables across calls

Parameters have no scopes of their own. The header of a function binds them where it stands, or
where a variable of that name is found from there, so that a call may overwrite the parameters of
the function in whose body it stands, above all when a function calls itself. When the call has
returned, a variable that no statement named to give it a value has the value that the last header
bound to it; it has the value from before the call exactly where no header bound it anew.
-/

namespace LineScript.Machine

def target? (program : Program) (m : Machine) : Option String :=
  (m.current.bind program.node?).bind Node.target?

/-- The value that the current statement binds to a name in a scope, if it is the header of a
function that was called. -/
def bound? (program : Program) (scope : ScopeId) (name : String) (m : Machine) : Option Value :=
  match m.current.bind program.node?, m.staged with
  | some ⟨_, _, header, .function ..⟩, some values =>
    if m.scopes.holder header name = scope then values.reverse.lookup name else none
  | _, _ => none

/-- The last value that was bound to a name in a scope by headers of functions. -/
def lastBound? (program : Program) (scope : ScopeId) (name : String) (visited : List Machine) :
    Option Value :=
  visited.reverse.findSome? (bound? program scope name)

/-- Steps lead from the call at a site to the machine right after it has returned. Only a call puts
its site on the stack; while the steps last it stays there, and the last of them takes it off, which
only the `end` of a function does. -/
structure Returns (program : Program) (m : Machine) (site : NodeId) (visited : List Machine)
    (after : Machine) : Prop where
  visits : Visits program m visited after
  entered : visited.tail ≠ []
  during : ∀ before ∈ visited.tail, site :: m.calls.sites <:+ before.calls.sites
  left : after.calls.sites = m.calls.sites

variable {program : Program} {m after : Machine} {node : Node} {scope : ScopeId} {name : String}
  {visited : List Machine}

theorem bound?_eq_none (h : ∀ node, m.current.bind program.node? = some node →
    ∀ past signature, node.action = .function past signature → m.staged = none) :
    bound? program scope name m = none := by
  unfold bound?
  split
  · rename_i hnode hstaged
    rw [h _ hnode _ _ rfl] at hstaged
    cases hstaged
  · rfl

/-- What a statement binds to a variable that it does not name is among what it writes. -/
theorem bound?_of_writes (hnode : m.current.bind program.node? = some node)
    {values : List (String × Value)} (hwrites : Writes m node values)
    (hname : node.target? ≠ some name) :
    bound? program scope name m =
      if m.scopes.holder node.scope name = scope then values.reverse.lookup name else none := by
  cases hwrites with
  | parameters haction hstaged =>
    obtain ⟨location, operands, header, action⟩ := node
    cases haction
    rw [bound?, hnode, hstaged]
  | nothing _ hopen =>
    rw [bound?_eq_none, List.reverse_nil, List.lookup_nil, ite_self]
    intro other hother
    rw [hnode] at hother
    cases hother
    exact hopen
  | @target written _ _ htarget =>
    have hne : name ≠ written := by
      rintro rfl
      exact hname htarget
    rw [bound?_eq_none, List.reverse_singleton, List.lookup_cons, beq_false_of_ne hne,
      List.lookup_nil, ite_self]
    intro other hother past signature haction
    rw [hnode] at hother
    cases hother
    rw [Node.target?, haction] at htarget
    cases htarget

/-- A step that does not name a variable gives it what a header binds to it, or leaves it. -/
theorem local?_of_step (hname : m.target? program ≠ some name) (hscope : scope < m.scopes.count)
    (elapsed : Nat) : (m.step program elapsed).1.scopes.local? scope name =
      (bound? program scope name m).or (m.scopes.local? scope name) := by
  rcases scopes_of_step program m elapsed with
    ⟨hscopes, hopen⟩ | ⟨id, node, values, hcurrent, hnode, hwrites, hscopes⟩
  · rw [hscopes, bound?_eq_none, Option.none_or]
    exact fun node hnode past signature haction ↦ absurd haction (hopen node hnode past signature)
  · have hfound : m.current.bind program.node? = some node := by
      rw [hcurrent, Option.bind_some, hnode]
    rw [target?, hfound, Option.bind_some] at hname
    rw [hscopes, bound?_of_writes hfound hwrites hname, ScopeTree.local?_setAll]
    by_cases hholder : m.scopes.holder node.scope name = scope
    · rw [if_pos ⟨hholder, hscope⟩, if_pos hholder]
    · rw [if_neg fun hboth ↦ hholder hboth.1, if_neg hholder, Option.none_or]

/-- A step leaves names where they are read, once they are bound. -/
theorem owner?_of_step (hnested : m.scopes.Nested) {inner : ScopeId}
    (howner : m.scopes.owner? inner name = some scope) (elapsed : Nat) :
    (m.step program elapsed).1.scopes.owner? inner name = some scope := by
  rcases scopes_of_step program m elapsed with ⟨hscopes, -⟩ | ⟨_, _, _, -, -, -, hscopes⟩
  · rwa [hscopes]
  · rw [hscopes]
    exact hnested.owner?_setAll howner

theorem lastBound?_concat (visited : List Machine) (last : Machine) :
    lastBound? program scope name (visited ++ [last]) =
      (bound? program scope name last).or (lastBound? program scope name visited) := by
  rw [lastBound?, lastBound?, List.reverse_append, List.reverse_singleton, List.singleton_append,
    List.findSome?_cons]
  cases bound? program scope name last <;> rfl

theorem Visits.owner?_eq (h : Visits program m visited after) (hnested : m.scopes.Nested)
    {inner : ScopeId} (howner : m.scopes.owner? inner name = some scope) :
    after.scopes.owner? inner name = some scope := by
  induction h with
  | refl => exact howner
  | step elapsed hbefore ih =>
    exact owner?_of_step (hnested.of_ancestors_eq hbefore.ancestors_eq) ih elapsed

/-- What a run makes of a variable that none of its statements names to give it a value. -/
theorem Visits.local?_eq (h : Visits program m visited after)
    (hbound : (m.scopes.local? scope name).isSome)
    (hnames : ∀ before ∈ visited, before.target? program ≠ some name) :
    after.scopes.local? scope name =
      (lastBound? program scope name visited).or (m.scopes.local? scope name) := by
  induction h with
  | refl => rfl
  | @step visited before elapsed hbefore ih =>
    have hscope := ScopeTree.lt_count_of_local? (hbefore.isSome_local? hbound)
    have hlast : before.target? program ≠ some name :=
      hnames before (List.mem_append_right _ List.mem_cons_self)
    rw [local?_of_step hlast hscope,
      ih fun earlier hmem ↦ hnames earlier (List.mem_append_left _ hmem), lastBound?_concat,
      Option.or_assoc]

variable {linked : Linked}

/--
Inside a function every parameter of the function is bound. Where a call in its body has returned,
and no assignment and no `in` that ran in between named a parameter, the parameter has the value
that the last header bound to its variable in between, and the value from before the call if none
did.
-/
theorem parameter_of_returns {lines : List (List Word)} (hlink : linkLines lines = .ok linked)
    {options : MachineOptions} {input : Input} {output : Output} {earlier : List Machine}
    (hvisits : Visits linked.program (start linked options input output) earlier m) {site : NodeId}
    (hcurrent : m.current = some site) (hnode : linked.program.node? site = some node)
    {header : NodeId} (haround : linked.program.isAround site header = true) {opener : Node}
    (hopener : linked.program.node? header = some opener) {parameter : Parameter}
    (hparameter : parameter ∈ opener.action.parameters)
    (hreturns : Returns linked.program m site visited after)
    (hnames : ∀ before ∈ visited, before.target? linked.program ≠ some parameter.name) :
    ∃ owner value, m.scopes.owner? node.scope parameter.name = some owner ∧
      m.scopes.get? node.scope parameter.name = some value ∧
      after.scopes.get? node.scope parameter.name =
        some ((lastBound? linked.program owner parameter.name visited).getD value) := by
  have hancestors : m.scopes.ancestors = linked.scopes.ancestors := hvisits.ancestors_eq
  have hnested := (nested_of_link hlink).of_ancestors_eq hancestors
  have hbinds := (hvisits.bindsParameters hlink).current site hcurrent
  -- The header stands around the call, so what is bound there is seen at the call.
  obtain ⟨-, close, hpair, hlt, hle⟩ :=
    (Program.isAround_iff (balanced_of_link hlink)).1 haround
  have hscope := scope_of_pair hlink hnode hpair hlt hle hopener
  rw [← hancestors] at hscope
  have hsome := hnested.isSome_owner? hscope (hbinds header opener haround hopener _ hparameter)
  obtain ⟨owner, howner⟩ := Option.isSome_iff_exists.1 hsome
  have hbound := (ScopeTree.owner?_eq_some_iff.1 howner).1
  obtain ⟨value, hvalue⟩ := Option.isSome_iff_exists.1 hbound
  refine ⟨owner, value, howner, ?_, ?_⟩
  · rw [ScopeTree.get?_of_owner? howner, hvalue]
  · rw [ScopeTree.get?_of_owner? (hreturns.visits.owner?_eq hnested howner),
      hreturns.visits.local?_eq hbound hnames, hvalue]
    cases lastBound? linked.program owner parameter.name visited <;> rfl

/-- A function that calls itself and then prints its parameter. -/
def reentrant : List (List Word) :=
  [["function", "f", "number", "n"], ["if", "n"], ["call", "f", "0"], ["out", "n"], ["end"],
    ["end"], ["call", "f", "1"]].zipIdx.map
    fun (words, line) ↦ words.map fun text ↦ ⟨text, "reentrant", line + 1⟩

/-- A run in which the call inside the function returns. -/
def ReturnsReentrant (linked : Linked) (earlier visited : List Machine) (m after : Machine)
    (node opener : Node) : Prop :=
  linkLines reentrant = .ok linked ∧
    Visits linked.program (start linked ⟨none, false⟩ ⟨[]⟩ .fresh) earlier m ∧
    m.current = some 2 ∧ linked.program.node? 2 = some node ∧ linked.program.callee? 2 = some 0 ∧
    linked.program.isAround 2 0 = true ∧ linked.program.node? 0 = some opener ∧
    ⟨"n", .number⟩ ∈ opener.action.parameters ∧ Returns linked.program m 2 visited after ∧
    ∀ before ∈ visited, before.target? linked.program ≠ some "n"

theorem exists_returnsReentrant : ∃ linked earlier visited m after node opener,
    ReturnsReentrant linked earlier visited m after node opener ∧
    m.scopes.get? node.scope "n" = some (.number 1) ∧
    after.scopes.get? node.scope "n" = some (.number 0) := by
  have hsteps : ((linkLines reentrant).toOption.map fun linked ↦
      let m := (runFor linked.program 4 (start linked ⟨none, false⟩ ⟨[]⟩ .fresh)).1
      let visited := visitedFor linked.program 4 m
      (m.current, visited.tail.isEmpty,
        visited.tail.all fun before ↦ decide (2 :: m.calls.sites <:+ before.calls.sites),
        visited.all fun before ↦ decide (before.target? linked.program ≠ some "n"),
        decide ((runFor linked.program 4 m).1.calls.sites = m.calls.sites))) =
      some (some 2, false, true, true, true) := by
    decide +kernel
  have hvalues : ((linkLines reentrant).toOption.map fun linked ↦
      let m := (runFor linked.program 4 (start linked ⟨none, false⟩ ⟨[]⟩ .fresh)).1
      (decide (linked.program.callee? 2 = some 0) && linked.program.isAround 2 0,
        (linked.program.node? 0).map fun opener ↦ opener.action.parameters,
        (linked.program.node? 2).map fun node ↦ (m.scopes.get? node.scope "n",
          (runFor linked.program 4 m).1.scopes.get? node.scope "n"))) =
      some (true, some [⟨"n", .number⟩], some (some (.number 1), some (.number 0))) := by
    decide +kernel
  obtain ⟨linked, hlinked, hfacts⟩ := Chain.exists_of_map_toOption hsteps
  obtain ⟨hcurrent, hrest⟩ := Prod.mk.inj hfacts
  obtain ⟨hentered, hrest⟩ := Prod.mk.inj hrest
  obtain ⟨hduring, hrest⟩ := Prod.mk.inj hrest
  obtain ⟨hnames, hleft⟩ := Prod.mk.inj hrest
  rw [hlinked] at hvalues
  obtain ⟨hsite, hrest⟩ := Prod.mk.inj (Option.some.inj hvalues)
  obtain ⟨hcallee, haround⟩ := Bool.and_eq_true_iff.1 hsite
  obtain ⟨hparameters, hnode⟩ := Prod.mk.inj hrest
  obtain ⟨opener, hopener, hparameters⟩ := Option.map_eq_some_iff.1 hparameters
  obtain ⟨node, hnode, hgets⟩ := Option.map_eq_some_iff.1 hnode
  obtain ⟨hbefore, hafter⟩ := Prod.mk.inj hgets
  have hreturns : Returns linked.program _ 2 _ _ :=
    ⟨visits_of_runFor linked.program 4 _, by simpa using hentered, by simpa using hduring,
      of_decide_eq_true hleft⟩
  exact ⟨linked, _, _, _, _, node, opener,
    ⟨hlinked, visits_of_runFor linked.program 4 _, hcurrent, hnode, of_decide_eq_true hcallee,
      haround, hopener, by rw [hparameters]; simp, hreturns, by simpa using hnames⟩,
    hbefore, hafter⟩

/-- A call in a function that returns with another value of the function's parameter. -/
theorem call_changes_parameter : ∃ linked earlier visited m after node opener,
    ReturnsReentrant linked earlier visited m after node opener ∧
    after.scopes.get? node.scope "n" ≠ m.scopes.get? node.scope "n" := by
  obtain ⟨linked, earlier, visited, m, after, node, opener, hreturns, hbefore, hafter⟩ :=
    exists_returnsReentrant
  refine ⟨linked, earlier, visited, m, after, node, opener, hreturns, ?_⟩
  rw [hbefore, hafter]
  decide

theorem lastBound_reentrant : ∃ linked earlier visited m after node opener owner,
    ReturnsReentrant linked earlier visited m after node opener ∧
    m.scopes.owner? node.scope "n" = some owner ∧
    after.scopes.get? node.scope "n" =
      some ((lastBound? linked.program owner "n" visited).getD (.number 1)) := by
  obtain ⟨linked, earlier, visited, m, after, node, opener, hreturns, hbefore, -⟩ :=
    exists_returnsReentrant
  have ⟨hlinked, hvisits, hcurrent, hnode, _, haround, hopener, hparameter, hreturn, hnames⟩ :=
    hreturns
  obtain ⟨owner, value, howner, hvalue, hafter⟩ := parameter_of_returns hlinked hvisits hcurrent
    hnode haround hopener hparameter hreturn hnames
  rw [hbefore] at hvalue
  cases hvalue
  exact ⟨linked, earlier, visited, m, after, node, opener, owner, hreturns, howner, hafter⟩

end LineScript.Machine
