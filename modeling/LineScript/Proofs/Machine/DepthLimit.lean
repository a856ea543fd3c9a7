import LineScript.Proofs.Machine.Lockstep

/-!
# The limit on calls

A limit on the depth of calls changes nothing until a call would pass it. Up to there a run under
the limit and a run without one are in lockstep. The call that would be one too many, its arguments
being bound by then, is refused under the limit, and refused again whenever it is tried again. The
invariant on the side of the limit is that there are never more calls than it allows, which the
chain of calls relates to the backtrace that the refusal reports.
-/

namespace LineScript

namespace CallStack

/-- There are no more calls than there may be. -/
def Within (stack : CallStack) : Prop :=
  ∀ limit, stack.limit = some limit → stack.depth ≤ limit

theorem Within.push {stack after : CallStack} {site : NodeId}
    (h : stack.push site = .ok after) : after.Within := by
  intro limit hlimit
  rw [limit_of_push h] at hlimit
  rw [depth, sites_of_push h, List.length_cons]
  by_contra hfull
  rw [push_of_le hlimit (Nat.not_lt.1 hfull)] at h
  cases h

theorem Within.pop? {stack outer : CallStack} {site : NodeId} (hwithin : stack.Within)
    (h : stack.pop? = some (site, outer)) : outer.Within := by
  intro limit hlimit
  rw [limit_of_pop? h] at hlimit
  calc
    outer.depth ≤ (site :: outer.sites).length := Nat.le_succ _
    _ = stack.depth := by rw [depth, sites_of_pop? h]
    _ ≤ limit := hwithin limit hlimit

/-- Below its limit, a stack enters calls just as one without a limit. -/
theorem entersAlike_of_ne {stack bounded : CallStack} {limit : Nat}
    (hfree : stack.limit = none) (hbound : bounded.limit = some limit)
    (hsites : bounded.sites = stack.sites) (hwithin : bounded.Within)
    (hne : stack.depth ≠ limit) : stack.EntersAlike bounded := by
  intro site
  have hroom : ∀ found, bounded.limit = some found → bounded.depth < found := by
    intro found hfound
    rw [hbound] at hfound
    cases hfound
    refine lt_of_le_of_ne (hwithin limit hbound) ?_
    rwa [depth, hsites]
  rw [push_of_lt hroom, push_of_lt (by simp [hfree])]
  exact congrArg (fun sites ↦ Except.ok (site :: sites)) hsites

end CallStack

namespace Machine

variable {program : Program} {m m' : Machine} {limit : Nat}

/-- The current statement is a call with arguments that can be bound, and there are as many calls
as a limit allows already. -/
def CallsAt (program : Program) (limit : Nat) (m : Machine) : Prop :=
  m.isCalling program = true ∧ m.calls.depth = limit

instance : Decidable (CallsAt program limit m) :=
  inferInstanceAs (Decidable (_ ∧ _))

theorem Agree.callsAt {Similar : Output → Output → Prop} (h : Agree Similar m m')
    (hcall : CallsAt program limit m) : CallsAt program limit m' :=
  ⟨h.isCalling.trans hcall.1, h.depth.trans hcall.2⟩

theorem within_of_step (elapsed : Nat) (hwithin : m.calls.Within) :
    (m.step program elapsed).1.calls.Within := by
  rcases step_cases program m elapsed with
    ⟨id, node, advanced, flow, -, -, hadvance, hafter⟩ | ⟨-, -, hcalls, -, -⟩
  · rw [hafter]
    change advanced.calls.Within
    cases hadvance with
    | call _ _ hpush => exact .push hpush
    | «return» _ hpop => exact hwithin.pop? hpop
    | _ => exact hwithin
  · rwa [hcalls]

/-- Below the limit, a step is the same with and without it. -/
theorem Agree.step_of_not_callsAt (h : Agree (· = ·) m m') (hfree : m.calls.limit = none)
    (hbound : m'.calls.limit = some limit) (hwithin : m'.calls.Within)
    (hbelow : ¬ CallsAt program limit m) (elapsed elapsed' : Nat) :
    Agree (· = ·) (m.step program elapsed).1 (m'.step program elapsed').1 ∧
      (m'.step program elapsed').2 = (m.step program elapsed).2 := by
  apply h.step program survivesWriting_eq
  intro hcalling
  exact CallStack.entersAlike_of_ne hfree hbound h.sites hwithin fun hdepth ↦
    hbelow ⟨hcalling, hdepth⟩

/-- At the limit, a call is refused. -/
theorem step_of_callsAt (hbound : m.calls.limit = some limit) (hcall : CallsAt program limit m)
    (elapsed : Nat) : ∃ location, m.step program elapsed =
      (m, .error ⟨location, .recursionLimit ⟨limit⟩, m.backtrace program⟩) := by
  obtain ⟨hcalling, hdepth⟩ := hcall
  cases hfound : m.current.bind program.node? with
  | none =>
    rw [isCalling, hfound] at hcalling
    cases hcalling
  | some node =>
    obtain ⟨id, hcurrent, hnode⟩ := Option.bind_eq_some_iff.1 hfound
    obtain ⟨callee, function, arguments, values, haction, hvalues⟩ :=
      (isCalling_iff hcurrent hnode).1 hcalling
    refine ⟨node.location, step_of_failed hcurrent hnode ?_⟩
    unfold attempt
    rw [haction]
    dsimp only
    rw [runCall, hvalues]
    dsimp only
    rw [CallStack.push_of_le hbound (Nat.le_of_eq hdepth.symm)]

section Runs

variable (clock clock' : Nat → Nat)

theorem within_stepped (hwithin : m.calls.Within) (count : Nat) :
    (m.stepped program clock count).calls.Within := by
  induction count with
  | zero => exact hwithin
  | succ count ih => exact within_of_step _ ih

/-- As long as no call is one too many, the runs are in lockstep. -/
theorem Agree.stepped_of_not_callsAt (h : Agree (· = ·) m m') (hfree : m.calls.limit = none)
    (hbound : m'.calls.limit = some limit) (hwithin : m'.calls.Within) {count : Nat}
    (hbelow : ∀ earlier < count, ¬ CallsAt program limit (m.stepped program clock earlier)) :
    Agree (· = ·) (m.stepped program clock count) (m'.stepped program clock' count) := by
  induction count with
  | zero => exact h
  | succ count ih =>
    have hbefore := ih fun earlier hlt ↦ hbelow earlier (Nat.lt_succ_of_lt hlt)
    exact (hbefore.step_of_not_callsAt ((limit_stepped program clock m count).trans hfree)
      ((limit_stepped program clock' m' count).trans hbound)
      (within_stepped clock' hwithin count) (hbelow count (Nat.lt_succ_self count)) _ _).1

end Runs

/-- Two runs go on alike at some point: they agree there and the next step ends alike in both. -/
def GoOnAlike (program : Program) (m m' : Machine) : Prop :=
  Agree (· = ·) m m' ∧ ∀ elapsed elapsed',
    (m'.step program elapsed').2 = (m.step program elapsed).2

/-- A call is refused for a limit, and the machine stays as it is. -/
def RefusesCall (program : Program) (limit : Nat) (m : Machine) : Prop :=
  ∀ elapsed, ∃ failure, m.step program elapsed = (m, .error failure) ∧
    failure.fault = .recursionLimit ⟨limit⟩ ∧ failure.backtrace.length = limit

variable {linked : Linked}

/--
A run under a limit and a run without one are in lockstep up to the first call that is one too many.
There the call is refused, with a backtrace as long as the limit, and the machine stays as it is.
Where no such call is ever reached, the runs go on alike for ever. There are never more calls than
the limit allows.
-/
theorem depthLimit_of_linkLines {lines : List (List Word)}
    (hlink : linkLines lines = .ok linked) (limit : Nat) (timing : Bool) (input : Input)
    (output : Output) (clock clock' : Nat → Nat) :
    let free := (start linked ⟨none, timing⟩ input output).stepped linked.program clock
    let bound := (start linked ⟨some limit, timing⟩ input output).stepped linked.program clock'
    (∀ count, (∀ earlier < count, ¬ CallsAt linked.program limit (free earlier)) →
      Agree (· = ·) (free count) (bound count) ∧
      (¬ CallsAt linked.program limit (free count) →
        GoOnAlike linked.program (free count) (bound count)) ∧
      (CallsAt linked.program limit (free count) →
        RefusesCall linked.program limit (bound count))) ∧
    ((∀ count, ¬ CallsAt linked.program limit (free count)) →
      ∀ count, GoOnAlike linked.program (free count) (bound count)) ∧
    ∀ count, (bound count).calls.depth ≤ limit := by
  intro free bound
  have hfree : ∀ count, (free count).calls.limit = none := limit_stepped _ _ _
  have hbound : ∀ count, (bound count).calls.limit = some limit := limit_stepped _ _ _
  have hwithin : ∀ count, (bound count).calls.Within :=
    within_stepped clock' fun _ _ ↦ Nat.zero_le _
  have hagree : ∀ count, (∀ earlier < count, ¬ CallsAt linked.program limit (free earlier)) →
      Agree (· = ·) (free count) (bound count) := by
    intro count hbelow
    refine Agree.stepped_of_not_callsAt clock clock' ?_ rfl rfl ?_ hbelow
    · exact ⟨rfl, rfl, rfl, rfl, rfl, rfl, rfl⟩
    · exact fun _ _ ↦ Nat.zero_le _
  have halike : ∀ count, (∀ earlier < count, ¬ CallsAt linked.program limit (free earlier)) →
      ¬ CallsAt linked.program limit (free count) →
      GoOnAlike linked.program (free count) (bound count) := by
    intro count hbelow hcount
    refine ⟨hagree count hbelow, fun elapsed elapsed' ↦ ?_⟩
    exact ((hagree count hbelow).step_of_not_callsAt (hfree count) (hbound count) (hwithin count)
      hcount elapsed elapsed').2
  refine ⟨fun count hbelow ↦ ⟨hagree count hbelow, halike count hbelow, ?_⟩, ?_, ?_⟩
  · intro hcount elapsed
    have hcall : CallsAt linked.program limit (bound count) := (hagree count hbelow).callsAt hcount
    obtain ⟨location, hstep⟩ := step_of_callsAt (hbound count) hcall elapsed
    refine ⟨_, hstep, rfl, ?_⟩
    obtain ⟨visited, hvisits⟩ := visits_stepped linked.program clock'
      (start linked ⟨some limit, timing⟩ input output) count
    have hchain := hvisits.inChain hlink (inChain_start hlink linked.scopes _ input output)
    have hlength := congrArg List.length (hchain.failure hlink hstep).2
    rw [List.length_map, List.length_map] at hlength
    exact hlength.trans hcall.2
  · exact fun hnever count ↦ halike count (fun earlier _ ↦ hnever earlier) (hnever count)
  · exact fun count ↦ hwithin count limit (hbound count)

/-- A function that calls itself for ever. -/
def endless : List (List Word) :=
  [["function", "f"], ["call", "f"], ["end"], ["call", "f"]].zipIdx.map
    fun (words, line) ↦ words.map fun text ↦ ⟨text, "endless", line + 1⟩

theorem depthLimit_endless : ∃ linked failure, linkLines endless = .ok linked ∧
    let before := (start linked ⟨some 2, true⟩ ⟨[]⟩ .fresh).stepped linked.program (fun _ ↦ 1) 5
    before.step linked.program 1 = (before, .error failure) ∧
      failure.fault = .recursionLimit ⟨2⟩ ∧ failure.backtrace.length = 2 := by
  have hrun : ((linkLines endless).toOption.map fun linked ↦
      let free := (start linked ⟨none, true⟩ ⟨[]⟩ .fresh).stepped linked.program (fun _ ↦ 0)
      ((List.range 5).all fun earlier ↦ !decide (CallsAt linked.program 2 (free earlier)),
        decide (CallsAt linked.program 2 (free 5)))) = some (true, true) := by
    decide +kernel
  obtain ⟨linked, hlinked, hfacts⟩ := Chain.exists_of_map_toOption hrun
  obtain ⟨hbelow, hcount⟩ := Prod.mk.inj hfacts
  obtain ⟨-, -, hrefuses⟩ := (depthLimit_of_linkLines hlinked 2 true ⟨[]⟩ .fresh (fun _ ↦ 0)
    (fun _ ↦ 1)).1 5 fun earlier hlt ↦ by
      simpa using List.all_eq_true.1 hbelow earlier (List.mem_range.2 hlt)
  obtain ⟨failure, hfailure⟩ := hrefuses (of_decide_eq_true hcount) 1
  exact ⟨linked, failure, hlinked, hfailure⟩

end Machine

end LineScript
