import LineScript.Proofs.Machine.Failure
import LineScript.Proofs.Machine.Lockstep
import Mathlib.Algebra.Ring.Nat

/-!
# Timing and output are only watched

Nothing that a statement decides depends on whether samples are kept or on where output goes, so
machines that differ in these run in lockstep. The samples in turn say what ran: a statement that
does not fail adds one under its label, and neither a failure nor a jump from outside adds any.
-/

namespace LineScript

/-- What an insertion adds to a sum over all entries is what the new value weighs more than the
old one. -/
theorem Bindings.sum_insertEntry {α : Type} (weight : α → Nat) (name : String) (value : α)
    {entries : List (String × α)} (hascending : entries.Pairwise fun a b ↦ a.1 < b.1) :
    ((insertEntry name value entries).map fun entry ↦ weight entry.2).sum +
        ((entries.lookup name).map weight).getD 0 =
      (entries.map fun entry ↦ weight entry.2).sum + weight value := by
  induction entries with
  | nil => simp [insertEntry]
  | cons head rest ih =>
    obtain ⟨other, content⟩ := head
    obtain ⟨habove, hrest⟩ := List.pairwise_cons.1 hascending
    rw [insertEntry]
    split
    · rename_i hbefore
      have hnone : ((other, content) :: rest).lookup name = none := by
        rw [List.lookup_eq_none_iff]
        intro entry hmem
        rw [bne_iff_ne]
        rintro rfl
        rcases List.mem_cons.1 hmem with rfl | hmem
        · exact String.lt_irrefl _ hbefore
        · exact String.lt_irrefl _ (String.lt_trans hbefore (habove entry hmem))
      rw [hnone]
      simp [Nat.add_comm]
    · split
      · rename_i hsame
        simp [hsame, Nat.add_comm, Nat.add_left_comm]
      · rename_i hdifferent
        have hsum := ih hrest
        rw [List.lookup_cons, beq_false_of_ne hdifferent]
        simp only [List.map_cons, List.sum_cons]
        omega

namespace Timings

theorem length_samplesOf_record (timings : Timings) (label other : String) (elapsed : Nat) :
    ((timings.record label elapsed).samplesOf other).length =
      (timings.samplesOf other).length + [label].count other := by
  unfold samplesOf record
  rw [Bindings.get?_insert]
  by_cases hsame : other = label
  · subst hsame
    simp
  · simp [hsame, Ne.symm hsame]

theorem sum_counts_record (timings : Timings) (label : String) (elapsed : Nat) :
    ((timings.record label elapsed).counts.map Prod.snd).sum =
      (timings.counts.map Prod.snd).sum + 1 := by
  have hsum := Bindings.sum_insertEntry List.length label
    (elapsed :: (timings.samples.get? label).getD []) timings.samples.ascending
  unfold counts record Bindings.insert
  rw [List.map_map, List.map_map]
  change (List.map (fun entry : String × List Nat ↦ entry.2.length) _).sum =
    (List.map (fun entry : String × List Nat ↦ entry.2.length) _).sum + 1
  unfold Bindings.get? at hsum ⊢
  generalize timings.samples.entries.lookup label = old at hsum ⊢
  cases old with
  | none => exact hsum
  | some samples =>
    rw [Option.map_some, Option.getD_some, Option.getD_some, List.length_cons] at hsum
    rw [Option.getD_some]
    dsimp only
    omega

end Timings

namespace Machine

variable {program : Program} {m m' : Machine}

/-- The label of the current statement, if it runs without failing. -/
def completed? (program : Program) (m : Machine) : Option String :=
  match m.step program 0, m.current.bind program.node? with
  | (_, .ok _), some node => some node.action.label
  | _, _ => none

/-- A host runs a program: it takes steps, which may fail, and moves the machine to other positions
as it likes. The list holds the labels of the statements that ran without failing. -/
inductive Hosted (program : Program) (m : Machine) : List String → Machine → Prop where
  | refl : Hosted program m [] m
  | step {labels : List String} {before : Machine} (elapsed : Nat) :
      Hosted program m labels before →
      Hosted program m (labels ++ (before.completed? program).toList)
        (before.step program elapsed).1
  | jump {labels : List String} {before : Machine} (target : Option NodeId) :
      Hosted program m labels before →
      Hosted program m labels { before with current := target }

/-- The samples are those of the statements with some labels, and all of these are counted. -/
def Samples (labels : List String) (m : Machine) : Prop :=
  ∃ timings, m.timings = some timings ∧
    (∀ label, (timings.samplesOf label).length = labels.count label) ∧
    (timings.counts.map Prod.snd).sum = labels.length ∧ m.steps = labels.length

variable {labels : List String}

/-- A statement that does not fail adds one sample under its label, and counts once. -/
theorem Samples.arrive (h : Samples labels m) (elapsed : Nat) (id : NodeId) (node : Node)
    (flow : Flow) :
    Samples (labels ++ [node.action.label]) (m.arrive program elapsed id node flow) := by
  obtain ⟨timings, htimings, hsamples, hsum, hsteps⟩ := h
  refine ⟨timings.record node.action.label elapsed, ?_, fun label ↦ ?_, ?_, ?_⟩
  · exact congrArg (Option.map (·.record node.action.label elapsed)) htimings
  · rw [Timings.length_samplesOf_record, hsamples, List.count_append]
  · rw [Timings.sum_counts_record, hsum, List.length_append, List.length_singleton]
  · rw [List.length_append, List.length_singleton, ← hsteps]
    rfl

/-- Samples depend on what is measured and counted only. -/
theorem Samples.of_eq (h : Samples labels m) (htimings : m'.timings = m.timings)
    (hsteps : m'.steps = m.steps) : Samples labels m' := by
  unfold Samples
  rwa [htimings, hsteps]

/-- No statement touches what is measured and counted: that is done when it has run. -/
theorem Advance.counts_eq {id : NodeId} {node : Node} {flow : Flow}
    (h : Advance program m id node m' flow) : m'.timings = m.timings ∧ m'.steps = m.steps := by
  cases h <;> exact ⟨rfl, rfl⟩

theorem Samples.step (h : Samples labels m) (elapsed : Nat) :
    Samples (labels ++ (m.completed? program).toList) (m.step program elapsed).1 := by
  unfold completed?
  cases hfound : m.current.bind program.node? with
  | none =>
    rw [step_of_missing hfound, step_of_missing hfound]
    simpa using h
  | some node =>
    obtain ⟨id, hcurrent, hnode⟩ := Option.bind_eq_some_iff.1 hfound
    cases hattempt : m.attempt program id node with
    | failed failed fault =>
      rw [step_of_failed hcurrent hnode hattempt, step_of_failed hcurrent hnode hattempt]
      obtain ⟨hsteps, htimings⟩ := (refusal_of_attempt hattempt).counts_eq
      simpa using h.of_eq htimings hsteps
    | done advanced flow =>
      rw [step_of_done hcurrent hnode hattempt, step_of_done hcurrent hnode hattempt]
      obtain ⟨htimings, hsteps⟩ := (advance_of_attempt hattempt).counts_eq
      exact (h.of_eq htimings hsteps).arrive elapsed id node flow

/-- Along a run the samples stay those of what ran. -/
theorem Hosted.samples (h : Hosted program m labels m') (hstart : Samples [] m) :
    Samples labels m' := by
  induction h with
  | refl => exact hstart
  | step elapsed _ ih => exact ih.step elapsed
  | jump target _ ih => exact ih.of_eq rfl rfl

/--
Machines for a program that differ only in timing and in where output goes come to the same
positions, calls, staged values, variables and unread input, and end each step alike. With timing
on, however a host runs the machine, there are as many samples for each label as statements with
that label ran without failing, and together as many as steps are counted.
-/
theorem instrumentation_transparent (linked : Linked) (limit : Option Nat) (input : Input) :
    (∀ (timing timing' : Bool) (output output' : Output) (clock clock' : Nat → Nat) (count : Nat),
      let m := (start linked ⟨limit, timing⟩ input output).stepped linked.program clock count
      let m' := (start linked ⟨limit, timing'⟩ input output').stepped linked.program clock' count
      m'.current = m.current ∧ m'.calls = m.calls ∧ m'.staged = m.staged ∧
        m'.scopes = m.scopes ∧ m'.input = m.input ∧ m'.steps = m.steps ∧
        ∀ elapsed elapsed', (m'.step linked.program elapsed').2 =
          (m.step linked.program elapsed).2) ∧
    ∀ (output : Output) (labels : List String) (m : Machine),
      Hosted linked.program (start linked ⟨limit, true⟩ input output) labels m →
      ∃ timings, m.timings = some timings ∧
        (∀ label, (timings.samplesOf label).length = labels.count label) ∧
        (timings.counts.map Prod.snd).sum = m.steps := by
  constructor
  · intro timing timing' output output' clock clock' count m m'
    have hstart : Agree (fun _ _ ↦ True) (start linked ⟨limit, timing⟩ input output)
        (start linked ⟨limit, timing'⟩ input output') :=
      ⟨rfl, rfl, rfl, rfl, rfl, trivial, rfl⟩
    obtain ⟨hagree, hcalls⟩ := hstart.stepped linked.program (fun _ _ _ _ ↦ trivial) rfl clock
      clock' count
    refine ⟨hagree.current, hcalls, hagree.staged, hagree.scopes, hagree.input, hagree.steps, ?_⟩
    intro elapsed elapsed'
    exact (hagree.step_of_calls_eq linked.program (fun _ _ _ _ ↦ trivial) hcalls elapsed
      elapsed').2.2
  · intro output labels m hhosted
    obtain ⟨timings, htimings, hsamples, hsum, hsteps⟩ :=
      hhosted.samples ⟨.empty, rfl, fun _ ↦ rfl, rfl, rfl⟩
    exact ⟨timings, htimings, hsamples, hsum.trans hsteps.symm⟩

end Machine

end LineScript
