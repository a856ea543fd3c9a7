import Mathlib.Data.List.Forall2

/-!
# Chains of computations that may fail

A chain succeeds exactly when each of its computations does, and otherwise fails as the first of
them that fails. A change of results and faults that every computation of a chain bears, the chain
bears as a whole.
-/

namespace LineScript.Chain

variable {α β γ δ ε φ : Type}

theorem exists_eq_ok {first : Except ε α} (h : first.toOption.isSome = true) :
    ∃ value, first = .ok value := by
  cases first with
  | error fault => cases h
  | ok value => exact ⟨value, rfl⟩

theorem toOption_eq_some_iff {first : Except ε α} {value : α} :
    first.toOption = some value ↔ first = .ok value := by
  cases first <;> simp [Except.toOption]

theorem exists_of_map_toOption {first : Except ε α} {f : α → β} {result : β}
    (h : first.toOption.map f = some result) : ∃ value, first = .ok value ∧ f value = result := by
  cases first with
  | error fault => cases h
  | ok value => exact ⟨value, rfl, Option.some.inj h⟩

theorem bind_eq_ok_iff {first : Except ε α} {next : α → Except ε β} {result : β} :
    first >>= next = .ok result ↔ ∃ value, first = .ok value ∧ next value = .ok result := by
  cases first with
  | error fault => simp [bind, Except.bind]
  | ok value => simp [bind, Except.bind]

theorem map_eq_ok_iff {first : Except ε α} {f : α → β} {result : β} :
    first.map f = .ok result ↔ ∃ value, first = .ok value ∧ f value = result := by
  cases first with
  | error fault => simp [Except.map]
  | ok value => simp [Except.map]

theorem map_eq_error_iff {first : Except ε α} {f : α → β} {fault : ε} :
    first.map f = .error fault ↔ first = .error fault := by
  cases first with
  | error found => simp [Except.map]
  | ok value => simp [Except.map]

/-- A list of computations succeeds when each of them does. -/
theorem forall₂_of_mapM {f : α → Except ε β} {inputs : List α} {results : List β}
    (h : inputs.mapM f = .ok results) :
    List.Forall₂ (fun input result ↦ f input = .ok result) inputs results := by
  induction inputs generalizing results with
  | nil =>
    rw [List.mapM_nil] at h
    cases h
    exact .nil
  | cons input rest ih =>
    rw [List.mapM_cons] at h
    obtain ⟨first, hfirst, hrest⟩ := bind_eq_ok_iff.1 h
    obtain ⟨others, hothers, hresult⟩ := bind_eq_ok_iff.1 hrest
    cases hresult
    exact .cons hfirst (ih hothers)

theorem bind_eq_error_iff {first : Except ε α} {next : α → Except ε β} {fault : ε} :
    first >>= next = .error fault ↔
      first = .error fault ∨ ∃ value, first = .ok value ∧ next value = .error fault := by
  cases first with
  | error found => simp [bind, Except.bind]
  | ok value => simp [bind, Except.bind]

/-- A list of computations fails as the first of them that fails. -/
theorem exists_split_of_mapM {f : α → Except ε β} {inputs : List α} {fault : ε}
    (h : inputs.mapM f = .error fault) : ∃ before input after, inputs = before ++ input :: after ∧
      (∀ earlier ∈ before, ∃ result, f earlier = .ok result) ∧ f input = .error fault := by
  induction inputs with
  | nil =>
    rw [List.mapM_nil] at h
    cases h
  | cons input rest ih =>
    rw [List.mapM_cons] at h
    rcases bind_eq_error_iff.1 h with hfirst | ⟨first, hfirst, hrest⟩
    · exact ⟨[], input, rest, rfl, by simp, hfirst⟩
    · rcases bind_eq_error_iff.1 hrest with hrest | ⟨others, -, hresult⟩
      · obtain ⟨before, other, after, rfl, hbefore, hother⟩ := ih hrest
        refine ⟨input :: before, other, after, rfl, fun earlier hmem ↦ ?_, hother⟩
        rcases List.mem_cons.1 hmem with rfl | hmem
        · exact ⟨first, hfirst⟩
        · exact hbefore earlier hmem
      · cases hresult

/-- A list of computations fails as one of them does. -/
theorem exists_error_of_mapM {f : α → Except ε β} {inputs : List α} {fault : ε}
    (h : inputs.mapM f = .error fault) : ∃ input ∈ inputs, f input = .error fault := by
  obtain ⟨before, input, after, rfl, -, hinput⟩ := exists_split_of_mapM h
  exact ⟨input, by simp, hinput⟩

/-- A fold fails at the first input that it does not accept. -/
theorem exists_split_of_foldlM {f : β → α → Except ε β} {state : β} {inputs : List α} {fault : ε}
    (h : inputs.foldlM f state = .error fault) : ∃ before input after reached,
      inputs = before ++ input :: after ∧ before.foldlM f state = .ok reached ∧
        f reached input = .error fault := by
  induction inputs generalizing state with
  | nil =>
    rw [List.foldlM_nil] at h
    cases h
  | cons input rest ih =>
    rw [List.foldlM_cons] at h
    rcases bind_eq_error_iff.1 h with hfirst | ⟨next, hnext, hrest⟩
    · exact ⟨[], input, rest, state, rfl, rfl, hfirst⟩
    · obtain ⟨before, other, after, reached, rfl, hreached, hother⟩ := ih hrest
      refine ⟨input :: before, other, after, reached, rfl, ?_, hother⟩
      rw [List.foldlM_cons]
      exact bind_eq_ok_iff.2 ⟨next, hnext, hreached⟩

/-- A list of computations fails at the first that does. -/
theorem mapM_eq_error {f : α → Except ε β} {before after : List α} {input : α} {fault : ε}
    (hbefore : ∀ earlier ∈ before, ∃ result, f earlier = .ok result)
    (hinput : f input = .error fault) : (before ++ input :: after).mapM f = .error fault := by
  induction before with
  | nil =>
    rw [List.nil_append, List.mapM_cons]
    exact bind_eq_error_iff.2 (.inl hinput)
  | cons first rest ih =>
    obtain ⟨result, hresult⟩ := hbefore first List.mem_cons_self
    rw [List.cons_append, List.mapM_cons]
    refine bind_eq_error_iff.2 (.inr ⟨result, hresult, bind_eq_error_iff.2 (.inl ?_)⟩)
    exact ih fun earlier hmem ↦ hbefore earlier (List.mem_cons_of_mem _ hmem)

/-- A computation with its result and its fault changed. -/
def carry (f : α → β) (g : ε → φ) : Except ε α → Except φ β
  | .ok result => .ok (f result)
  | .error fault => .error (g fault)

variable {f : α → β} {g : ε → φ}

theorem carry_eq_ok_iff {first : Except ε α} {result : β} :
    carry f g first = .ok result ↔ ∃ value, first = .ok value ∧ f value = result := by
  cases first <;> simp [carry]

theorem carry_eq_error_iff {first : Except ε α} {fault : φ} :
    carry f g first = .error fault ↔ ∃ found, first = .error found ∧ g found = fault := by
  cases first <;> simp [carry]

theorem carry_bind {f' : γ → δ} {first : Except ε α} {next : α → Except ε γ}
    {next' : β → Except φ δ} (hnext : ∀ value, carry f' g (next value) = next' (f value)) :
    carry f' g (first >>= next) = carry f g first >>= next' := by
  cases first with
  | error fault => rfl
  | ok value => exact hnext value

theorem carry_foldlM {f : β → δ} {change : α → γ} {step : β → α → Except ε β}
    {step' : δ → γ → Except φ δ}
    (hstep : ∀ state input, carry f g (step state input) = step' (f state) (change input))
    (inputs : List α) (state : β) :
    carry f g (inputs.foldlM step state) = (inputs.map change).foldlM step' (f state) := by
  induction inputs generalizing state with
  | nil => rfl
  | cons input rest ih =>
    rw [List.foldlM_cons, List.map_cons, List.foldlM_cons, ← hstep]
    exact carry_bind ih

theorem carry_mapM {change : α → γ} {f : β → δ} {step : α → Except ε β} {step' : γ → Except φ δ}
    (hstep : ∀ input, carry f g (step input) = step' (change input)) (inputs : List α) :
    carry (List.map f) g (inputs.mapM step) = (inputs.map change).mapM step' := by
  induction inputs with
  | nil => rfl
  | cons input rest ih =>
    rw [List.mapM_cons, List.map_cons, List.mapM_cons, ← hstep, ← ih]
    refine carry_bind fun value ↦ carry_bind fun others ↦ rfl

end LineScript.Chain
